import Albatross.Primitives.Coin
import Albatross.Account.Interaction
import Albatross.Collections.BitSet
import Albatross.Primitives.SlotsAllocation
import Albatross.Vrf.Discrete
import Albatross.Lib.Increasing

/- The batch rewards of `Blockchain::create_reward_transactions`
   (blockchain/src/blockchain/inherents.rs). The block reward of the batch
   (`block_reward_for_batch`, an f64 computation) is an input; the staking contract,
   the accounts tree and the random source of the macro header's seed are read
   through functions. A validator's slot band comes with its address, which the
   `Validator` of the slot allocation carries beside it. A panic is `none`. -/
namespace Albatross

variable {A K R : Type}

structure RewardTransaction (A : Type) where
  validatorAddress : A
  recipient : A
  value : Coin
  deriving DecidableEq

/-- What the reward loop reads of a validator of the staking contract. -/
structure StakingValidator (A : Type) where
  address : A
  rewardAddress : A

/-- The state of the loop over the validator slots. -/
structure RewardState (A : Type) where
  firstSlotNumber : Nat
  /-- the punished slots the peekable iterator has not yet yielded -/
  penalized : List Nat
  transactions : List (RewardTransaction A)
  numEligibleSlotsForAcceptedTx : List Nat
  burnedReward : Coin

/-- The `while let Some(next_penalized_slot) = penalized_set_iter.peek()` loop over
    one band: the iterator left, the eligible and the penalized slot counts. -/
def penalizedLoop (firstSlotNumber lastSlotNumber : Nat) :
    List Nat → Nat → Nat → Option (List Nat × Nat × Nat)
  | [], numEligible, numPenalized => some ([], numEligible, numPenalized)
  | slot :: rest, numEligible, numPenalized =>
    -- `*next_penalized_slot as u16`
    let next := slot % 2 ^ 16
    if next < firstSlotNumber then none
    else if next < lastSlotNumber then
      if numEligible = 0 then none
      else penalizedLoop firstSlotNumber lastSlotNumber rest (numEligible - 1) (numPenalized + 1)
    else some (slot :: rest, numEligible, numPenalized)

/-- One round of the loop over the validator slots: pay the band's eligible slots to
    the validator's reward address, or burn them if that is not a basic account. -/
def rewardStep (getValidator : A → Option (StakingValidator A)) (accountType : A → AccountType)
    (slotReward : Coin) (st : RewardState A) (slot : A × Validator K) : Option (RewardState A) := do
  let lastSlotNumber := st.firstSlotNumber + slot.2.numSlots
  let (penalized, numEligible, numPenalized) ←
    penalizedLoop st.firstSlotNumber lastSlotNumber st.penalized slot.2.numSlots 0
  let reward ← slotReward.checkedMul numEligible
  let burnedPenalties ← slotReward.checkedMul numPenalized
  let burnedReward ← st.burnedReward.add burnedPenalties
  let validator ← getValidator slot.1
  let tx : RewardTransaction A := ⟨validator.address, validator.rewardAddress, reward⟩
  if accountType tx.recipient = .basic then
    some ⟨lastSlotNumber, penalized, st.transactions ++ [tx],
      st.numEligibleSlotsForAcceptedTx ++ [numEligible], burnedReward⟩
  else
    let burnedReward ← burnedReward.add reward
    some ⟨lastSlotNumber, penalized, st.transactions, st.numEligibleSlotsForAcceptedTx, burnedReward⟩

/-- `create_reward_transactions`. `previousSlots` and `currentSlots` are the fields of
    the blockchain state the code `expect`s to be set. -/
def createRewardTransactions (p : Policy) (blockNumber : Nat)
    (previousSlots currentSlots : Option (List (A × Validator K))) (penalizedSet : BitSet)
    (blockReward txFees : Coin) (getValidator : A → Option (StakingValidator A))
    (accountType : A → AccountType) (burnAddress : A) (nextU64Below : R → Nat → Nat × R)
    (rng : R) : Option (List (RewardTransaction A)) :=
  -- `Policy::batch_at(block_number) - 1 == 0`, in u32
  if u32WrappingPred (p.batchAt blockNumber) = 0 then some []
  else do
    let validatorSlots ← (if p.firstBatchOfEpoch blockNumber then previousSlots else currentSlots)
    let rewardPot ← blockReward.add txFees
    let slotReward := rewardPot.div Policy.SLOTS
    let remainder := rewardPot.rem Policy.SLOTS
    let st ← validatorSlots.foldlM (rewardStep getValidator accountType slotReward)
      ⟨0, penalizedSet.iter, [], [], Coin.zero⟩
    if st.transactions.length ≠ st.numEligibleSlotsForAcceptedTx.length then none
    let lookup ← DiscreteDistribution.new st.numEligibleSlotsForAcceptedTx
    let index ← lookup.sample nextU64Below rng
    let tx ← st.transactions[index]?
    let value ← tx.value.add remainder
    let transactions :=
      (st.transactions.set index { tx with value := value }).filter fun t => t.value.val ≠ 0
    if st.burnedReward.val > 0 then
      some (transactions ++ [⟨burnAddress, burnAddress, st.burnedReward⟩])
    else some transactions

theorem penalizedLoop_spec {first last : Nat} {slots : List Nat}
    (increasing : slots.Pairwise (· < ·)) (inRange : ∀ s ∈ slots, first ≤ s ∧ s < 2 ^ 16)
    (numEligible numPenalized : Nat) (enough : (slots.takeWhile (· < last)).length ≤ numEligible) :
    penalizedLoop first last slots numEligible numPenalized =
      some (slots.dropWhile (· < last), numEligible - (slots.takeWhile (· < last)).length,
        numPenalized + (slots.takeWhile (· < last)).length) := by
  induction slots generalizing numEligible numPenalized with
  | nil => simp [penalizedLoop]
  | cons slot rest ih =>
    obtain ⟨low, small⟩ := inRange slot List.mem_cons_self
    rw [List.pairwise_cons] at increasing
    have cast : slot % 2 ^ 16 = slot := Nat.mod_eq_of_lt small
    by_cases lt : slot < last
    · have taken : (slot :: rest).takeWhile (· < last) = slot :: rest.takeWhile (· < last) :=
        List.takeWhile_cons_of_pos (by simpa using lt)
      have dropped : (slot :: rest).dropWhile (· < last) = rest.dropWhile (· < last) :=
        List.dropWhile_cons_of_pos (by simpa using lt)
      rw [taken, List.length_cons] at enough ⊢
      rw [dropped]
      have step := ih increasing.2 (fun s mem => inRange s (List.mem_cons_of_mem _ mem))
        (numEligible - 1) (numPenalized + 1) (by omega)
      unfold penalizedLoop
      rw [cast, if_neg (Nat.not_lt.mpr low), if_pos lt, if_neg (by omega), step]
      congr 3 <;> omega
    · have taken : (slot :: rest).takeWhile (· < last) = [] :=
        List.takeWhile_cons_of_neg (by simpa using lt)
      have dropped : (slot :: rest).dropWhile (· < last) = slot :: rest :=
        List.dropWhile_cons_of_neg (by simpa using lt)
      rw [taken, dropped]
      unfold penalizedLoop
      rw [cast, if_neg (Nat.not_lt.mpr low), if_neg lt]
      rfl

/-- Everything a successful round did: the band's slots were scanned, the validator
    was found, and the band's eligible count was recorded exactly when its reward
    address is a basic account. -/
theorem rewardStep_eq_some {getValidator : A → Option (StakingValidator A)}
    {accountType : A → AccountType} {slotReward : Coin} {st st' : RewardState A}
    {slot : A × Validator K}
    (ok : rewardStep getValidator accountType slotReward st slot = some st') :
    ∃ penalized numEligible numPenalized validator,
      penalizedLoop st.firstSlotNumber (st.firstSlotNumber + slot.2.numSlots) st.penalized
          slot.2.numSlots 0 = some (penalized, numEligible, numPenalized) ∧
        getValidator slot.1 = some validator ∧
        st'.firstSlotNumber = st.firstSlotNumber + slot.2.numSlots ∧ st'.penalized = penalized ∧
        (accountType validator.rewardAddress = .basic ∧
            st'.numEligibleSlotsForAcceptedTx = st.numEligibleSlotsForAcceptedTx ++ [numEligible] ∨
          accountType validator.rewardAddress ≠ .basic ∧
            st'.numEligibleSlotsForAcceptedTx = st.numEligibleSlotsForAcceptedTx) := by
  simp only [rewardStep, Option.bind_eq_bind, Option.bind_eq_some_iff] at ok
  obtain ⟨⟨penalized, numEligible, numPenalized⟩, scanned, reward, -, burned, -, burnedReward, -,
    validator, found, paid⟩ := ok
  refine ⟨penalized, numEligible, numPenalized, validator, scanned, found, ?_⟩
  split at paid
  · rename_i basic
    cases paid
    exact ⟨rfl, rfl, .inl ⟨basic, rfl⟩⟩
  · rename_i other
    cases total : burnedReward.add reward with
    | none =>
      rw [total] at paid
      cases paid
    | some total =>
      rw [total] at paid
      cases paid
      exact ⟨rfl, rfl, .inr ⟨other, rfl⟩⟩

/-- The punished slots the iterator still holds: an increasing tail of the punished
    set, below `SLOTS`, with every punished slot from the current band on. -/
structure PenaltyTail (punished : List Nat) (st : RewardState A) : Prop where
  increasing : st.penalized.Pairwise (· < ·)
  inRange : ∀ s ∈ st.penalized, st.firstSlotNumber ≤ s ∧ s < Policy.SLOTS
  complete : ∀ s ∈ punished, st.firstSlotNumber ≤ s → s ∈ st.penalized

theorem penaltyTail_start (b : BitSet) (inRange : ∀ s ∈ b.iter, s < Policy.SLOTS) :
    PenaltyTail b.iter (⟨0, b.iter, [], [], Coin.zero⟩ : RewardState A) :=
  ⟨b.iter_increasing, fun s mem => ⟨Nat.zero_le s, inRange s mem⟩, fun _ mem _ => mem⟩

section Bands

variable {punished : List Nat} {st : RewardState A} {v : Validator K}

/-- Over a band that starts at the current slot, the scan takes the band's punished
    slots and counts them as penalized. -/
theorem PenaltyTail.scan (tail : PenaltyTail punished st) (start : v.slotsStart = st.firstSlotNumber)
    (valid : v.slotsStart ≤ v.slotsEnd) :
    penalizedLoop st.firstSlotNumber (st.firstSlotNumber + v.numSlots) st.penalized v.numSlots 0 =
      some (st.penalized.dropWhile (· < v.slotsEnd),
        v.numSlots - (st.penalized.takeWhile (· < v.slotsEnd)).length,
        (st.penalized.takeWhile (· < v.slotsEnd)).length) := by
  have last : st.firstSlotNumber + v.numSlots = v.slotsEnd := by
    unfold Validator.numSlots
    omega
  have counted : (st.penalized.takeWhile (· < v.slotsEnd)).length ≤
      v.slotsEnd - st.firstSlotNumber :=
    length_takeWhile_le tail.increasing fun s mem => (tail.inRange s mem).1
  have small : ∀ s ∈ st.penalized, st.firstSlotNumber ≤ s ∧ s < 2 ^ 16 := fun s mem =>
    ⟨(tail.inRange s mem).1, lt_trans (tail.inRange s mem).2 (by decide)⟩
  rw [last, penalizedLoop_spec tail.increasing small _ _ (by unfold Validator.numSlots; omega),
    Nat.zero_add]

theorem PenaltyTail.all_punished (tail : PenaltyTail punished st)
    (start : v.slotsStart = st.firstSlotNumber)
    (full : ∀ s, v.slotsStart ≤ s → s < v.slotsEnd → s ∈ punished) :
    (st.penalized.takeWhile (· < v.slotsEnd)).length = v.numSlots :=
  length_takeWhile_eq tail.increasing (fun s mem => start ▸ (tail.inRange s mem).1)
    fun s low high => tail.complete s (full s low high) (by omega)

theorem PenaltyTail.next (tail : PenaltyTail punished st) (ahead : st.firstSlotNumber ≤ v.slotsEnd)
    {st' : RewardState A} (first : st'.firstSlotNumber = v.slotsEnd)
    (rest : st'.penalized = st.penalized.dropWhile (· < v.slotsEnd)) :
    PenaltyTail punished st' := by
  refine ⟨?_, fun s mem => ?_, fun s mem above => ?_⟩
  · rw [rest]
    exact tail.increasing.sublist (List.dropWhile_sublist _)
  · rw [rest] at mem
    rw [first]
    exact ⟨le_of_mem_dropWhile tail.increasing mem,
      (tail.inRange s ((List.dropWhile_sublist _).subset mem)).2⟩
  · rw [rest]
    rw [first] at above
    exact mem_dropWhile_of_le (tail.complete s mem (by omega)) above

end Bands

/-- Run lemma: over bands that partition the slots from the current one up to `SLOTS`,
    when every band either pays a non-basic account or has all of its slots punished,
    every recorded eligible count stays zero. -/
theorem rewardLoop_no_eligible {getValidator : A → Option (StakingValidator A)}
    {accountType : A → AccountType} {slotReward : Coin} {punished : List Nat}
    {bands : List (A × Validator K)} {st st' : RewardState A}
    (partition : Validators.Partition st.firstSlotNumber Policy.SLOTS (bands.map Prod.snd))
    (tail : PenaltyTail punished st) (zero : ∀ e ∈ st.numEligibleSlotsForAcceptedTx, e = 0)
    (noneEligible : ∀ a v, (a, v) ∈ bands → ∀ val, getValidator a = some val →
      accountType val.rewardAddress ≠ .basic ∨ ∀ s, v.slotsStart ≤ s → s < v.slotsEnd → s ∈ punished)
    (run : bands.foldlM (rewardStep getValidator accountType slotReward) st = some st') :
    ∀ e ∈ st'.numEligibleSlotsForAcceptedTx, e = 0 := by
  -- induction on the bands, carrying the iterator invariant from band to band
  induction bands generalizing st with
  | nil =>
    cases run
    exact zero
  | cons slot bands ih =>
    obtain ⟨a, v⟩ := slot
    rw [List.foldlM_cons] at run
    obtain ⟨mid, step, rest⟩ := Option.bind_eq_some_iff.mp run
    rw [List.map_cons] at partition
    dsimp only at partition
    generalize current : st.firstSlotNumber = first at partition
    cases partition with
    | cons start valid later =>
      obtain ⟨penalized, numEligible, numPenalized, validator, scanned, found, first, pen, paid⟩ :=
        rewardStep_eq_some step
      dsimp only at scanned found first
      rw [← current] at start
      rw [tail.scan start valid, Option.some.injEq, Prod.mk.injEq, Prod.mk.injEq] at scanned
      obtain ⟨rfl, rfl, rfl⟩ := scanned
      have last : mid.firstSlotNumber = v.slotsEnd := by
        rw [first]
        unfold Validator.numSlots
        omega
      have zero' : ∀ e ∈ mid.numEligibleSlotsForAcceptedTx, e = 0 := by
        rcases paid with ⟨basic, recorded⟩ | ⟨-, kept⟩
        · intro e mem
          rw [recorded, List.mem_append, List.mem_singleton] at mem
          rcases mem with old | rfl
          · exact zero e old
          · rcases noneEligible a v List.mem_cons_self validator found with other | full
            · exact absurd basic other
            · rw [tail.all_punished start full, Nat.sub_self]
        · rw [kept]
          exact zero
      exact ih (last ▸ later) (tail.next (by omega) last pen) zero'
        (fun a' v' mem => noneEligible a' v' (List.mem_cons_of_mem _ mem)) rest

/-- `create_reward_transactions` panics, for every reward pot and random seed, when the
    slot bands partition `[0, SLOTS)`, the punished slots lie in that range, and every
    validator either has a reward address that is not a basic account or had all of its
    slots punished: the remainder then has no eligible slot to go to, and
    `DiscreteDistribution::new` asserts a positive total weight. -/
theorem create_reward_transactions_panics (p : Policy) (blockNumber : Nat)
    (previousSlots currentSlots : Option (List (A × Validator K))) (slots : List (A × Validator K))
    (penalizedSet : BitSet) (blockReward txFees : Coin)
    (getValidator : A → Option (StakingValidator A)) (accountType : A → AccountType)
    (burnAddress : A) (nextU64Below : R → Nat → Nat × R) (rng : R)
    (later : u32WrappingPred (p.batchAt blockNumber) ≠ 0)
    (chosen : (if p.firstBatchOfEpoch blockNumber then previousSlots else currentSlots) = some slots)
    (bands : Validators.Partition 0 Policy.SLOTS (slots.map Prod.snd))
    (inRange : ∀ s ∈ penalizedSet.iter, s < Policy.SLOTS)
    (noneEligible : ∀ a v, (a, v) ∈ slots → ∀ val, getValidator a = some val →
      accountType val.rewardAddress ≠ .basic ∨
        ∀ s, v.slotsStart ≤ s → s < v.slotsEnd → s ∈ penalizedSet.iter) :
    createRewardTransactions p blockNumber previousSlots currentSlots penalizedSet blockReward
      txFees getValidator accountType burnAddress nextU64Below rng = none := by
  unfold createRewardTransactions
  rw [if_neg later, chosen]
  cases pot : blockReward.add txFees with
  | none => simp only [Option.bind_eq_bind, Option.bind_none, Option.bind_fun_none]
  | some rewardPot =>
    cases run : slots.foldlM (rewardStep getValidator accountType (rewardPot.div Policy.SLOTS))
        ⟨0, penalizedSet.iter, [], [], Coin.zero⟩ with
    | none => simp only [Option.bind_eq_bind, Option.bind_none, Option.bind_some, run]
    | some st =>
      have zero := rewardLoop_no_eligible bands (penaltyTail_start penalizedSet inRange)
        (by simp) noneEligible run
      have noWeight : st.numEligibleSlotsForAcceptedTx.sum = 0 := List.sum_eq_zero zero
      simp only [Option.bind_eq_bind, Option.bind_none, Option.bind_some, run,
        DiscreteDistribution.new_eq_none_of_sum_eq_zero noWeight, ite_self]

/-- Block 120 under the default policy closes the second batch. Its one validator owns
    all 512 slots and has a staking contract as reward address; nothing was punished. -/
theorem sole_contract_reward_address_panics :
    u32WrappingPred (Policy.default.batchAt 120) ≠ 0 ∧
    (if Policy.default.firstBatchOfEpoch 120 then none
      else some [((1 : Nat), (⟨0, 0, 512⟩ : Validator Nat))]) = some [(1, ⟨0, 0, 512⟩)] ∧
    Validators.Partition 0 Policy.SLOTS ([((1 : Nat), (⟨0, 0, 512⟩ : Validator Nat))].map Prod.snd) ∧
    createRewardTransactions Policy.default 120 none (some [((1 : Nat), (⟨0, 0, 512⟩ : Validator Nat))])
      BitSet.new Coin.zero Coin.zero (fun a => some ⟨a, 2⟩) (fun _ => .staking) 0
      (fun r _ => (0, r)) () = none := by
  have later : u32WrappingPred (Policy.default.batchAt 120) ≠ 0 := by decide
  have chosen : (if Policy.default.firstBatchOfEpoch 120 then none
      else some [((1 : Nat), (⟨0, 0, 512⟩ : Validator Nat))]) = some [(1, ⟨0, 0, 512⟩)] := by decide
  have bands : Validators.Partition 0 Policy.SLOTS
      ([((1 : Nat), (⟨0, 0, 512⟩ : Validator Nat))].map Prod.snd) :=
    .cons rfl (by decide) (.nil _)
  exact ⟨later, chosen, bands, create_reward_transactions_panics Policy.default 120 none _ _
    BitSet.new Coin.zero Coin.zero _ _ 0 _ () later chosen bands (by decide)
    fun _ _ _ _ _ => .inl (by decide)⟩

end Albatross
