import Albatross.Block.Interlink

/- Block inclusion proofs (block_proof.rs). `get_interlink_hops` walks from the
   election head down to the target epoch, hopping along interlink entries;
   `is_block_proven` checks that the blocks of a proof link up along those hops.
   Hops are computed over epoch numbers and returned as block numbers. -/
namespace Albatross

inductive InterlinkScan where
  | targetFound
  | nextHop (hop : Nat)
  | exhausted
  deriving DecidableEq, Repr

/-- The inner loop of `get_interlink_hops`, over `i` from `n` down to 1. -/
def scanInterlinks (targetNumber previousBlockNo : Nat) : Nat → InterlinkScan
  | 0 => .exhausted
  | i + 1 =>
    let ithInterlink := previousBlockNo / 2 ^ (i + 1) * 2 ^ (i + 1)
    if ithInterlink = targetNumber then .targetFound
    else if ithInterlink > targetNumber then .nextHop ithInterlink
    else scanInterlinks targetNumber previousBlockNo i

/-- The outer loop of `get_interlink_hops`. `none` is fuel running out: the code
    loops for ever when the inner loop is exhausted. -/
def hopsLoop (targetNumber : Nat) : Nat → Nat → List Nat → Option (List Nat)
  | 0, _, _ => none
  | fuel + 1, currentHop, hops =>
    let previousBlockNo := u32WrappingPred currentHop
    if previousBlockNo > targetNumber then
      match scanInterlinks targetNumber previousBlockNo previousBlockNo.log2 with
      | .targetFound => some hops
      | .nextHop hop => hopsLoop targetNumber fuel hop (hops ++ [hop])
      | .exhausted => hopsLoop targetNumber fuel currentHop hops
    else some hops

variable {H C J : Type}

structure BlockInclusionProof (H C J : Type) where
  proof : List (MacroBlock H C J)

namespace BlockInclusionProof

/-- `get_interlink_hops`. Each hop strictly lowers a u32 epoch number, so
    `u32Bound` rounds suffice; `none` is also the `expect` on `election_block_of`. -/
def getInterlinkHops (p : Policy) (target latestElectionNumber : Nat) : Option (List Nat) :=
  let targetNumber := p.epochAt target
  let latestNumber := p.epochAt latestElectionNumber
  if targetNumber = 0 then some []
  else (hopsLoop targetNumber u32Bound latestNumber []).bind fun hops => hops.mapM p.electionBlockOf

/-- The `HashMap` of the proof's blocks by block number; a later block replaces
    an earlier one with the same number. -/
def numberToBlock (proof : List (MacroBlock H C J)) : Nat → Option (MacroBlock H C J) :=
  proof.foldl (fun m b => Function.update m b.blockNumber (some b)) fun _ => none

variable [DecidableEq H]

/-- The loop over consecutive hops. `none` is a panic on a missing map entry. -/
def hopsLinked (hash : MacroHeader H C → H) (numberToBlock : Nat → Option (MacroBlock H C J)) :
    List Nat → Option Bool
  | current :: next :: rest => do
    let currentBlock ← numberToBlock current
    let nextHop ← numberToBlock next
    match currentBlock.header.interlink with
    | some interlink =>
      if !interlink.contains (hash nextHop.header) then some false
      else hopsLinked hash numberToBlock (next :: rest)
    | none => hopsLinked hash numberToBlock (next :: rest)
  | _ => some true

/-- The checks of `is_block_proven` once the hops are known. `none` is a panic:
    a missing map entry, or an `unwrap` of a missing interlink. -/
def verifyHops (hash : MacroHeader H C → H) (numberToBlock : Nat → Option (MacroBlock H C J))
    (electionHead target : MacroBlock H C J) : List Nat → Option Bool
  | [] => some true
  | firstNumber :: rest =>
    let hops := firstNumber :: rest
    if !hops.all fun h => (numberToBlock h).isSome then some false
    else do
      let firstHop ← numberToBlock firstNumber
      let headInterlink ← electionHead.header.interlink
      if !headInterlink.contains (hash firstHop.header) then some false
      else do
        let linked ← hopsLinked hash numberToBlock hops
        if !linked then some false
        else do
          let lastHop ← numberToBlock (hops.getLast (List.cons_ne_nil _ _))
          let lastInterlink ← lastHop.header.interlink
          if !lastInterlink.contains (hash target.header) &&
              lastHop.header.parentElectionHash != hash target.header then some false
          else some true

/-- `is_block_proven`. -/
def isBlockProven (p : Policy) (hash : MacroHeader H C → H) (self : BlockInclusionProof H C J)
    (electionHead target : MacroBlock H C J) : Option Bool :=
  if !target.isElection p then some false
  else if self.proof.any fun b => b.header.interlink.isNone then some false
  else (getInterlinkHops p target.blockNumber electionHead.blockNumber).bind
    (verifyHops hash (numberToBlock self.proof) electionHead target)

end BlockInclusionProof

open BlockInclusionProof

/-- Epoch `m` is an entry of the interlink of epoch `k`. -/
def LinksTo (k m : Nat) : Prop := ∃ j < interlinkLength k, interlinkEpoch k j = m

/-- The hops from epoch `k` to the target epoch `t`: each hop an interlink
    entry of the one before, the last one linked to `t` by its parent or an
    interlink entry. -/
inductive HopPath (t : Nat) : Nat → List Nat → Prop
  | parent {k : Nat} : k = t + 1 → HopPath t k []
  | link {k : Nat} : LinksTo k t → HopPath t k []
  | hop {k h : Nat} {rest : List Nat} : LinksTo k h → t < h → HopPath t h rest → HopPath t k (h :: rest)

theorem linksTo_lt {k m : Nat} (link : LinksTo k m) : m < k := by
  obtain ⟨j, inside, rfl⟩ := link
  have two : 2 ≤ k := by
    by_contra few; simp [interlinkLength, show k ≤ 1 by omega] at inside
  have := Nat.div_mul_le_self (k - 1) (2 ^ (j + 1))
  unfold interlinkEpoch; omega

theorem hopPath_bounds {t k : Nat} {rest : List Nat} (path : HopPath t k rest) :
    ∀ h ∈ rest, t < h ∧ h < k := by
  induction path with
  | parent _ => simp
  | link _ => simp
  | hop link above _ ih =>
    have below := linksTo_lt link
    intro h mem
    rcases List.mem_cons.mp mem with rfl | mem
    · exact ⟨above, below⟩
    · have := ih h mem; omega

theorem hopPath_getLast {t k : Nat} {rest : List Nat} (path : HopPath t k rest) :
    HopPath t ((k :: rest).getLast (List.cons_ne_nil _ _)) [] := by
  induction path with
  | parent eq => exact .parent eq
  | link link => exact .link link
  | @hop k h rest _ _ _ ih =>
    rw [List.getLast_cons (List.cons_ne_nil _ _)]
    exact ih

section Scan

variable {t prev : Nat}

/-- From the largest divider down, the scan stops at the first interlink entry
    at or above the target; the entry for divider 2 already is. -/
theorem scanInterlinks_cases (low : t ≤ prev / 2 * 2) (n : Nat) (pos : 1 ≤ n) :
    (scanInterlinks t prev n = .targetFound ∧ ∃ i < n, prev / 2 ^ (i + 1) * 2 ^ (i + 1) = t) ∨
    ∃ i < n, t < prev / 2 ^ (i + 1) * 2 ^ (i + 1) ∧
      scanInterlinks t prev n = .nextHop (prev / 2 ^ (i + 1) * 2 ^ (i + 1)) := by
  induction n with
  | zero => omega
  | succ n ih =>
    simp only [scanInterlinks]
    by_cases found : prev / 2 ^ (n + 1) * 2 ^ (n + 1) = t
    · exact Or.inl ⟨by simp [found], n, by omega, found⟩
    by_cases above : prev / 2 ^ (n + 1) * 2 ^ (n + 1) > t
    · exact Or.inr ⟨n, by omega, above, by simp [found, above]⟩
    have more : 1 ≤ n := by
      by_contra none
      obtain rfl : n = 0 := by omega
      simp at found above; omega
    rw [if_neg found, if_neg above]
    rcases ih more with ⟨run, i, lt, eq⟩ | ⟨i, lt, higher, run⟩
    · exact Or.inl ⟨run, i, by omega, eq⟩
    · exact Or.inr ⟨i, by omega, higher, run⟩

end Scan

/-- The loop invariant of `get_interlink_hops`: from any epoch `k` above the
    target, with fuel beyond `k`, the loop appends a hop path from `k`. -/
theorem hopsLoop_path {t : Nat} (pos : 1 ≤ t) (fuel : Nat) :
    ∀ k acc, k < fuel → t < k →
      ∃ rest, hopsLoop t fuel k acc = some (acc ++ rest) ∧ HopPath t k rest := by
  induction fuel with
  | zero => intro k acc budget; omega
  | succ fuel ih =>
    intro k acc budget above
    have previous : u32WrappingPred k = k - 1 := if_neg (by omega)
    by_cases more : k - 1 > t
    · have length : interlinkLength k = (k - 1).log2 := by simp [interlinkLength]; omega
      have logPos : 1 ≤ (k - 1).log2 := (Nat.le_log2 (by omega)).mpr (by omega)
      have low : t ≤ (k - 1) / 2 * 2 := by omega
      rcases scanInterlinks_cases low _ logPos with
        ⟨found, i, lt, eq⟩ | ⟨i, lt, higher, scan⟩
      · refine ⟨[], ?_, ?_⟩
        · simp only [hopsLoop, previous, if_pos more, found, List.append_nil]
        · have link : LinksTo k t := ⟨i, by omega, eq⟩
          exact .link link
      · have link : LinksTo k ((k - 1) / 2 ^ (i + 1) * 2 ^ (i + 1)) := ⟨i, by omega, rfl⟩
        have below := linksTo_lt link
        obtain ⟨rest, run, path⟩ := ih _ (acc ++ [(k - 1) / 2 ^ (i + 1) * 2 ^ (i + 1)])
          (by omega) higher
        refine ⟨_ :: rest, ?_, .hop link higher path⟩
        simp only [hopsLoop, previous, if_pos more, scan, run, List.append_assoc,
          List.singleton_append]
    · refine ⟨[], ?_, .parent (by omega)⟩
      simp only [hopsLoop, previous, if_neg more, List.append_nil]

/-- Proof blocks that agree with `x` on block number `n`, with `x` among them,
    map `n` to `x`. -/
theorem foldl_update_eq {proof : List (MacroBlock H C J)} {n : Nat} {x : MacroBlock H C J}
    (agree : ∀ b ∈ proof, b.blockNumber = n → b = x) :
    ∀ m : Nat → Option (MacroBlock H C J), (m n = some x ∨ x ∈ proof ∧ x.blockNumber = n) →
      proof.foldl (fun (m : Nat → Option (MacroBlock H C J)) b =>
        Function.update m b.blockNumber (some b)) m n = some x := by
  induction proof with
  | nil =>
    intro m start
    simpa using start
  | cons b rest ih =>
    intro m start
    apply ih (fun b' mem => agree b' (List.mem_cons_of_mem _ mem))
    beta_reduce
    by_cases here : n = b.blockNumber
    · left
      rw [here, Function.update_self, agree b List.mem_cons_self here.symm]
    · rw [Function.update_of_ne here]
      rcases start with found | ⟨mem, number⟩
      · exact Or.inl found
      · rcases List.mem_cons.mp mem with rfl | mem
        · exact absurd number.symm here
        · exact Or.inr ⟨mem, number⟩

section Chain

variable {p : Policy} {hash : MacroHeader H C → H} {E : Nat → MacroBlock H C J} {c : Nat}

theorem ElectionChain.blockNumber_eq (chain : ElectionChain p hash E c) {k : Nat} (le : k ≤ c) :
    (E k).blockNumber = k * p.blocksPerEpoch + p.genesisBlockNumber :=
  (p.electionBlockOf_some (chain.numbers k le)).1

theorem ElectionChain.epochAt_eq (chain : ElectionChain p hash E c) {k : Nat} (le : k ≤ c) :
    p.epochAt (E k).blockNumber = k := by
  rw [chain.blockNumber_eq le, p.epochAt_election_block]

theorem ElectionChain.epoch_small (chain : ElectionChain p hash E c) : c < u32Bound := by
  have fits := (p.electionBlockOf_some (chain.numbers c le_rfl)).2
  have := Nat.le_mul_of_pos_right c p.blocksPerEpoch_pos
  rw [chain.blockNumber_eq le_rfl] at fits
  omega

theorem ElectionChain.isElection (chain : ElectionChain p hash E c) {k : Nat} (le : k ≤ c) :
    (E k).isElection p = true := by
  rw [MacroBlock.isElection, chain.blockNumber_eq le]
  exact p.isElectionBlockAt_election_block k

theorem ElectionChain.epoch_inj (chain : ElectionChain p hash E c) {k m : Nat} (hk : k ≤ c) (hm : m ≤ c)
    (same : (E k).blockNumber = (E m).blockNumber) : k = m := by
  rw [chain.blockNumber_eq hk, chain.blockNumber_eq hm] at same
  exact Nat.eq_of_mul_eq_mul_right p.blocksPerEpoch_pos (by omega)

theorem mapM_electionBlockOf (chain : ElectionChain p hash E c) :
    ∀ hops : List Nat, (∀ h ∈ hops, h ≤ c) →
      hops.mapM p.electionBlockOf = some (hops.map fun h => (E h).blockNumber)
  | [], _ => rfl
  | h :: rest, bounded => by
    have tail := mapM_electionBlockOf chain rest fun h' mem => bounded h' (List.mem_cons_of_mem _ mem)
    simp [List.mapM_cons, chain.numbers h (bounded h List.mem_cons_self), tail]

theorem mem_expectedInterlink {k m : Nat} (link : LinksTo k m) :
    hash (E m).header ∈ expectedInterlink hash E k := by
  obtain ⟨j, inside, rfl⟩ := link
  exact List.mem_map.mpr ⟨j, List.mem_range.mpr inside, rfl⟩

variable [DecidableEq H]

theorem hopsLinked_path (chain : ElectionChain p hash E c) {t : Nat}
    {lookup : Nat → Option (MacroBlock H C J)} {k : Nat} {rest : List Nat}
    (path : HopPath t k rest) (le : k ≤ c)
    (found : ∀ h ∈ k :: rest, lookup (E h).blockNumber = some (E h)) :
    hopsLinked hash lookup ((k :: rest).map fun h => (E h).blockNumber) = some true := by
  induction path with
  | parent _ => rfl
  | link _ => rfl
  | @hop k h rest link _ _ ih =>
    have below := linksTo_lt link
    have links := (chain_interlinks chain k le).1
    have contains : (expectedInterlink hash E k).contains (hash (E h).header) = true :=
      List.contains_iff_mem.mpr (mem_expectedInterlink link)
    simp only [List.map_cons, hopsLinked, found k List.mem_cons_self,
      found h (List.mem_cons_of_mem _ List.mem_cons_self), links, contains,
      Bool.not_true, Bool.false_eq_true, ↓reduceIte, Option.bind_eq_bind, Option.bind_some]
    exact ih (by omega) fun h' mem => found h' (List.mem_cons_of_mem _ mem)

theorem verifyHops_path (chain : ElectionChain p hash E c) {t : Nat} (pos : 1 ≤ t)
    {lookup : Nat → Option (MacroBlock H C J)} {rest : List Nat} (path : HopPath t c rest)
    (found : ∀ h ∈ rest, lookup (E h).blockNumber = some (E h)) :
    verifyHops hash lookup (E c) (E t) (rest.map fun h => (E h).blockNumber) = some true := by
  cases path with
  | parent _ => rfl
  | link _ => rfl
  | @hop _ h rest link above tail =>
    have bounds := hopPath_bounds tail
    have below := linksTo_lt link
    have present : ∀ n ∈ (h :: rest).map fun h => (E h).blockNumber, (lookup n).isSome := by
      intro n mem
      obtain ⟨h', mem', rfl⟩ := List.mem_map.mp mem
      simp [found h' mem']
    have headContains : (expectedInterlink hash E c).contains (hash (E h).header) = true :=
      List.contains_iff_mem.mpr (mem_expectedInterlink link)
    have linked := hopsLinked_path chain tail (by omega) found
    -- the last hop ends the path: the target is its parent or an interlink entry
    have last := hopPath_getLast tail
    set l := (h :: rest).getLast (List.cons_ne_nil _ _) with lastEq
    have lastBounds : t < l ∧ l ≤ c := by
      rcases List.mem_cons.mp (List.getLast_mem (List.cons_ne_nil h rest)) with same | mem
      · rw [lastEq, same]; omega
      · have := bounds _ mem; omega
    have lastLinks := (chain_interlinks chain l lastBounds.2).1
    have targetLinked : hash (E t).header ∈ expectedInterlink hash E l ∨
        (E l).header.parentElectionHash = hash (E t).header := by
      cases last with
      | parent eq =>
        have parentHash := chain.parents l lastBounds.2 (by omega)
        rw [eq, Nat.add_sub_cancel] at parentHash
        rw [eq]
        exact Or.inr parentHash
      | link link => exact Or.inl (mem_expectedInterlink link)
    have lastNumber : ((E h).blockNumber :: rest.map fun h => (E h).blockNumber).getLast
        (List.cons_ne_nil _ _) = (E l).blockNumber :=
      List.getLast_map (f := fun h => (E h).blockNumber) (l := h :: rest) (List.cons_ne_nil _ _)
    have allPresent : ((E h).blockNumber :: rest.map fun h => (E h).blockNumber).all
        (fun n => (lookup n).isSome) = true := List.all_eq_true.mpr present
    simp only [List.map_cons] at linked
    simp only [List.map_cons, verifyHops, allPresent, Bool.not_true, Bool.false_eq_true, ↓reduceIte,
      found h List.mem_cons_self, (chain_interlinks chain c le_rfl).1, Option.bind_eq_bind,
      Option.bind_some, headContains, linked, lastNumber,
      found l (List.getLast_mem (List.cons_ne_nil h rest)), lastLinks]
    rcases targetLinked with mem | parent
    · simp [mem]
    · simp [parent]

/-- Completeness: for every earlier epoch `t ≥ 1`, `get_interlink_hops` returns,
    and the proof made of the chain's blocks at those hops proves `E t` from the
    head `E c`. -/
theorem interlink_hops_complete (chain : ElectionChain p hash E c) {t : Nat} (pos : 1 ≤ t)
    (lt : t < c) :
    ∃ hops, getInterlinkHops p (E t).blockNumber (E c).blockNumber = some hops ∧
      isBlockProven p hash ⟨hops.map fun n => E (p.epochAt n)⟩ (E c) (E t) = some true := by
  obtain ⟨rest, run, path⟩ := hopsLoop_path pos u32Bound c [] chain.epoch_small lt
  have le : ∀ h ∈ rest, h ≤ c := fun h mem => (hopPath_bounds path h mem).2.le
  have hopsEq : getInterlinkHops p (E t).blockNumber (E c).blockNumber =
      some (rest.map fun h => (E h).blockNumber) := by
    simp only [getInterlinkHops, chain.epochAt_eq lt.le, chain.epochAt_eq le_rfl, run,
      List.nil_append, Option.bind_some, mapM_electionBlockOf chain rest le]
    rw [if_neg (by omega)]
  refine ⟨_, hopsEq, ?_⟩
  -- the proof is the blocks of the hop epochs, each found under its own number
  have proof : (rest.map fun h => (E h).blockNumber).map (fun n => E (p.epochAt n)) = rest.map E := by
    rw [List.map_map]
    exact List.map_congr_left fun h mem => by simp [chain.epochAt_eq (le h mem)]
  have found : ∀ h ∈ rest, numberToBlock (rest.map E) (E h).blockNumber = some (E h) := by
    intro h mem
    apply foldl_update_eq _ _ (Or.inr ⟨List.mem_map_of_mem mem, rfl⟩)
    intro b inProof same
    obtain ⟨h', mem', rfl⟩ := List.mem_map.mp inProof
    rw [chain.epoch_inj (le h' mem') (le h mem) same]
  have sane : (rest.map E).any (fun b => b.header.interlink.isNone) = false := by
    rw [List.any_eq_false]
    intro b inProof
    obtain ⟨h, mem, rfl⟩ := List.mem_map.mp inProof
    simp [(chain_interlinks chain h (le h mem)).1]
  rw [proof, isBlockProven, chain.isElection lt.le, sane, hopsEq]
  exact verifyHops_path chain pos path found

theorem defaultChain_first_epoch_proven :
    ElectionChain Policy.default headerHash defaultChain 2 ∧ 1 ≤ 1 ∧ 1 < 2 ∧
    ∃ hops, getInterlinkHops Policy.default (defaultChain 1).blockNumber
        (defaultChain 2).blockNumber = some hops ∧
      isBlockProven Policy.default headerHash ⟨hops.map fun n => defaultChain (Policy.default.epochAt n)⟩
        (defaultChain 2) (defaultChain 1) = some true :=
  ⟨defaultChain_isChain, le_refl 1, by decide,
    interlink_hops_complete defaultChain_isChain (le_refl 1) (by decide)⟩

end Chain

theorem hopsLoop_stop {t fuel k : Nat} (acc : List Nat) (stop : ¬ u32WrappingPred k > t) :
    hopsLoop t (fuel + 1) k acc = some acc := by
  simp only [hopsLoop, stop, if_false]

theorem getInterlinkHops_of_parent_epoch (p : Policy) {target head : Nat}
    (parent : p.epochAt target + 1 = p.epochAt head) :
    getInterlinkHops p target head = some [] := by
  by_cases zero : p.epochAt target = 0
  · simp [getInterlinkHops, zero]
  · have stop : ¬ u32WrappingPred (p.epochAt head) > p.epochAt target := by
      simp [u32WrappingPred, ← parent]
    obtain ⟨fuel, budget⟩ : ∃ fuel, u32Bound = fuel + 1 := ⟨u32Bound - 1, by unfold u32Bound; omega⟩
    simp only [getInterlinkHops, if_neg zero, budget, hopsLoop_stop _ stop]
    rfl

theorem isBlockProven_of_hops_nil [DecidableEq H] {p : Policy} {hash : MacroHeader H C → H}
    {P : BlockInclusionProof H C J} {head target : MacroBlock H C J}
    (election : target.isElection p = true) (sane : ∀ b ∈ P.proof, b.header.interlink.isSome)
    (none : getInterlinkHops p target.blockNumber head.blockNumber = some []) :
    isBlockProven p hash P head target = some true := by
  have noneMissing : P.proof.any (fun b => b.header.interlink.isNone) = false := by
    rw [List.any_eq_false]
    intro b mem
    simpa [Option.isNone_iff_eq_none, ← Option.isSome_iff_ne_none] using sane b mem
  rw [isBlockProven, election, noneMissing, none]
  rfl

/-- `is_block_proven` accepts every election block of the head's parent epoch,
    with any proof whose blocks carry interlinks: the empty hop list is taken as
    proven although nothing compares the target's hash with the head's links. -/
theorem block_proven_at_parent_epoch [DecidableEq H] (p : Policy) (hash : MacroHeader H C → H)
    (P : BlockInclusionProof H C J) (sane : ∀ b ∈ P.proof, b.header.interlink.isSome)
    (head target : MacroBlock H C J) (election : target.isElection p = true)
    (parent : p.epochAt target.blockNumber + 1 = p.epochAt head.blockNumber) :
    isBlockProven p hash P head target = some true :=
  isBlockProven_of_hops_nil election sane (getInterlinkHops_of_parent_epoch p parent)

/-- An election block of epoch 1 that is not the chain's: its content differs. -/
def forgedElectionBlock : MacroBlock Nat Nat Unit := ⟨⟨0, 43200, 0, some [], 99⟩, none⟩

theorem forged_parent_epoch_accepted :
    (∀ b ∈ (⟨[]⟩ : BlockInclusionProof Nat Nat Unit).proof, b.header.interlink.isSome) ∧
    forgedElectionBlock.isElection Policy.default = true ∧
    Policy.default.epochAt forgedElectionBlock.blockNumber + 1 =
      Policy.default.epochAt (defaultChain 2).blockNumber ∧
    isBlockProven Policy.default headerHash ⟨[]⟩ (defaultChain 2) forgedElectionBlock = some true :=
  ⟨by simp, by decide, by decide,
    block_proven_at_parent_epoch Policy.default headerHash ⟨[]⟩ (by simp) (defaultChain 2)
      forgedElectionBlock (by decide) (by decide)⟩

/-- Soundness fails: on the chain of epochs 0 to 2, with a collision-free hash,
    the empty proof proves a block whose hash is none of the chain's. -/
theorem forged_block_proven_from_second_epoch :
    ElectionChain Policy.default headerHash defaultChain 2 ∧ Function.Injective headerHash ∧
    (∀ k ≤ 2, headerHash forgedElectionBlock.header ≠ headerHash (defaultChain k).header) ∧
    isBlockProven Policy.default headerHash ⟨[]⟩ (defaultChain 2) forgedElectionBlock = some true := by
  refine ⟨defaultChain_isChain, headerHash_injective, ?_, ?_⟩
  · intro k le same
    have contents := congrArg MacroHeader.content (headerHash_injective same)
    interval_cases k <;> exact absurd contents (by decide)
  · exact isBlockProven_of_hops_nil (by decide) (by simp)
      (getInterlinkHops_of_parent_epoch Policy.default (by decide))

end Albatross
