import Mathlib
import Albatross.Lib.Period

/- Block-number arithmetic of the consensus policy (policy.rs).
   The policy is the global runtime value read by every function below; its u32
   fields are Nat, and the two facts the code divides by are fields of the record.
   Checked u32 arithmetic (checked_mul, checked_add) is an explicit bound test. -/
namespace Albatross

/-- The u32 range used by block and epoch numbers. -/
def u32Bound : Nat := 2 ^ 32

/-- u32 subtraction as the release build computes it: wrapping below zero. -/
def u32WrappingSub (a b : Nat) : Nat := (a + u32Bound - b) % u32Bound

theorem u32WrappingSub_of_le {a b : Nat} (le : b ≤ a) (small : a < u32Bound) :
    u32WrappingSub a b = a - b := by
  unfold u32WrappingSub
  rw [show a + u32Bound - b = (a - b) + u32Bound by omega, Nat.add_mod_right,
    Nat.mod_eq_of_lt (by omega)]

/-- `u32::checked_add` and `u32::checked_mul`, given the exact result. -/
def checkedU32 (n : Nat) : Option Nat := if n < u32Bound then some n else none

/-- u32 `n - 1` in the release build: zero wraps to `u32::MAX`. -/
def u32WrappingPred (n : Nat) : Nat := if n = 0 then u32Bound - 1 else n - 1

/-- Rust's `u32::div_ceil`: quotient, plus one when a remainder is left. -/
def divCeil (a b : Nat) : Nat := a / b + if 0 < a % b then 1 else 0

theorem div_ceil_mul_ge (a b : Nat) (hb : 0 < b) : a ≤ divCeil a b * b := by
  unfold divCeil
  have := Nat.div_add_mod a b
  have := Nat.mod_lt a hb
  split
  · rw [Nat.add_mul, Nat.one_mul, Nat.mul_comm]
    omega
  · rw [Nat.add_zero, Nat.mul_comm]
    omega

theorem div_ceil_mul (k b : Nat) (hb : 0 < b) : divCeil (k * b) b = k := by
  simp [divCeil, Nat.mul_div_cancel k hb]

theorem divCeil_le_iff {x k n : Nat} (hn : 0 < n) : divCeil x n ≤ k ↔ x ≤ k * n := by
  unfold divCeil
  have whole := Nat.div_add_mod x n
  have below := Nat.mod_lt x hn
  split
  · rename_i rem
    rw [show x / n + 1 ≤ k ↔ x / n < k by omega, Nat.div_lt_iff_lt_mul hn]
    constructor
    · exact Nat.le_of_lt
    · intro le
      rcases Nat.lt_or_eq_of_le le with lt | exact
      · exact lt
      · rw [exact, Nat.mul_mod_left] at rem
        omega
  · -- `n` divides `x`: both sides compare the quotient with `k`
    obtain ⟨q, rfl⟩ : n ∣ x := Nat.dvd_of_mod_eq_zero (by omega)
    rw [Nat.add_zero, Nat.mul_div_cancel_left q hn, Nat.mul_comm k n]
    exact (Nat.mul_le_mul_left_iff hn).symm

theorem divCeil_eq_add_pred_div {x n : Nat} (hn : 0 < n) : divCeil x n = (x + n - 1) / n := by
  have whole := Nat.div_add_mod x n
  have below := Nat.mod_lt x hn
  rw [show x + n - 1 = (x % n + n - 1) + n * (x / n) by omega, Nat.add_mul_div_left _ _ hn]
  unfold divCeil
  split
  · -- a remainder pushes the numerator into the next period
    have next : (x % n + n - 1) / n = 1 := Nat.div_eq_of_lt_le (by omega) (by omega)
    rw [next, Nat.add_comm]
  · have same : (x % n + n - 1) / n = 0 := Nat.div_eq_of_lt_le (by omega) (by omega)
    rw [same, Nat.add_zero, Nat.zero_add]

theorem divCeil_mul_eq_self_iff {x n : Nat} (hn : 0 < n) : divCeil x n * n = x ↔ x % n = 0 := by
  have whole := Nat.div_add_mod x n
  rw [Nat.mul_comm n] at whole
  unfold divCeil
  split
  · have past := Period.lt_div_succ_mul hn x
    constructor <;> intro <;> omega
  · rw [Nat.add_zero]
    constructor <;> intro <;> omega

theorem divCeil_mul_lt {x n : Nat} (hn : 0 < n) : divCeil x n * n < x + n := by
  rw [divCeil_eq_add_pred_div hn]
  have := Nat.div_mul_le_self (x + n - 1) n
  omega

theorem divCeil_divCeil {a b : Nat} (ha : 0 < a) (hb : 0 < b) (x : Nat) :
    divCeil (divCeil x a) b = divCeil x (a * b) := by
  -- both sides are the least `k` with `x ≤ k * (a * b)`
  have same : ∀ k, divCeil (divCeil x a) b ≤ k ↔ divCeil x (a * b) ≤ k := by
    intro k
    rw [divCeil_le_iff hb, divCeil_le_iff ha, divCeil_le_iff (Nat.mul_pos ha hb), Nat.mul_assoc,
      Nat.mul_comm b a]
  exact Nat.le_antisymm ((same _).mpr le_rfl) ((same _).mp le_rfl)

structure Policy where
  blocksPerBatch : Nat
  batchesPerEpoch : Nat
  transactionValidityWindow : Nat
  genesisBlockNumber : Nat
  -- `blocks_per_epoch` and `blocks_per_batch` are divisors in every function below.
  blocksPerBatch_pos : 0 < blocksPerBatch
  batchesPerEpoch_pos : 0 < batchesPerEpoch
  -- asserted by `transaction_validity_window()` on every read
  window_le_epoch : transactionValidityWindow ≤ batchesPerEpoch

namespace Policy

/-- Number of available validator slots. -/
def SLOTS : Nat := 512

/-- `ceil(2 * SLOTS / 3)`, the quorum of 2f+1 slots. -/
def TWO_F_PLUS_ONE : Nat := divCeil (2 * SLOTS) 3

/-- `ceil(SLOTS / 3)`, the f+1 slots that contain at least one honest slot. -/
def F_PLUS_ONE : Nat := divCeil SLOTS 3

theorem two_f_plus_one_eq : TWO_F_PLUS_ONE = 342 := by decide

/-- The default policy of the main network. -/
def default : Policy where
  blocksPerBatch := 60
  batchesPerEpoch := 720
  transactionValidityWindow := 120
  genesisBlockNumber := 0
  blocksPerBatch_pos := by decide
  batchesPerEpoch_pos := by decide
  window_le_epoch := by decide

variable (p : Policy)

def blocksPerEpoch : Nat := p.blocksPerBatch * p.batchesPerEpoch

theorem blocksPerEpoch_pos : 0 < p.blocksPerEpoch :=
  Nat.mul_pos p.blocksPerBatch_pos p.batchesPerEpoch_pos

def transactionValidityWindowBlocks : Nat := p.transactionValidityWindow * p.blocksPerBatch

/-- `epoch_at`: every block up to the genesis belongs to epoch 0. -/
def epochAt (blockNumber : Nat) : Nat :=
  if blockNumber ≤ p.genesisBlockNumber then 0
  else divCeil (blockNumber - p.genesisBlockNumber) p.blocksPerEpoch

def batchAt (blockNumber : Nat) : Nat :=
  if blockNumber ≤ p.genesisBlockNumber then 0
  else divCeil (blockNumber - p.genesisBlockNumber) p.blocksPerBatch

theorem epochAt_eq_divCeil (blockNumber : Nat) :
    p.epochAt blockNumber = divCeil (blockNumber - p.genesisBlockNumber) p.blocksPerEpoch := by
  unfold epochAt
  split
  · rename_i before
    simp [Nat.sub_eq_zero_of_le before, divCeil]
  · rfl

theorem batchAt_eq_divCeil (blockNumber : Nat) :
    p.batchAt blockNumber = divCeil (blockNumber - p.genesisBlockNumber) p.blocksPerBatch := by
  unfold batchAt
  split
  · rename_i before
    simp [Nat.sub_eq_zero_of_le before, divCeil]
  · rfl

/-- The batches of an epoch: a block's batch is at most its epoch's last batch. -/
theorem batchAt_le_epochAt_mul (blockNumber : Nat) :
    p.batchAt blockNumber ≤ p.epochAt blockNumber * p.batchesPerEpoch := by
  have inEpoch : blockNumber - p.genesisBlockNumber ≤ p.epochAt blockNumber * p.blocksPerEpoch := by
    rw [← divCeil_le_iff p.blocksPerEpoch_pos, ← epochAt_eq_divCeil]
  rw [batchAt_eq_divCeil, divCeil_le_iff p.blocksPerBatch_pos, Nat.mul_assoc, Nat.mul_comm p.batchesPerEpoch]
  exact inEpoch

theorem epochAt_le_succ_of_batchAt_le_succ {earlier later : Nat}
    (window : p.batchAt later ≤ p.batchAt earlier + 1) : p.epochAt later ≤ p.epochAt earlier + 1 := by
  have inBatch : later - p.genesisBlockNumber ≤ (p.batchAt earlier + 1) * p.blocksPerBatch := by
    rw [← divCeil_le_iff p.blocksPerBatch_pos, ← batchAt_eq_divCeil]
    exact window
  have batches := batchAt_le_epochAt_mul p earlier
  have onePerEpoch := p.batchesPerEpoch_pos
  rw [epochAt_eq_divCeil, divCeil_le_iff p.blocksPerEpoch_pos]
  calc later - p.genesisBlockNumber
      ≤ (p.batchAt earlier + 1) * p.blocksPerBatch := inBatch
    _ ≤ (p.epochAt earlier * p.batchesPerEpoch + p.batchesPerEpoch) * p.blocksPerBatch :=
        Nat.mul_le_mul_right _ (by omega)
    _ = (p.epochAt earlier + 1) * p.blocksPerEpoch := by
        unfold blocksPerEpoch
        ring

def batchIndexAt (blockNumber : Nat) : Nat :=
  if blockNumber < p.genesisBlockNumber then blockNumber
  else (blockNumber - p.genesisBlockNumber + p.blocksPerBatch - 1) % p.blocksPerBatch

def isMacroBlockAt (blockNumber : Nat) : Bool :=
  if blockNumber < p.genesisBlockNumber then false
  else p.batchIndexAt blockNumber = p.blocksPerBatch - 1

def epochIndexAt (blockNumber : Nat) : Nat :=
  if blockNumber < p.genesisBlockNumber then blockNumber
  else (blockNumber - p.genesisBlockNumber + p.blocksPerEpoch - 1) % p.blocksPerEpoch

def isElectionBlockAt (blockNumber : Nat) : Bool :=
  p.epochIndexAt blockNumber = p.blocksPerEpoch - 1

def firstBatchOfEpoch (blockNumber : Nat) : Bool :=
  p.epochIndexAt blockNumber < p.blocksPerBatch

/-- `election_block_of`: `None` when the checked u32 arithmetic overflows. -/
def electionBlockOf (epoch : Nat) : Option Nat :=
  if epoch * p.blocksPerEpoch < u32Bound then
    if epoch * p.blocksPerEpoch + p.genesisBlockNumber < u32Bound then
      some (epoch * p.blocksPerEpoch + p.genesisBlockNumber)
    else none
  else none

theorem electionBlockOf_some {epoch bn : Nat} (h : p.electionBlockOf epoch = some bn) :
    bn = epoch * p.blocksPerEpoch + p.genesisBlockNumber ∧ bn < u32Bound := by
  unfold electionBlockOf at h
  split at h
  · split at h
    · cases h; exact ⟨rfl, by assumption⟩
    · cases h
  · cases h

theorem electionBlockOf_eq {epoch : Nat}
    (fits : epoch * p.blocksPerEpoch + p.genesisBlockNumber < u32Bound) :
    p.electionBlockOf epoch = some (epoch * p.blocksPerEpoch + p.genesisBlockNumber) := by
  have first : epoch * p.blocksPerEpoch < u32Bound := by omega
  simp [electionBlockOf, first, fits]

theorem epochAt_election_block (epoch : Nat) :
    p.epochAt (epoch * p.blocksPerEpoch + p.genesisBlockNumber) = epoch := by
  unfold epochAt
  split
  · rename_i le
    have : epoch * p.blocksPerEpoch = 0 := by omega
    rcases Nat.mul_eq_zero.mp this with h | h
    · exact h.symm
    · exact absurd h (Nat.pos_iff_ne_zero.mp p.blocksPerEpoch_pos)
  · rw [Nat.add_sub_cancel]
    exact div_ceil_mul epoch _ p.blocksPerEpoch_pos

theorem epochIndexAt_election_block (epoch : Nat) :
    p.epochIndexAt (epoch * p.blocksPerEpoch + p.genesisBlockNumber) = p.blocksPerEpoch - 1 := by
  have pos := p.blocksPerEpoch_pos
  unfold epochIndexAt
  rw [if_neg (by omega), Nat.add_sub_cancel]
  have shift : epoch * p.blocksPerEpoch + p.blocksPerEpoch - 1 =
      (p.blocksPerEpoch - 1) + p.blocksPerEpoch * epoch := by
    rw [Nat.mul_comm]; omega
  rw [shift, Nat.add_mul_mod_self_left, Nat.mod_eq_of_lt (by omega)]

theorem isElectionBlockAt_election_block (epoch : Nat) :
    p.isElectionBlockAt (epoch * p.blocksPerEpoch + p.genesisBlockNumber) = true := by
  simp [isElectionBlockAt, epochIndexAt_election_block]

theorem epochAt_eq_divCeil_batchAt (blockNumber : Nat) :
    p.epochAt blockNumber = divCeil (p.batchAt blockNumber) p.batchesPerEpoch := by
  rw [epochAt_eq_divCeil, batchAt_eq_divCeil, divCeil_divCeil p.blocksPerBatch_pos p.batchesPerEpoch_pos]
  rfl

/-- `first_block_of`: `None` when one of the checked u32 steps fails, epoch 0 included. -/
def firstBlockOf (epoch : Nat) : Option Nat := do
  let previous ← if epoch = 0 then none else some (epoch - 1)
  let start ← checkedU32 (previous * p.blocksPerEpoch)
  let start ← checkedU32 (start + 1)
  checkedU32 (start + p.genesisBlockNumber)

/-- The last block of period `index` for periods of `length` blocks, with the checked u32
arithmetic shared by `election_block_of` and `macro_block_of`. -/
def periodEndOf (length index : Nat) : Option Nat :=
  if index * length < u32Bound then
    if index * length + p.genesisBlockNumber < u32Bound then
      some (index * length + p.genesisBlockNumber)
    else none
  else none

def macroBlockOf (batch : Nat) : Option Nat := p.periodEndOf p.blocksPerBatch batch

theorem periodEndOf_eq {length index : Nat}
    (fits : index * length + p.genesisBlockNumber < u32Bound) :
    p.periodEndOf length index = some (index * length + p.genesisBlockNumber) := by
  have first : index * length < u32Bound := by omega
  simp [periodEndOf, first, fits]

/-- The period end after a block: `election_block_after` and `macro_block_after`. -/
def periodEndAfter (length blockNumber : Nat) : Nat :=
  if blockNumber < p.genesisBlockNumber then p.genesisBlockNumber
  else ((blockNumber - p.genesisBlockNumber) / length + 1) * length + p.genesisBlockNumber

def electionBlockAfter (blockNumber : Nat) : Nat := p.periodEndAfter p.blocksPerEpoch blockNumber

def macroBlockAfter (blockNumber : Nat) : Nat := p.periodEndAfter p.blocksPerBatch blockNumber

/-- The period end at or before a block: `last_election_block` and `last_macro_block`, which
panic before the genesis. -/
def lastPeriodEnd (length blockNumber : Nat) : Option Nat :=
  if blockNumber < p.genesisBlockNumber then none
  else some ((blockNumber - p.genesisBlockNumber) / length * length + p.genesisBlockNumber)

def lastElectionBlock (blockNumber : Nat) : Option Nat := p.lastPeriodEnd p.blocksPerEpoch blockNumber

def lastMacroBlock (blockNumber : Nat) : Option Nat := p.lastPeriodEnd p.blocksPerBatch blockNumber

/-- `election_block_before`: panics before the genesis and answers the genesis itself at it. -/
def electionBlockBefore (blockNumber : Nat) : Option Nat :=
  if blockNumber < p.genesisBlockNumber then none
  else if blockNumber = p.genesisBlockNumber then some p.genesisBlockNumber
  else some ((blockNumber - p.genesisBlockNumber - 1) / p.blocksPerEpoch * p.blocksPerEpoch +
    p.genesisBlockNumber)

/-- `macro_block_before`: panics at and before the genesis. -/
def macroBlockBefore (blockNumber : Nat) : Option Nat :=
  if blockNumber ≤ p.genesisBlockNumber then none
  else some ((blockNumber - p.genesisBlockNumber - 1) / p.blocksPerBatch * p.blocksPerBatch +
    p.genesisBlockNumber)

/-- Unlike `macro_block_before`, `election_block_before` answers at the genesis, with a block
that is not before it. -/
theorem electionBlockBefore_genesis :
    p.electionBlockBefore p.genesisBlockNumber = some p.genesisBlockNumber ∧
      p.macroBlockBefore p.genesisBlockNumber = none := by
  simp [electionBlockBefore, macroBlockBefore]

/-- `c` closes a period of `length` blocks counted from the genesis. -/
def EndsPeriod (length c : Nat) : Prop :=
  p.genesisBlockNumber ≤ c ∧ (c - p.genesisBlockNumber) % length = 0

theorem endsPeriod_mul_add (length k : Nat) :
    p.EndsPeriod length (k * length + p.genesisBlockNumber) := by
  refine ⟨by omega, ?_⟩
  rw [Nat.add_sub_cancel]
  exact Nat.mul_mod_left k length

theorem isMacroBlockAt_iff (c : Nat) : p.isMacroBlockAt c = true ↔ p.EndsPeriod p.blocksPerBatch c := by
  unfold isMacroBlockAt batchIndexAt EndsPeriod
  split
  · rename_i before
    simp only [Bool.false_eq_true, false_iff, not_and]
    omega
  · rename_i after
    rw [decide_eq_true_iff, Period.add_pred_mod_eq_pred_iff p.blocksPerBatch_pos]
    simp only [iff_and_self]
    omega

/-- From the genesis on, election blocks are the ends of epochs; before it, `epoch_index_at`
counts from zero and the one block numbered `blocks_per_epoch - 1` passes as well. -/
theorem isElectionBlockAt_iff {c : Nat} (after : p.genesisBlockNumber ≤ c) :
    p.isElectionBlockAt c = true ↔ p.EndsPeriod p.blocksPerEpoch c := by
  unfold isElectionBlockAt epochIndexAt EndsPeriod
  rw [if_neg (by omega), decide_eq_true_iff, Period.add_pred_mod_eq_pred_iff p.blocksPerEpoch_pos]
  exact ⟨fun multiple => ⟨after, multiple⟩, And.right⟩

theorem endsPeriod_iff_divCeil {length b : Nat} (pos : 0 < length) (after : p.genesisBlockNumber ≤ b) :
    p.EndsPeriod length b ↔
      divCeil (b - p.genesisBlockNumber) length * length + p.genesisBlockNumber = b := by
  rw [EndsPeriod, ← divCeil_mul_eq_self_iff pos]
  omega

theorem endsPeriod_batch_of_epoch {c : Nat} (ends : p.EndsPeriod p.blocksPerEpoch c) :
    p.EndsPeriod p.blocksPerBatch c := by
  refine ⟨ends.1, ?_⟩
  have := Nat.mod_mul_right_mod (c - p.genesisBlockNumber) p.blocksPerBatch p.batchesPerEpoch
  unfold blocksPerEpoch at ends
  rw [ends.2] at this
  exact this.symm

section Search

/- `IsEnd` is a block predicate that agrees with the ends of `length`-block periods from the
genesis on; below the genesis it may say anything. -/
variable {length : Nat} {IsEnd : Nat → Prop}
  (agree : ∀ c, p.genesisBlockNumber ≤ c → (IsEnd c ↔ p.EndsPeriod length c))
include agree

theorem periodEndAfter_isLeast (pos : 0 < length) {b : Nat} (after : p.genesisBlockNumber ≤ b) :
    IsLeast {c | b < c ∧ IsEnd c} (p.periodEndAfter length b) := by
  unfold periodEndAfter
  rw [if_neg (by omega)]
  refine ⟨⟨?_, (agree _ (by omega)).mpr (p.endsPeriod_mul_add _ _)⟩, ?_⟩
  · have := Period.lt_div_succ_mul pos (b - p.genesisBlockNumber)
    omega
  · rintro c ⟨later, isEnd⟩
    have ends := (agree c (by omega)).mp isEnd
    have := Period.div_succ_mul_le pos (show b - p.genesisBlockNumber < c - p.genesisBlockNumber by
      omega) ends.2
    omega

theorem isGreatest_period_end_le {bound : Nat} (after : p.genesisBlockNumber ≤ bound) :
    IsGreatest {c | c ≤ bound ∧ IsEnd c}
      ((bound - p.genesisBlockNumber) / length * length + p.genesisBlockNumber) := by
  refine ⟨⟨?_, (agree _ (by omega)).mpr (p.endsPeriod_mul_add _ _)⟩, ?_⟩
  · have := Nat.div_mul_le_self (bound - p.genesisBlockNumber) length
    omega
  · rintro c ⟨earlier, isEnd⟩
    by_cases before : c < p.genesisBlockNumber
    · omega
    · have ends := (agree c (by omega)).mp isEnd
      have := Period.le_div_mul_of_le (show c - p.genesisBlockNumber ≤ bound - p.genesisBlockNumber by
        omega) ends.2
      omega

theorem lastPeriodEnd_isGreatest {b : Nat} (after : p.genesisBlockNumber ≤ b) :
    ∃ last, p.lastPeriodEnd length b = some last ∧ IsGreatest {c | c ≤ b ∧ IsEnd c} last := by
  refine ⟨_, ?_, p.isGreatest_period_end_le agree after⟩
  simp [lastPeriodEnd, Nat.not_lt.mpr after]

theorem isGreatest_period_end_lt {b : Nat} (after : p.genesisBlockNumber < b) :
    IsGreatest {c | c < b ∧ IsEnd c}
      ((b - p.genesisBlockNumber - 1) / length * length + p.genesisBlockNumber) := by
  have below : {c | c < b ∧ IsEnd c} = {c | c ≤ b - 1 ∧ IsEnd c} := by
    ext c
    exact and_congr_left fun _ => by omega
  rw [below, Nat.sub_right_comm]
  exact p.isGreatest_period_end_le agree (by omega)

end Search

theorem epochAt_pos {b : Nat} (after : p.genesisBlockNumber < b) : 0 < p.epochAt b := by
  rw [epochAt_eq_divCeil, Nat.pos_iff_ne_zero, Ne, ← Nat.le_zero, divCeil_le_iff p.blocksPerEpoch_pos]
  omega

theorem epochAt_mul_add_lt {b : Nat} (after : p.genesisBlockNumber ≤ b) :
    p.epochAt b * p.blocksPerEpoch + p.genesisBlockNumber < b + p.blocksPerEpoch := by
  have := divCeil_mul_lt (x := b - p.genesisBlockNumber) p.blocksPerEpoch_pos
  rw [epochAt_eq_divCeil]
  omega

theorem batchAt_mul_add_lt {b : Nat} (after : p.genesisBlockNumber ≤ b) :
    p.batchAt b * p.blocksPerBatch + p.genesisBlockNumber < b + p.blocksPerBatch := by
  have := divCeil_mul_lt (x := b - p.genesisBlockNumber) p.blocksPerBatch_pos
  rw [batchAt_eq_divCeil]
  omega

theorem blocksPerBatch_le_blocksPerEpoch : p.blocksPerBatch ≤ p.blocksPerEpoch :=
  Nat.le_mul_of_pos_right _ p.batchesPerEpoch_pos

theorem electionBlockOf_epochAt {b : Nat} (after : p.genesisBlockNumber ≤ b)
    (fits : b + p.blocksPerEpoch < u32Bound) :
    p.electionBlockOf (p.epochAt b) = some (p.epochAt b * p.blocksPerEpoch + p.genesisBlockNumber) := by
  apply electionBlockOf_eq
  have := p.epochAt_mul_add_lt after
  omega

theorem macroBlockOf_batchAt {b : Nat} (after : p.genesisBlockNumber ≤ b)
    (fits : b + p.blocksPerEpoch < u32Bound) :
    p.macroBlockOf (p.batchAt b) = some (p.batchAt b * p.blocksPerBatch + p.genesisBlockNumber) := by
  apply periodEndOf_eq
  have := p.batchAt_mul_add_lt after
  have := p.blocksPerBatch_le_blocksPerEpoch
  omega

theorem firstBlockOf_epochAt {b : Nat} (after : p.genesisBlockNumber < b) (fits : b < u32Bound) :
    p.firstBlockOf (p.epochAt b) = some (b - p.epochIndexAt b) := by
  have start := Period.period_start_add_index p.blocksPerEpoch_pos (x := b - p.genesisBlockNumber)
    (by omega)
  have first := p.epochAt_pos after
  rw [epochAt_eq_divCeil, divCeil_eq_add_pred_div p.blocksPerEpoch_pos] at first ⊢
  have index : p.epochIndexAt b =
      (b - p.genesisBlockNumber + p.blocksPerEpoch - 1) % p.blocksPerEpoch := by
    simp [epochIndexAt, Nat.not_lt.mpr after.le]
  rw [index]
  generalize (b - p.genesisBlockNumber + p.blocksPerEpoch - 1) / p.blocksPerEpoch = epoch
    at start first
  generalize (b - p.genesisBlockNumber + p.blocksPerEpoch - 1) % p.blocksPerEpoch = offset at start
  -- every checked step stays below `b`, so below the u32 bound
  simp only [firstBlockOf, checkedU32, Nat.pos_iff_ne_zero.mp first, if_false, Option.bind_eq_bind,
    Option.bind_some, show (epoch - 1) * p.blocksPerEpoch < u32Bound by omega, if_true,
    show (epoch - 1) * p.blocksPerEpoch + 1 < u32Bound by omega,
    show (epoch - 1) * p.blocksPerEpoch + 1 + p.genesisBlockNumber < u32Bound by omega,
    Option.some_inj]
  omega

theorem electionBlockAfter_isLeast {b : Nat} (after : p.genesisBlockNumber ≤ b) :
    IsLeast {c | b < c ∧ p.isElectionBlockAt c = true} (p.electionBlockAfter b) :=
  p.periodEndAfter_isLeast (fun _ => p.isElectionBlockAt_iff) p.blocksPerEpoch_pos after

theorem macroBlockAfter_isLeast {b : Nat} (after : p.genesisBlockNumber ≤ b) :
    IsLeast {c | b < c ∧ p.isMacroBlockAt c = true} (p.macroBlockAfter b) :=
  p.periodEndAfter_isLeast (fun c _ => p.isMacroBlockAt_iff c) p.blocksPerBatch_pos after

theorem electionBlockBefore_isGreatest {b : Nat} (after : p.genesisBlockNumber < b) :
    ∃ before, p.electionBlockBefore b = some before ∧
      IsGreatest {c | c < b ∧ p.isElectionBlockAt c = true} before := by
  refine ⟨_, ?_, p.isGreatest_period_end_lt (fun _ => p.isElectionBlockAt_iff) after⟩
  simp [electionBlockBefore, Nat.not_lt.mpr after.le, Nat.ne_of_gt after]

theorem macroBlockBefore_isGreatest {b : Nat} (after : p.genesisBlockNumber < b) :
    ∃ before, p.macroBlockBefore b = some before ∧
      IsGreatest {c | c < b ∧ p.isMacroBlockAt c = true} before := by
  refine ⟨_, ?_, p.isGreatest_period_end_lt (fun c _ => p.isMacroBlockAt_iff c) after⟩
  simp [macroBlockBefore, Nat.not_le.mpr after]

/-- The four formulas of the block arithmetic agree after the genesis, as long as the next
epoch's end still fits in a u32. -/
theorem block_arithmetic_consistent {b : Nat} (after : p.genesisBlockNumber < b)
    (fits : b + p.blocksPerEpoch < u32Bound) :
    p.epochAt b = divCeil (p.batchAt b) p.batchesPerEpoch ∧
    (∃ first election, p.firstBlockOf (p.epochAt b) = some first ∧
      p.electionBlockOf (p.epochAt b) = some election ∧ first ≤ b ∧ b ≤ election ∧
      p.epochIndexAt b = b - first) ∧
    (p.isElectionBlockAt b = true ↔ p.electionBlockOf (p.epochAt b) = some b) ∧
    (p.isMacroBlockAt b = true ↔ p.macroBlockOf (p.batchAt b) = some b) ∧
    (p.isElectionBlockAt b = true → p.isMacroBlockAt b = true) ∧
    IsLeast {c | b < c ∧ p.isElectionBlockAt c = true} (p.electionBlockAfter b) ∧
    IsLeast {c | b < c ∧ p.isMacroBlockAt c = true} (p.macroBlockAfter b) ∧
    (∃ last, p.lastElectionBlock b = some last ∧
      IsGreatest {c | c ≤ b ∧ p.isElectionBlockAt c = true} last) ∧
    (∃ last, p.lastMacroBlock b = some last ∧
      IsGreatest {c | c ≤ b ∧ p.isMacroBlockAt c = true} last) ∧
    (∃ before, p.electionBlockBefore b = some before ∧
      IsGreatest {c | c < b ∧ p.isElectionBlockAt c = true} before) ∧
    (∃ before, p.macroBlockBefore b = some before ∧
      IsGreatest {c | c < b ∧ p.isMacroBlockAt c = true} before) := by
  have electionEnds : ∀ c, p.genesisBlockNumber ≤ c →
      (p.isElectionBlockAt c = true ↔ p.EndsPeriod p.blocksPerEpoch c) :=
    fun _ => p.isElectionBlockAt_iff
  have macroEnds : ∀ c, p.genesisBlockNumber ≤ c →
      (p.isMacroBlockAt c = true ↔ p.EndsPeriod p.blocksPerBatch c) :=
    fun c _ => p.isMacroBlockAt_iff c
  have electionOf := p.electionBlockOf_epochAt after.le fits
  have macroOf := p.macroBlockOf_batchAt after.le fits
  refine ⟨p.epochAt_eq_divCeil_batchAt b, ?_, ?_, ?_, ?_, p.electionBlockAfter_isLeast after.le,
    p.macroBlockAfter_isLeast after.le, p.lastPeriodEnd_isGreatest electionEnds after.le,
    p.lastPeriodEnd_isGreatest macroEnds after.le, p.electionBlockBefore_isGreatest after,
    p.macroBlockBefore_isGreatest after⟩
  · -- the epoch runs from `epoch_index_at` blocks back up to its election block
    have first := p.firstBlockOf_epochAt after (by omega)
    have index : p.epochIndexAt b ≤ b := by
      unfold epochIndexAt
      rw [if_neg (by omega)]
      have := Period.period_start_add_index p.blocksPerEpoch_pos (x := b - p.genesisBlockNumber)
        (by omega)
      omega
    have reaches := div_ceil_mul_ge (b - p.genesisBlockNumber) _ p.blocksPerEpoch_pos
    rw [← epochAt_eq_divCeil] at reaches
    exact ⟨_, _, first, electionOf, Nat.sub_le _ _, by omega, by omega⟩
  · rw [electionOf, Option.some_inj, electionEnds b after.le,
      p.endsPeriod_iff_divCeil p.blocksPerEpoch_pos after.le, epochAt_eq_divCeil]
  · rw [macroOf, Option.some_inj, macroEnds b after.le,
      p.endsPeriod_iff_divCeil p.blocksPerBatch_pos after.le, batchAt_eq_divCeil]
  · intro election
    exact (macroEnds b after.le).mpr (p.endsPeriod_batch_of_epoch ((electionEnds b after.le).mp election))

end Policy

/-- On the main network the arithmetic agrees at the first block after the genesis. -/
theorem first_block_arithmetic_consistent :
    Policy.default.epochAt 1 = divCeil (Policy.default.batchAt 1) Policy.default.batchesPerEpoch :=
  (Policy.default.block_arithmetic_consistent (by decide) (by decide)).1

end Albatross