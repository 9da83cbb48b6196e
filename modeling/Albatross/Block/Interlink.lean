import Albatross.Block.MacroBlock
import Albatross.Lib.BinaryArith

/- Election-block interlinks (macro_block.rs `get_next_interlink`, checked by
   `Blockchain::verify_block`). Entry j of an election block's interlink points
   at the most recent earlier epoch divisible by 2^(j+1); each election block
   overwrites the entries its own epoch number qualifies for, and appends one
   when its epoch is a new power of two. -/
namespace Albatross
open BinaryArith

namespace MacroBlock

variable {H C J : Type}

/-- `get_next_interlink`. `none` is a panic: an election block without an
    interlink, or the assert on the interlink length. -/
def getNextInterlink (p : Policy) (hash : MacroHeader H C → H) (b : MacroBlock H C J) :
    Option (Except BlockError (List H)) :=
  if !b.isElection p then some (.error .invalidBlockType)
  else match b.header.interlink with
  | none => none
  | some interlink =>
    let numberHashesToUpdate :=
      if b.blockNumber = p.genesisBlockNumber then 0
      else trailingZeros32 (u32WrappingSub b.blockNumber p.genesisBlockNumber / p.blocksPerEpoch)
    let interlink :=
      if interlink.length < numberHashesToUpdate then interlink ++ [hash b.header] else interlink
    if interlink.length < numberHashesToUpdate then none
    else some (.ok ((List.range numberHashesToUpdate).foldl
      (fun l i => l.set i (hash b.header)) interlink))

end MacroBlock

theorem getElem?_foldl_set {α : Type} (x : α) (n : Nat) (l : List α) (j : Nat) :
    ((List.range n).foldl (fun l i => l.set i x) l)[j]? =
      if j < n ∧ j < l.length then some x else l[j]? := by
  induction n generalizing j with
  | zero => simp
  | succ n ih =>
    rw [List.range_succ, List.foldl_append, List.foldl_cons, List.foldl_nil, List.getElem?_set, ih]
    have sameLength : ((List.range n).foldl (fun l i => l.set i x) l).length = l.length := by
      clear ih
      induction n with
      | zero => rfl
      | succ n ih => rw [List.range_succ, List.foldl_append]; simp [ih]
    rw [sameLength]
    by_cases here : n = j
    · subst here; by_cases fits : n < l.length <;> simp [fits]
    · have widen : (j < n + 1 ∧ j < l.length) ↔ (j < n ∧ j < l.length) := by omega
      simp only [here, ↓reduceIte, widen]

/-- Interlink length of the election block of epoch `k`. -/
def interlinkLength (k : Nat) : Nat := if k ≤ 1 then 0 else (k - 1).log2

/-- The epoch that entry `j` of epoch `k`'s interlink points at. -/
def interlinkEpoch (k j : Nat) : Nat := (k - 1) / 2 ^ (j + 1) * 2 ^ (j + 1)

/-- The number of entries the election block of epoch `k` overwrites. -/
def updatedEntries (k : Nat) : Nat := if k = 0 then 0 else trailingZeros32 k

theorem updatedEntries_le_length (k : Nat) (small : k < u32Bound) :
    updatedEntries k ≤ interlinkLength (k + 1) := by
  unfold updatedEntries interlinkLength
  split
  · omega
  · rename_i pos
    have := trailingZeros32_le_log2 (n := k) (by omega) (by unfold u32Bound at small; omega)
    simp only [Nat.add_sub_cancel, if_neg (show ¬ k + 1 ≤ 1 by omega)]
    exact this

/-- The next interlink grows by one entry exactly when the overwrite reaches
    past the current one. -/
theorem interlinkLength_succ (k : Nat) (small : k < u32Bound) :
    interlinkLength (k + 1) =
      if interlinkLength k < updatedEntries k then interlinkLength k + 1 else interlinkLength k := by
  have bound := updatedEntries_le_length k small
  rcases Nat.lt_or_ge k 2 with few | two
  · interval_cases k <;> simp [interlinkLength, updatedEntries]; decide
  · have current : interlinkLength k = (k - 1).log2 := by simp [interlinkLength]; omega
    have next : interlinkLength (k + 1) = k.log2 := by simp [interlinkLength]; omega
    rw [current, next]
    rw [next] at bound
    rcases log2_step two with same | ⟨grew, power⟩
    · rw [if_neg (by omega), same]
    · have full : k.log2 ≤ updatedEntries k := by
        have small32 : k < 2 ^ 32 := by unfold u32Bound at small; exact small
        have divides : 2 ^ (k.log2 - 1 + 1) ∣ k := by
          rw [Nat.sub_add_cancel (by omega)]; rw [← power]
        have := (trailingZeros32_dvd_iff (by omega) small32 _).mp divides
        simp only [updatedEntries, if_neg (show k ≠ 0 by omega)]
        omega
      rw [if_pos (by omega), grew]

theorem interlinkEpoch_succ_updated {k j : Nat} (small : k < u32Bound) (inside : j < updatedEntries k) :
    interlinkEpoch (k + 1) j = k := by
  have pos : k ≠ 0 := by rintro rfl; simp [updatedEntries] at inside
  have small32 : k < 2 ^ 32 := by unfold u32Bound at small; exact small
  have divides := (trailingZeros32_dvd_iff (Nat.pos_of_ne_zero pos) small32 j).mpr
    (by simpa [updatedEntries, pos] using inside)
  simp [interlinkEpoch, Nat.div_mul_cancel divides]

theorem interlinkEpoch_succ_kept {k j : Nat} (small : k < u32Bound) (pos : 0 < k)
    (outside : ¬ j < updatedEntries k) : interlinkEpoch (k + 1) j = interlinkEpoch k j := by
  have small32 : k < 2 ^ 32 := by unfold u32Bound at small; exact small
  have ndvd : ¬ 2 ^ (j + 1) ∣ k := fun divides =>
    outside (by simpa [updatedEntries, Nat.pos_iff_ne_zero.mp pos] using
      (trailingZeros32_dvd_iff pos small32 j).mp divides)
  simp only [interlinkEpoch, Nat.add_sub_cancel]
  rw [div_pred_of_not_dvd pos ndvd]

theorem interlinkEpoch_isGreatest {k j : Nat} (inside : j < interlinkLength k) :
    IsGreatest {m | 1 ≤ m ∧ m ≤ k - 1 ∧ 2 ^ (j + 1) ∣ m} (interlinkEpoch k j) := by
  have two : 2 ≤ k := by
    by_contra few; simp [interlinkLength, show k ≤ 1 by omega] at inside
  have length : interlinkLength k = (k - 1).log2 := by simp [interlinkLength]; omega
  have fits : 2 ^ (j + 1) ≤ k - 1 := by
    have := Nat.log2_self_le (n := k - 1) (by omega)
    have := Nat.pow_le_pow_right (n := 2) (by decide) (show j + 1 ≤ (k - 1).log2 by omega)
    omega
  have dpos : 0 < 2 ^ (j + 1) := Nat.two_pow_pos _
  refine ⟨⟨?_, Nat.div_mul_le_self _ _, Nat.dvd_mul_left _ _⟩, ?_⟩
  · have : 1 ≤ (k - 1) / 2 ^ (j + 1) := (Nat.le_div_iff_mul_le dpos).mpr (by omega)
    have := Nat.mul_le_mul_right (2 ^ (j + 1)) this
    unfold interlinkEpoch; omega
  · rintro m ⟨-, below, ⟨q, rfl⟩⟩
    have : q ≤ (k - 1) / 2 ^ (j + 1) := (Nat.le_div_iff_mul_le dpos).mpr (by rw [Nat.mul_comm]; exact below)
    unfold interlinkEpoch
    rw [Nat.mul_comm]
    exact Nat.mul_le_mul_right _ this

section Chain

variable {H C J : Type}

/-- The interlink the election block of epoch `k` must carry: entry j is the hash
    of the latest epoch m ≤ k - 1, m ≥ 1, that 2^(j+1) divides. -/
def expectedInterlink (hash : MacroHeader H C → H) (E : Nat → MacroBlock H C J) (k : Nat) : List H :=
  (List.range (interlinkLength k)).map fun j => hash (E (interlinkEpoch k j)).header

/-- Election blocks E 0, ..., E c as `verify_block` admits them: each at the
    block number of its epoch, linked to its predecessor's hash, and carrying
    whatever interlink its predecessor's `get_next_interlink` returns. -/
structure ElectionChain (p : Policy) (hash : MacroHeader H C → H) (E : Nat → MacroBlock H C J)
    (c : Nat) : Prop where
  numbers : ∀ k ≤ c, p.electionBlockOf k = some (E k).blockNumber
  genesis_interlink : (E 0).header.interlink = some []
  parents : ∀ k ≤ c, 1 ≤ k → (E k).header.parentElectionHash = hash (E (k - 1)).header
  interlinks : ∀ k ≤ c, 1 ≤ k → ∀ l, (E (k - 1)).getNextInterlink p hash = some (.ok l) →
    (E k).header.interlink = some l

variable {p : Policy} {hash : MacroHeader H C → H} {E : Nat → MacroBlock H C J} {c : Nat}

theorem expectedInterlink_getElem? (hash : MacroHeader H C → H) (E : Nat → MacroBlock H C J)
    (k j : Nat) : (expectedInterlink hash E k)[j]? =
      if j < interlinkLength k then some (hash (E (interlinkEpoch k j)).header) else none := by
  by_cases inside : j < interlinkLength k <;> simp [expectedInterlink, inside]

/-- One election block: from the expected interlink, `get_next_interlink`
    returns the successor's expected interlink without reaching its assert. -/
theorem getNextInterlink_expected {k : Nat} (number : p.electionBlockOf k = some (E k).blockNumber)
    (links : (E k).header.interlink = some (expectedInterlink hash E k)) :
    (E k).getNextInterlink p hash = some (.ok (expectedInterlink hash E (k + 1))) := by
  obtain ⟨bn, fits⟩ := p.electionBlockOf_some number
  have bpe := p.blocksPerEpoch_pos
  have small : k < u32Bound := by
    have : k ≤ k * p.blocksPerEpoch := Nat.le_mul_of_pos_right k bpe
    omega
  have election : (E k).isElection p = true := by
    rw [MacroBlock.isElection, bn]; exact p.isElectionBlockAt_election_block k
  have count : (if (E k).blockNumber = p.genesisBlockNumber then 0 else
      trailingZeros32 (u32WrappingSub (E k).blockNumber p.genesisBlockNumber / p.blocksPerEpoch)) =
      updatedEntries k := by
    rw [bn, u32WrappingSub_of_le (by omega) (by omega), Nat.add_sub_cancel,
      Nat.mul_div_cancel _ bpe]
    by_cases zero : k = 0
    · subst zero; simp [updatedEntries]
    · have : k * p.blocksPerEpoch + p.genesisBlockNumber ≠ p.genesisBlockNumber := by
        have := Nat.mul_pos (Nat.pos_of_ne_zero zero) bpe; omega
      rw [if_neg this]
      simp [updatedEntries, zero]
  have lengthStep := interlinkLength_succ k small
  have bound := updatedEntries_le_length k small
  have oldLength : (expectedInterlink hash E k).length = interlinkLength k := by
    simp [expectedInterlink]
  simp only [MacroBlock.getNextInterlink, election, Bool.not_true, Bool.false_eq_true, ↓reduceIte,
    links, count]
  -- the appended hash, if any, is that of `E k`, as is every overwritten entry
  have pushedLength : (if (expectedInterlink hash E k).length < updatedEntries k then
      expectedInterlink hash E k ++ [hash (E k).header] else expectedInterlink hash E k).length =
      interlinkLength (k + 1) := by
    rw [lengthStep]
    by_cases grow : interlinkLength k < updatedEntries k
    · rw [if_pos (by rwa [oldLength]), if_pos grow, List.length_append, oldLength]; rfl
    · rw [if_neg (by rwa [oldLength]), if_neg grow, oldLength]
  rw [if_neg (by rw [pushedLength]; omega)]
  congr 2
  apply List.ext_getElem?
  intro j
  rw [getElem?_foldl_set, pushedLength, expectedInterlink_getElem?]
  by_cases inside : j < interlinkLength (k + 1)
  · rw [if_pos inside]
    by_cases updated : j < updatedEntries k
    · rw [if_pos ⟨updated, inside⟩, interlinkEpoch_succ_updated small updated]
    · rw [if_neg (fun h => updated h.1)]
      have pos : 0 < k := by
        rcases Nat.eq_zero_or_pos k with rfl | pos
        · simp [interlinkLength] at inside
        · exact pos
      have old : j < interlinkLength k := by
        rw [lengthStep] at inside; split at inside <;> omega
      have kept : (expectedInterlink hash E k)[j]? = some (hash (E (interlinkEpoch (k + 1) j)).header) := by
        rw [expectedInterlink_getElem?, if_pos old, interlinkEpoch_succ_kept small pos updated]
      split
      · rw [List.getElem?_append_left (by rw [oldLength]; exact old), kept]
      · exact kept
  · rw [if_neg inside, if_neg (fun h => inside h.2)]
    exact List.getElem?_eq_none (by rw [pushedLength]; omega)

/-- Along the chain every election block carries its expected interlink, and
    `get_next_interlink` never panics on it. -/
theorem chain_interlinks (chain : ElectionChain p hash E c) :
    ∀ k ≤ c, (E k).header.interlink = some (expectedInterlink hash E k) ∧
      (E k).getNextInterlink p hash = some (.ok (expectedInterlink hash E (k + 1))) := by
  intro k
  induction k with
  | zero =>
    intro _
    have links : (E 0).header.interlink = some (expectedInterlink hash E 0) := by
      rw [chain.genesis_interlink]; simp [expectedInterlink, interlinkLength]
    exact ⟨links, getNextInterlink_expected (chain.numbers 0 (Nat.zero_le _)) links⟩
  | succ k ih =>
    intro le
    obtain ⟨-, next⟩ := ih (by omega)
    have links := chain.interlinks (k + 1) le (by omega) _ (by simpa using next)
    exact ⟨links, getNextInterlink_expected (chain.numbers (k + 1) le) links⟩

/-- The interlinks along the chain as the code's documentation describes them:
    `get_next_interlink` returns on every block, and the interlink of epoch `k`
    has `log2 (k - 1)` entries, entry `j` hashing the latest epoch before `k`
    that `2^(j+1)` divides. -/
theorem election_chain_interlinks (chain : ElectionChain p hash E c) {k : Nat} (le : k ≤ c) :
    (E k).getNextInterlink p hash ≠ none ∧
    ∃ l, (E k).header.interlink = some l ∧ l.length = (if k ≤ 1 then 0 else (k - 1).log2) ∧
      ∀ j (inside : j < l.length), ∃ m, IsGreatest {m | 1 ≤ m ∧ m ≤ k - 1 ∧ 2 ^ (j + 1) ∣ m} m ∧
        l[j] = hash (E m).header := by
  obtain ⟨links, next⟩ := chain_interlinks chain k le
  refine ⟨by simp [next], expectedInterlink hash E k, links, by simp [expectedInterlink, interlinkLength], ?_⟩
  intro j inside
  have entry : j < interlinkLength k := by simpa [expectedInterlink] using inside
  exact ⟨interlinkEpoch k j, interlinkEpoch_isGreatest entry, by simp [expectedInterlink]⟩

end Chain

/-- A collision-free header hash: the injective encoding of the header. -/
def headerHash : MacroHeader Nat Nat → Nat := Encodable.encode

theorem headerHash_injective : Function.Injective headerHash := Encodable.encode_injective

def genesisHeader : MacroHeader Nat Nat := ⟨0, 0, 0, some [], 0⟩

def firstElectionHeader : MacroHeader Nat Nat := ⟨0, 43200, headerHash genesisHeader, some [], 1⟩

def secondElectionHeader : MacroHeader Nat Nat :=
  ⟨0, 86400, headerHash firstElectionHeader, some [], 2⟩

/-- Genesis and the election blocks of epochs 1 and 2 under the default policy. -/
def defaultChain : Nat → MacroBlock Nat Nat Unit
  | 0 => ⟨genesisHeader, none⟩
  | 1 => ⟨firstElectionHeader, none⟩
  | _ => ⟨secondElectionHeader, none⟩

theorem defaultChain_next_interlink {k : Nat} (le : k ≤ 1) :
    (defaultChain k).getNextInterlink Policy.default headerHash = some (.ok []) := by
  interval_cases k <;> rfl

theorem defaultChain_isChain : ElectionChain Policy.default headerHash defaultChain 2 where
  numbers k le := by interval_cases k <;> rfl
  genesis_interlink := rfl
  parents k le pos := by interval_cases k <;> rfl
  interlinks k le pos l next := by
    rw [defaultChain_next_interlink (by omega)] at next
    cases next
    interval_cases k <;> rfl

theorem defaultChain_second_interlinks :
    ElectionChain Policy.default headerHash defaultChain 2 ∧ 2 ≤ 2 ∧
    ((defaultChain 2).getNextInterlink Policy.default headerHash ≠ none ∧
      ∃ l, (defaultChain 2).header.interlink = some l ∧
        l.length = (if 2 ≤ 1 then 0 else (2 - 1).log2) ∧
        ∀ j (inside : j < l.length), ∃ m, IsGreatest {m | 1 ≤ m ∧ m ≤ 2 - 1 ∧ 2 ^ (j + 1) ∣ m} m ∧
          l[j] = headerHash (defaultChain m).header) :=
  ⟨defaultChain_isChain, le_refl 2, election_chain_interlinks defaultChain_isChain (le_refl 2)⟩

end Albatross
