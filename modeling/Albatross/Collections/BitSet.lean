import Mathlib

/- The bit set of collections/src/bitset.rs: a vector of u64 store words and a
   cached element count. Here are the operations read by the block justifications,
   `contains`, `len`, `iter`, `count_ones` and the binary deserializer
   `BitSetVisitor::visit_seq`, which accepts any word sequence as it is, and the
   comparisons: `PartialEq`, which reads missing words as zero, and the derived `Ord`,
   which does not. -/
namespace Albatross

/-- `index_and_mask`: the store word holding `value` and the bit selecting it. -/
def indexAndMask (value : Nat) : Nat × UInt64 :=
  (value >>> 6, (1 : UInt64) <<< (value &&& 63).toUInt64)

structure BitSet where
  store : List UInt64
  count : Nat
  deriving DecidableEq, Repr

namespace BitSet

def new : BitSet := ⟨[], 0⟩

def len (b : BitSet) : Nat := b.count

def contains (b : BitSet) (value : Nat) : Bool :=
  match b.store[(indexAndMask value).1]? with
  | some x => x &&& (indexAndMask value).2 != 0
  | none => false

/-- `Bits64Iter`: the 64 bits of one store word, lowest first. -/
def bits64 (x : UInt64) : List Bool :=
  (List.range 64).map fun idx => x &&& ((1 : UInt64) <<< idx.toUInt64) != 0

/-- `u64::count_ones`. -/
def countOnes (x : UInt64) : Nat := (bits64 x).count true

/-- The finite part of `iter_bits`; `iter` takes exactly this many bits of it,
    so the infinite tail of `false` is never read. -/
def iterBits (b : BitSet) : List Bool := b.store.flatMap bits64

/-- The index filter of `iter`: keep the enumeration index of every set bit. -/
def pickSet (e : Bool × Nat) : Option Nat := if e.1 then some e.2 else none

def iter (b : BitSet) : List Nat :=
  ((b.iterBits.take (b.store.length * 64)).zipIdx).filterMap pickSet

/-- `BitSetVisitor::visit_seq`: the words are stored unchecked, the count is the
    sum of their one bits. -/
def visitSeq (words : List UInt64) : BitSet :=
  ⟨words, (words.map countOnes).sum⟩

/-- The loop of `PartialEq::eq`: the words pairwise, a missing word reading as zero. -/
def eqWords : List UInt64 → List UInt64 → Bool
  | a :: left, b :: right => if a ≠ b then false else eqWords left right
  | a :: left, [] => if a ≠ 0 then false else eqWords left []
  | [], b :: right => if 0 ≠ b then false else eqWords [] right
  | [], [] => true

/-- `PartialEq for BitSet`. -/
def eq (a b : BitSet) : Bool := eqWords a.store b.store

/-- The derived `Ord`: the store words lexicographically, then the count. -/
def cmp (a b : BitSet) : Ordering := (compare a.store b.store).then (compare a.count b.count)

/-- The binary `Serialize`: the sequence of store words. -/
def serialize (b : BitSet) : List UInt64 := b.store

/-- The count agrees with the store words, as after `visit_seq`. -/
def CountExact (b : BitSet) : Prop := b.count = (b.store.map countOnes).sum

theorem visitSeq_countExact (words : List UInt64) : (visitSeq words).CountExact := rfl

theorem mask_bit (x : UInt64) {k : Nat} (hk : k < 64) :
    (x &&& ((1 : UInt64) <<< k.toUInt64) != 0) = x.toNat.testBit k := by
  have mask : ((1 : UInt64) <<< k.toUInt64).toNat = 2 ^ k := by
    have small : k.toUInt64.toNat = k := by simp; omega
    rw [UInt64.toNat_shiftLeft, show (1 : UInt64).toNat = 1 from rfl, Nat.one_shiftLeft, small,
      Nat.mod_eq_of_lt hk]
    exact Nat.mod_eq_of_lt (Nat.pow_lt_pow_right (by decide) hk)
  have word : (x &&& ((1 : UInt64) <<< k.toUInt64)).toNat = (x.toNat.testBit k).toNat * 2 ^ k := by
    rw [UInt64.toNat_and, mask, Nat.and_two_pow]
  cases bit : x.toNat.testBit k
  · have zero : x &&& ((1 : UInt64) <<< k.toUInt64) = 0 := by
      rw [← UInt64.toNat_inj, word, bit]; simp
    simp [zero]
  · have nonzero : x &&& ((1 : UInt64) <<< k.toUInt64) ≠ 0 := by
      intro h
      have := congrArg UInt64.toNat h
      rw [word, bit] at this
      simp at this
    simp [nonzero]

theorem indexAndMask_eq (value : Nat) :
    indexAndMask value = (value / 64, (1 : UInt64) <<< (value % 64).toUInt64) := by
  simp [indexAndMask, Nat.shiftRight_eq_div_pow, Nat.and_two_pow_sub_one_eq_mod value 6]

theorem contains_eq (b : BitSet) (value : Nat) :
    b.contains value = (b.store[value / 64]?.map (·.toNat.testBit (value % 64))).getD false := by
  unfold contains
  rw [indexAndMask_eq]
  cases b.store[value / 64]? with
  | none => rfl
  | some x => exact mask_bit x (Nat.mod_lt _ (by decide))

theorem bits64_length (x : UInt64) : (bits64 x).length = 64 := by simp [bits64]

theorem bits64_getElem? (x : UInt64) {k : Nat} (hk : k < 64) :
    (bits64 x)[k]? = some (x.toNat.testBit k) := by
  simp [bits64, List.getElem?_range hk, mask_bit x hk]

theorem iterBits_length (b : BitSet) : b.iterBits.length = b.store.length * 64 := by
  simp [iterBits, List.length_flatMap, bits64_length]

theorem flatMap_bits64_getElem? (ws : List UInt64) (i : Nat) :
    (ws.flatMap bits64)[i]? = ws[i / 64]?.map (·.toNat.testBit (i % 64)) := by
  induction ws generalizing i with
  | nil => simp
  | cons w ws ih =>
    rw [List.flatMap_cons]
    by_cases low : i < 64
    · rw [List.getElem?_append_left (by rw [bits64_length]; exact low), bits64_getElem? w low]
      simp [Nat.div_eq_of_lt low, Nat.mod_eq_of_lt low]
    · rw [List.getElem?_append_right (by rw [bits64_length]; omega), bits64_length, ih]
      have shift : i / 64 = (i - 64) / 64 + 1 := by omega
      have same : (i - 64) % 64 = i % 64 := by omega
      simp [shift, same]

theorem iterBits_getElem? (b : BitSet) (i : Nat) :
    b.iterBits[i]? = b.store[i / 64]?.map (·.toNat.testBit (i % 64)) :=
  flatMap_bits64_getElem? b.store i

/- The enumeration-and-filter of `iter`, over any bit list and start index. -/
theorem mem_filterMap_zipIdx (bs : List Bool) (k i : Nat) :
    i ∈ (bs.zipIdx k).filterMap pickSet ↔ k ≤ i ∧ bs[i - k]? = some true := by
  induction bs generalizing k with
  | nil => simp
  | cons b bs ih =>
    rw [List.zipIdx_cons, List.filterMap_cons]
    by_cases here : i = k
    · subst here
      cases b <;> simp [pickSet, ih]
    · have tail : i ∈ (bs.zipIdx (k + 1)).filterMap pickSet ↔ k ≤ i ∧ (b :: bs)[i - k]? = some true := by
        rw [ih]
        constructor
        · rintro ⟨le, bit⟩
          refine ⟨by omega, ?_⟩
          have shift : i - k = (i - (k + 1)) + 1 := by omega
          rw [shift, List.getElem?_cons_succ]
          exact bit
        · rintro ⟨le, bit⟩
          have shift : i - k = (i - (k + 1)) + 1 := by omega
          rw [shift, List.getElem?_cons_succ] at bit
          exact ⟨by omega, bit⟩
      cases b <;> simp [pickSet, tail, here]

theorem filterMap_zipIdx_length (bs : List Bool) (k : Nat) :
    ((bs.zipIdx k).filterMap pickSet).length = bs.count true := by
  induction bs generalizing k with
  | nil => simp
  | cons b bs ih =>
    rw [List.zipIdx_cons, List.filterMap_cons]
    cases b <;> simp [pickSet, ih]

theorem filterMap_zipIdx_lower (bs : List Bool) (k : Nat) :
    ∀ i ∈ (bs.zipIdx k).filterMap pickSet, k ≤ i := by
  intro i mem
  exact ((mem_filterMap_zipIdx bs k i).mp mem).1

theorem filterMap_zipIdx_increasing (bs : List Bool) (k : Nat) :
    ((bs.zipIdx k).filterMap pickSet).Pairwise (· < ·) := by
  induction bs generalizing k with
  | nil => simp
  | cons b bs ih =>
    rw [List.zipIdx_cons, List.filterMap_cons]
    have above := filterMap_zipIdx_lower bs (k + 1)
    cases b with
    | false => exact ih (k + 1)
    | true =>
      simp only [pickSet, ↓reduceIte, List.pairwise_cons]
      exact ⟨fun i mem => above i mem, ih (k + 1)⟩

theorem mem_iter (b : BitSet) (i : Nat) : i ∈ b.iter ↔ b.contains i = true := by
  rw [iter, ← iterBits_length, List.take_length, mem_filterMap_zipIdx, Nat.sub_zero,
    iterBits_getElem?, contains_eq]
  cases b.store[i / 64]? <;> simp

theorem iter_increasing (b : BitSet) : b.iter.Pairwise (· < ·) :=
  filterMap_zipIdx_increasing _ 0

theorem iter_nodup (b : BitSet) : b.iter.Nodup :=
  (iter_increasing b).imp Nat.ne_of_lt

theorem iter_length (b : BitSet) : b.iter.length = (b.store.map countOnes).sum := by
  rw [iter, ← iterBits_length, List.take_length, filterMap_zipIdx_length, iterBits,
    List.count_flatMap]
  rfl

theorem len_eq_iter_length {b : BitSet} (exact : b.CountExact) : b.len = b.iter.length := by
  rw [len, exact, iter_length]

theorem eqWords_append_zero (words : List UInt64) : eqWords (words ++ [0]) words = true := by
  induction words with
  | nil => simp [eqWords]
  | cons word words ih => simp [eqWords, ih]

theorem compare_append_zero_gt (words : List UInt64) : compare (words ++ [0]) words = .gt := by
  induction words with
  | nil => rfl
  | cons word words ih => simp [List.compare_cons_cons, ih]

theorem contains_append_zero (words : List UInt64) (value : Nat) :
    (visitSeq (words ++ [0])).contains value = (visitSeq words).contains value := by
  rw [contains_eq, contains_eq]
  simp only [visitSeq, List.getElem?_append]
  split_ifs with inside
  · rfl
  · -- past the old words only the zero word is left, which holds nothing
    have absent : words[value / 64]? = none := List.getElem?_eq_none (by omega)
    rw [absent]
    cases value / 64 - words.length with
    | zero => simp
    | succ k => simp

/-- A word sequence with a zero word appended deserializes to a set with the same members
that `==` calls equal, while the derived `Ord` puts it after, and it serializes to other
words. -/
theorem trailing_zero_word_breaks_ord (words : List UInt64) :
    eq (visitSeq (words ++ [0])) (visitSeq words) = true ∧
      (∀ value, (visitSeq (words ++ [0])).contains value = (visitSeq words).contains value) ∧
      cmp (visitSeq (words ++ [0])) (visitSeq words) = .gt ∧
      serialize (visitSeq (words ++ [0])) ≠ serialize (visitSeq words) := by
  refine ⟨eqWords_append_zero words, contains_append_zero words, ?_, ?_⟩
  · rw [cmp, visitSeq, visitSeq, compare_append_zero_gt]
    rfl
  · intro same
    have := congrArg List.length same
    simp [serialize, visitSeq] at this

theorem zero_word_sorts_after_empty :
    eq (visitSeq [0]) new = true ∧ cmp (visitSeq [0]) new = .gt ∧ serialize (visitSeq [0]) ≠ serialize new := by
  obtain ⟨equal, -, after, apart⟩ := trailing_zero_word_breaks_ord []
  exact ⟨equal, after, apart⟩

end BitSet

end Albatross
