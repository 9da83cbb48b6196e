import Mathlib

/- Binary arithmetic on naturals: the trailing-zero count of a 32-bit word and
   the floor-to-multiple and logarithm facts that power-of-two bucketing rests
   on. Nothing here refers to a particular program. -/
namespace BinaryArith

/-- Trailing zeros of `n`, counting at most `bits` of them. -/
def trailingZerosUpTo : Nat → Nat → Nat
  | 0, _ => 0
  | bits + 1, n => if n % 2 = 0 then trailingZerosUpTo bits (n / 2) + 1 else 0

/-- `u32::trailing_zeros`, which is 32 for zero. -/
def trailingZeros32 (n : Nat) : Nat := trailingZerosUpTo 32 n

theorem trailingZerosUpTo_spec (bits n : Nat) (pos : 0 < n) (small : n < 2 ^ bits) :
    2 ^ trailingZerosUpTo bits n ∣ n ∧ ¬ 2 ^ (trailingZerosUpTo bits n + 1) ∣ n := by
  induction bits generalizing n with
  | zero => simp at small; omega
  | succ bits ih =>
    unfold trailingZerosUpTo
    split
    · rename_i even
      have half := ih (n / 2) (by omega) (by rw [pow_succ] at small; omega)
      generalize trailingZerosUpTo bits (n / 2) = t at half ⊢
      obtain ⟨q, hq⟩ := half.1
      have twice : n = 2 * (n / 2) := by omega
      refine ⟨⟨q, by rw [twice, hq, pow_succ]; ring⟩, ?_⟩
      rintro ⟨r, hr⟩
      apply half.2
      refine ⟨r, ?_⟩
      have regroup : 2 ^ (t + 1 + 1) * r = 2 * (2 ^ (t + 1) * r) := by ring
      rw [hr, regroup, Nat.mul_div_cancel_left _ (by decide)]
    · rename_i odd
      refine ⟨by simp, ?_⟩
      rintro ⟨r, hr⟩
      omega

theorem trailingZeros32_dvd_iff {n : Nat} (pos : 0 < n) (small : n < 2 ^ 32) (j : Nat) :
    2 ^ (j + 1) ∣ n ↔ j < trailingZeros32 n := by
  obtain ⟨divides, exact⟩ := trailingZerosUpTo_spec 32 n pos small
  unfold trailingZeros32
  constructor
  · intro dj
    by_contra ge
    exact exact ((Nat.pow_dvd_pow 2 (by omega)).trans dj)
  · intro lt
    exact (Nat.pow_dvd_pow 2 (by omega)).trans divides

theorem trailingZeros32_le_log2 {n : Nat} (pos : 0 < n) (small : n < 2 ^ 32) :
    trailingZeros32 n ≤ n.log2 := by
  have divides := (trailingZerosUpTo_spec 32 n pos small).1
  exact (Nat.le_log2 (by omega)).mpr (Nat.le_of_dvd pos divides)

theorem div_pred_of_not_dvd {d k : Nat} (pos : 0 < k) (ndvd : ¬ d ∣ k) : k / d = (k - 1) / d := by
  rcases Nat.eq_zero_or_pos d with rfl | dpos
  · simp
  have rem : k % d ≠ 0 := fun zero => ndvd (Nat.dvd_of_mod_eq_zero zero)
  have split := Nat.div_add_mod k d
  have lower : (k - 1) / d * d ≤ k - 1 := Nat.div_mul_le_self _ _
  have upper : k - 1 < ((k - 1) / d + 1) * d := by
    have := Nat.lt_div_mul_add (a := k - 1) dpos
    rw [Nat.add_mul, Nat.one_mul]; omega
  apply le_antisymm
  · apply (Nat.le_div_iff_mul_le dpos).mpr
    have : k / d * d ≤ k - 1 := by
      have := Nat.mod_lt k dpos
      rw [Nat.mul_comm]; omega
    exact this
  · exact Nat.div_le_div_right (by omega)

/-- From `k - 1` to `k` the binary logarithm grows by at most one, and grows
    exactly when `k` is a power of two. -/
theorem log2_step {k : Nat} (two : 2 ≤ k) :
    k.log2 = (k - 1).log2 ∨ (k.log2 = (k - 1).log2 + 1 ∧ k = 2 ^ k.log2) := by
  have low := Nat.log2_self_le (n := k) (by omega)
  have high := Nat.lt_log2_self (n := k - 1)
  have mono : (k - 1).log2 ≤ k.log2 := (Nat.le_log2 (by omega)).mpr
    (le_trans (Nat.log2_self_le (by omega)) (by omega))
  have bound : k.log2 ≤ (k - 1).log2 + 1 := by
    by_contra more
    have : 2 ^ ((k - 1).log2 + 2) ≤ 2 ^ k.log2 := Nat.pow_le_pow_right (by decide) (by omega)
    rw [pow_succ] at this
    omega
  rcases Nat.lt_or_ge (k - 1).log2 k.log2 with grew | same
  · right
    refine ⟨by omega, ?_⟩
    have : 2 ^ ((k - 1).log2 + 1) ≤ 2 ^ k.log2 := Nat.pow_le_pow_right (by decide) (by omega)
    have eq : k.log2 = (k - 1).log2 + 1 := by omega
    rw [eq] at low ⊢
    omega
  · left; omega

theorem bitIndices_add_two_pow {r t : Nat} (small : r < 2 ^ t) : (r + 2 ^ t).bitIndices = r.bitIndices ++ [t] := by
  have below : ∀ a ∈ r.bitIndices, a < t := fun a mem =>
    (Nat.pow_lt_pow_iff_right (by decide)).mp (lt_of_le_of_lt (Nat.two_pow_le_of_mem_bitIndices mem) small)
  have sorted : (r.bitIndices ++ [t]).SortedLT := by
    rw [List.sortedLT_iff_pairwise, List.pairwise_append]
    refine ⟨List.sortedLT_iff_pairwise.mp Nat.bitIndices_sorted, by simp, fun a mem b last => ?_⟩
    rw [List.mem_singleton] at last
    exact last ▸ below a mem
  simpa using Nat.bitIndices_sum_map_two_pow sorted

theorem length_bitIndices_two_pow_sub_one (k : Nat) : (2 ^ k - 1).bitIndices.length = k := by
  induction k with
  | zero => simp
  | succ k ih =>
    have odd : 2 ^ (k + 1) - 1 = 2 * (2 ^ k - 1) + 1 := by
      have := Nat.one_le_two_pow (n := k)
      rw [Nat.pow_succ]
      omega
    rw [odd, Nat.bitIndices_two_mul_add_one]
    simp [ih]

theorem length_bitIndices_le (n : Nat) : n.bitIndices.length ≤ n := by
  have := List.length_le_sum_of_one_le (n.bitIndices.map (2 ^ ·)) (by simp [Nat.one_le_two_pow])
  simpa using this

theorem length_bitIndices_eq_one {n : Nat} : n.bitIndices.length = 1 ↔ ∃ k, n = 2 ^ k := by
  constructor
  · intro one
    obtain ⟨k, single⟩ := List.length_eq_one_iff.mp one
    refine ⟨k, ?_⟩
    have := Nat.sum_map_two_pow_bitIndices n
    rw [single] at this
    simpa using this.symm
  · rintro ⟨k, rfl⟩
    simp

end BinaryArith
