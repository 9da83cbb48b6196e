import Mathlib

/- Aligned blocks of `2 ^ k` naturals: the numbers that agree with each other above bit
   `k - 1`. A block is `q <<< k .. q <<< k + (2 ^ k - 1)`, its members are those `j` with
   `j >>> k = q`, and clearing or setting the low `k` bits of a number gives its block's ends.
   Two numbers lie in sibling blocks at level `k` exactly when the highest bit on which they
   differ is bit `k`. -/
namespace Albatross

namespace BitBlock

/-- `a & !(2 ^ k - 1)`: the first number of `a`'s block. -/
theorem ldiff_low_mask (a k : Nat) : Nat.ldiff a (2 ^ k - 1) = a >>> k <<< k := by
  apply Nat.eq_of_testBit_eq
  intro t
  rw [Nat.testBit_ldiff, Nat.testBit_two_pow_sub_one, Nat.testBit_shiftLeft, Nat.testBit_shiftRight]
  by_cases low : t < k
  · simp [low, show ¬ t ≥ k by omega]
  · simp [low, show t ≥ k by omega, Nat.add_sub_cancel' (Nat.le_of_not_lt low)]

/-- `a | (2 ^ k - 1)`: the last number of `a`'s block. -/
theorem or_low_mask (a k : Nat) : a ||| (2 ^ k - 1) = a >>> k <<< k + (2 ^ k - 1) := by
  rw [Nat.shiftLeft_add_eq_or_of_lt (Nat.sub_lt (Nat.two_pow_pos k) Nat.one_pos)]
  apply Nat.eq_of_testBit_eq
  intro t
  rw [Nat.testBit_or, Nat.testBit_or, Nat.testBit_two_pow_sub_one, Nat.testBit_shiftLeft,
    Nat.testBit_shiftRight]
  by_cases low : t < k
  · simp [low]
  · simp [low, show t ≥ k by omega, Nat.add_sub_cancel' (Nat.le_of_not_lt low)]

theorem shiftRight_eq_iff (j q k : Nat) :
    j >>> k = q ↔ q <<< k ≤ j ∧ j ≤ q <<< k + (2 ^ k - 1) := by
  have block := Nat.two_pow_pos k
  rw [Nat.shiftRight_eq_div_pow, Nat.shiftLeft_eq, Nat.div_eq_iff block]
  omega

theorem xor_two_pow_shiftRight (i k : Nat) : (i ^^^ 2 ^ k) >>> k = i >>> k ^^^ 1 := by
  rw [Nat.shiftRight_xor_distrib, Nat.shiftRight_eq_div_pow (2 ^ k), Nat.div_self (Nat.two_pow_pos k)]

theorem shiftRight_eq_one_iff (x k : Nat) : x >>> k = 1 ↔ x ≠ 0 ∧ x.log2 = k := by
  rw [shiftRight_eq_iff, Nat.one_shiftLeft]
  constructor
  · rintro ⟨above, below⟩
    have nonzero : x ≠ 0 := Nat.pos_iff_ne_zero.mp (lt_of_lt_of_le (Nat.two_pow_pos k) above)
    refine ⟨nonzero, (Nat.log2_eq_iff nonzero).mpr ⟨above, ?_⟩⟩
    rw [Nat.pow_succ]
    omega
  · rintro ⟨nonzero, top⟩
    obtain ⟨above, below⟩ := (Nat.log2_eq_iff nonzero).mp top
    rw [Nat.pow_succ] at below
    omega

/-- `j` lies in the sibling block of `i`'s at level `k` exactly when bit `k` is the highest
bit on which they differ. -/
theorem shiftRight_eq_xor_one_iff (i j k : Nat) :
    j >>> k = i >>> k ^^^ 1 ↔ i ^^^ j ≠ 0 ∧ (i ^^^ j).log2 = k := by
  rw [← shiftRight_eq_one_iff, Nat.shiftRight_xor_distrib]
  constructor
  · intro sibling
    rw [sibling, ← Nat.xor_assoc, Nat.xor_self, Nat.zero_xor]
  · intro one
    rw [← one, ← Nat.xor_assoc, Nat.xor_self, Nat.zero_xor]

end BitBlock

end Albatross
