import Mathlib

/- Periods of a fixed length `n`: the multiples of `n` that close them, the greatest multiple at
   or below a number, the least one above it, and a number's place in its period when the
   periods are `1..n`, `n+1..2n`, ... so that the multiple itself comes last. -/
namespace Albatross

namespace Period

variable {n : Nat}

theorem le_div_mul_of_le {x y : Nat} (le : y ≤ x) (multiple : y % n = 0) : y ≤ x / n * n := by
  have exact : y / n * n = y := Nat.div_mul_cancel (Nat.dvd_of_mod_eq_zero multiple)
  calc y = y / n * n := exact.symm
    _ ≤ x / n * n := Nat.mul_le_mul_right n (Nat.div_le_div_right le)

theorem lt_div_succ_mul (pos : 0 < n) (x : Nat) : x < (x / n + 1) * n := by
  rw [Nat.mul_comm]
  exact Nat.lt_mul_div_succ x pos

theorem div_succ_mul_le (pos : 0 < n) {x y : Nat} (lt : x < y) (multiple : y % n = 0) :
    (x / n + 1) * n ≤ y := by
  have exact : y / n * n = y := Nat.div_mul_cancel (Nat.dvd_of_mod_eq_zero multiple)
  have above : x / n < y / n := (Nat.div_lt_iff_lt_mul pos).mpr (by omega)
  calc (x / n + 1) * n ≤ y / n * n := Nat.mul_le_mul_right n above
    _ = y := exact

theorem add_pred_mod_eq_pred_iff (pos : 0 < n) (x : Nat) :
    (x + n - 1) % n = n - 1 ↔ x % n = 0 := by
  have whole := Nat.div_add_mod x n
  have below := Nat.mod_lt x pos
  rw [show x + n - 1 = (x % n + n - 1) + n * (x / n) by omega, Nat.add_mul_mod_self_left]
  constructor
  · intro last
    by_contra off
    -- a nonzero remainder `r` puts `x` at place `r - 1`, before the last one
    rw [show x % n + n - 1 = (x % n - 1) + n by omega, Nat.add_mod_right,
      Nat.mod_eq_of_lt (by omega)] at last
    omega
  · intro multiple
    rw [multiple, Nat.zero_add, Nat.mod_eq_of_lt (by omega)]

/-- The period holding `x ≥ 1` is the `(x + n - 1) / n`-th, which starts after
`((x + n - 1) / n - 1) * n`, and `x` is `(x + n - 1) % n` places past its start. -/
theorem period_start_add_index (pos : 0 < n) {x : Nat} (hx : 0 < x) :
    ((x + n - 1) / n - 1) * n + (x + n - 1) % n + 1 = x := by
  have whole := Nat.div_add_mod (x + n - 1) n
  have first : 1 ≤ (x + n - 1) / n := (Nat.le_div_iff_mul_le pos).mpr (by omega)
  have back : ((x + n - 1) / n - 1) * n + n = n * ((x + n - 1) / n) := by
    calc ((x + n - 1) / n - 1) * n + n = ((x + n - 1) / n - 1 + 1) * n := by
          rw [Nat.add_mul, Nat.one_mul]
      _ = n * ((x + n - 1) / n) := by rw [Nat.sub_add_cancel first, Nat.mul_comm]
  omega

end Period

end Albatross
