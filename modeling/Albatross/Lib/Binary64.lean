import Mathlib

/- Round to nearest, ties to even, at a precision of `p` significant bits, on the
   rationals: the rounding of an IEEE 754 binary format for values whose exponent
   stays in the format's normal range (no overflow, no subnormals). A double is the
   rational `n * 2 ^ e` it stands for, with `|n| < 2 ^ 53`, and each binary64
   operation rounds the exact rational result. -/
namespace Albatross

/-- The integer nearest to `y`, the even one of two at the same distance. -/
def roundHalfEven (y : ℚ) : ℤ :=
  if (⌊y + 1 / 2⌋ : ℚ) = y + 1 / 2 ∧ ⌊y + 1 / 2⌋ % 2 = 1 then ⌊y + 1 / 2⌋ - 1 else ⌊y + 1 / 2⌋

theorem roundHalfEven_intCast (n : ℤ) : roundHalfEven n = n := by
  have floor : ⌊(n : ℚ) + 1 / 2⌋ = n := by
    rw [Int.floor_eq_iff]
    constructor <;> linarith
  have notTie : ((n : ℤ) : ℚ) ≠ n + 1 / 2 := by
    intro tie
    linarith
  unfold roundHalfEven
  rw [floor, if_neg fun tie => notTie tie.1]

theorem roundHalfEven_le_floor (y : ℚ) : roundHalfEven y ≤ ⌊y + 1 / 2⌋ := by
  unfold roundHalfEven
  split <;> omega

theorem floor_le_roundHalfEven_succ (y : ℚ) : ⌊y + 1 / 2⌋ ≤ roundHalfEven y + 1 := by
  unfold roundHalfEven
  split <;> omega

theorem roundHalfEven_mono {y y' : ℚ} (le : y ≤ y') : roundHalfEven y ≤ roundHalfEven y' := by
  have floors : ⌊y + 1 / 2⌋ ≤ ⌊y' + 1 / 2⌋ := Int.floor_mono (by linarith)
  have left := roundHalfEven_le_floor y
  rcases floors.lt_or_eq with lt | same
  · -- a lower floor: the tie adjustment lowers either side by one at most
    have := floor_le_roundHalfEven_succ y'
    omega
  · -- the same floor: only a tie at `y'` lowers the right side, and then `y` is that tie too
    by_cases tie : (⌊y' + 1 / 2⌋ : ℚ) = y' + 1 / 2 ∧ ⌊y' + 1 / 2⌋ % 2 = 1
    · have atY : (⌊y + 1 / 2⌋ : ℚ) = y + 1 / 2 := by
        have below := Int.floor_le (y + 1 / 2)
        rw [same] at below ⊢
        linarith [tie.1]
      have lowered : roundHalfEven y = ⌊y + 1 / 2⌋ - 1 := by
        unfold roundHalfEven
        rw [if_pos ⟨atY, same ▸ tie.2⟩]
      have lowered' : roundHalfEven y' = ⌊y' + 1 / 2⌋ - 1 := by
        unfold roundHalfEven
        rw [if_pos tie]
      omega
    · have kept : roundHalfEven y' = ⌊y' + 1 / 2⌋ := by
        unfold roundHalfEven
        rw [if_neg tie]
      omega

theorem roundHalfEven_le_of_le {y : ℚ} {n : ℤ} (le : y ≤ n) : roundHalfEven y ≤ n :=
  (roundHalfEven_mono le).trans_eq (roundHalfEven_intCast n)

theorem le_roundHalfEven_of_le {y : ℚ} {n : ℤ} (le : (n : ℚ) ≤ y) : n ≤ roundHalfEven y :=
  (roundHalfEven_intCast n).symm.trans_le (roundHalfEven_mono le)

/-- The exponent of the unit in the last place of `x` at precision `p`. -/
def ulpExp (p : ℕ) (x : ℚ) : ℤ := Int.log 2 |x| - (p - 1 : ℕ)

/-- `x` rounded to the nearest rational with `p` significant bits, ties to even. -/
def roundTo (p : ℕ) (x : ℚ) : ℚ := roundHalfEven (x / 2 ^ ulpExp p x) * 2 ^ ulpExp p x

section RoundTo

variable {p : ℕ}

theorem roundTo_zero (p : ℕ) : roundTo p 0 = 0 := by
  have zero : roundHalfEven 0 = 0 := by exact_mod_cast roundHalfEven_intCast 0
  simp [roundTo, zero]

theorem roundTo_nonneg {x : ℚ} (nonneg : 0 ≤ x) : 0 ≤ roundTo p x := by
  have scaled : (0 : ℤ) ≤ roundHalfEven (x / 2 ^ ulpExp p x) :=
    le_roundHalfEven_of_le (by push_cast; positivity)
  unfold roundTo
  have : (0 : ℚ) ≤ roundHalfEven (x / 2 ^ ulpExp p x) := by exact_mod_cast scaled
  positivity

theorem roundTo_nonpos {x : ℚ} (nonpos : x ≤ 0) : roundTo p x ≤ 0 := by
  have power : (0 : ℚ) < 2 ^ ulpExp p x := by positivity
  have scaled : roundHalfEven (x / 2 ^ ulpExp p x) ≤ (0 : ℤ) :=
    roundHalfEven_le_of_le (by push_cast; exact div_nonpos_of_nonpos_of_nonneg nonpos power.le)
  unfold roundTo
  have : (roundHalfEven (x / 2 ^ ulpExp p x) : ℚ) ≤ 0 := by exact_mod_cast scaled
  exact mul_nonpos_of_nonpos_of_nonneg this power.le

theorem roundTo_exact (n e : ℤ) (small : n.natAbs < 2 ^ p) : roundTo p (n * 2 ^ e) = n * 2 ^ e := by
  rcases eq_or_ne n 0 with rfl | nonzero
  · simp [roundTo_zero]
  -- the last place of `n * 2 ^ e` is at most `2 ^ e`, so the scaled value is an integer
  have magnitude : |(n : ℚ) * 2 ^ e| = (n.natAbs : ℚ) * 2 ^ e := by
    rw [abs_mul, abs_of_pos (by positivity : (0 : ℚ) < 2 ^ e), Nat.cast_natAbs, Int.cast_abs]
  have positive : (0 : ℚ) < |(n : ℚ) * 2 ^ e| := by
    rw [magnitude]
    have : (0 : ℚ) < n.natAbs := by exact_mod_cast Int.natAbs_pos.mpr nonzero
    positivity
  have below : |(n : ℚ) * 2 ^ e| < (2 : ℚ) ^ ((p : ℤ) + e) := by
    rw [magnitude, zpow_add₀ two_ne_zero, zpow_natCast]
    have : (n.natAbs : ℚ) < 2 ^ p := by exact_mod_cast small
    exact mul_lt_mul_of_pos_right this (by positivity)
  have logBelow : Int.log 2 |(n : ℚ) * 2 ^ e| < p + e := by
    have lower := Int.zpow_log_le_self (b := 2) one_lt_two positive
    push_cast at lower
    exact (zpow_lt_zpow_iff_right₀ one_lt_two).mp (lower.trans_lt below)
  have onePos : 1 ≤ p := by
    rcases p with _ | p
    · simp at small
      exact absurd small nonzero
    · omega
  set u := ulpExp p ((n : ℚ) * 2 ^ e) with ulp
  have shift : 0 ≤ e - u := by
    simp only [ulp, ulpExp]
    omega
  have scaled : (n : ℚ) * 2 ^ e / 2 ^ u = ((n * 2 ^ (e - u).toNat : ℤ) : ℚ) := by
    push_cast
    rw [← zpow_natCast, Int.toNat_of_nonneg shift, mul_div_assoc, ← zpow_sub₀ two_ne_zero]
  unfold roundTo
  rw [← ulp, scaled, roundHalfEven_intCast]
  push_cast
  rw [← zpow_natCast, Int.toNat_of_nonneg shift, mul_assoc, ← zpow_add₀ two_ne_zero, sub_add_cancel]

theorem roundTo_between {x : ℚ} (one : 1 ≤ p) (positive : 0 < x) :
    (2 : ℚ) ^ Int.log 2 x ≤ roundTo p x ∧ roundTo p x ≤ (2 : ℚ) ^ (Int.log 2 x + 1) := by
  have lower := Int.zpow_log_le_self (b := 2) one_lt_two positive
  have upper := Int.lt_zpow_succ_log_self (b := 2) one_lt_two x
  push_cast at lower upper
  have exp : ulpExp p x = Int.log 2 x - (p - 1 : ℕ) := by
    rw [ulpExp, abs_of_pos positive]
  have power : (0 : ℚ) < 2 ^ ulpExp p x := by positivity
  -- the significand lies between `2 ^ (p - 1)` and `2 ^ p`, both integers
  have low : ((2 ^ (p - 1) : ℕ) : ℤ) ≤ roundHalfEven (x / 2 ^ ulpExp p x) := by
    apply le_roundHalfEven_of_le
    rw [le_div_iff₀ power]
    push_cast
    rw [← zpow_natCast, ← zpow_add₀ two_ne_zero, exp]
    simpa using lower
  have high : roundHalfEven (x / 2 ^ ulpExp p x) ≤ ((2 ^ p : ℕ) : ℤ) := by
    apply roundHalfEven_le_of_le
    rw [div_le_iff₀ power]
    push_cast
    rw [← zpow_natCast, ← zpow_add₀ two_ne_zero, exp]
    have : (p : ℤ) + (Int.log 2 x - (p - 1 : ℕ)) = Int.log 2 x + 1 := by omega
    rw [this]
    exact upper.le
  have low' : ((2 ^ (p - 1) : ℕ) : ℚ) ≤ roundHalfEven (x / 2 ^ ulpExp p x) := by exact_mod_cast low
  have high' : (roundHalfEven (x / 2 ^ ulpExp p x) : ℚ) ≤ ((2 ^ p : ℕ) : ℚ) := by exact_mod_cast high
  unfold roundTo
  constructor
  · calc (2 : ℚ) ^ Int.log 2 x = ((2 ^ (p - 1) : ℕ) : ℚ) * 2 ^ ulpExp p x := by
          push_cast
          rw [← zpow_natCast, ← zpow_add₀ two_ne_zero, exp]
          congr 1
          omega
      _ ≤ _ := mul_le_mul_of_nonneg_right low' power.le
  · calc _ ≤ ((2 ^ p : ℕ) : ℚ) * 2 ^ ulpExp p x := mul_le_mul_of_nonneg_right high' power.le
      _ = (2 : ℚ) ^ (Int.log 2 x + 1) := by
          push_cast
          rw [← zpow_natCast, ← zpow_add₀ two_ne_zero, exp]
          congr 1
          omega

theorem roundTo_mono (one : 1 ≤ p) {x y : ℚ} (nonneg : 0 ≤ x) (le : x ≤ y) : roundTo p x ≤ roundTo p y := by
  rcases nonneg.eq_or_lt with rfl | positive
  · rw [roundTo_zero]
    exact roundTo_nonneg le
  have logs : Int.log 2 x ≤ Int.log 2 y := Int.log_mono_right positive le
  rcases logs.lt_or_eq with lt | same
  · -- a lower binade rounds at most to its upper power of two, where the higher one starts
    calc roundTo p x ≤ (2 : ℚ) ^ (Int.log 2 x + 1) := (roundTo_between one positive).2
      _ ≤ (2 : ℚ) ^ Int.log 2 y := zpow_le_zpow_right₀ one_le_two (by omega)
      _ ≤ roundTo p y := (roundTo_between one (positive.trans_le le)).1
  · have exp : ulpExp p x = ulpExp p y := by
      rw [ulpExp, ulpExp, abs_of_pos positive, abs_of_pos (positive.trans_le le), same]
    have power : (0 : ℚ) < 2 ^ ulpExp p y := by positivity
    unfold roundTo
    rw [exp]
    have scaled := roundHalfEven_mono (div_le_div_of_nonneg_right le power.le)
    exact mul_le_mul_of_nonneg_right (by exact_mod_cast scaled) power.le

end RoundTo

namespace Binary64

/-- Rounding to binary64: 53 significant bits. -/
def round (x : ℚ) : ℚ := roundTo 53 x

/-- `n as f64`. -/
def ofNat (n : ℕ) : ℚ := round n

def sub (a b : ℚ) : ℚ := round (a - b)

def mul (a b : ℚ) : ℚ := round (a * b)

def div (a b : ℚ) : ℚ := round (a / b)

theorem round_mono {x y : ℚ} (nonneg : 0 ≤ x) (le : x ≤ y) : round x ≤ round y :=
  roundTo_mono (by norm_num) nonneg le

theorem round_nonneg {x : ℚ} (nonneg : 0 ≤ x) : 0 ≤ round x := roundTo_nonneg nonneg

theorem round_nonpos {x : ℚ} (nonpos : x ≤ 0) : round x ≤ 0 := roundTo_nonpos nonpos

theorem round_exact (n e : ℤ) (small : n.natAbs < 2 ^ 53) : round (n * 2 ^ e) = n * 2 ^ e :=
  roundTo_exact n e small

theorem round_natCast {n : ℕ} (small : n < 2 ^ 53) : round n = n := by
  have exact := round_exact n 0 (by simpa using small)
  simp only [Int.cast_natCast, zpow_zero, mul_one] at exact
  exact exact

@[simp] theorem round_ofNat (n : ℕ) [n.AtLeastTwo] (small : n < 2 ^ 53) :
    round (OfNat.ofNat n : ℚ) = OfNat.ofNat n :=
  round_natCast small

@[simp] theorem round_zero : round 0 = 0 := roundTo_zero 53

@[simp] theorem round_one : round 1 = 1 := by
  have exact := round_natCast (n := 1) (by norm_num)
  rwa [Nat.cast_one] at exact

theorem ofNat_eq {n : ℕ} (small : n < 2 ^ 53) : ofNat n = n := round_natCast small

end Binary64

end Albatross
