import Mathlib

/- Coin amounts (primitives/src/coin.rs): a u64 count of lunas that never exceeds
   MAX_SAFE_VALUE = 2^53 - 1, the bound carried by the structure. Every checked
   operation goes through `Coin::try_from`; the operator forms `+` and `-` panic
   when their checked form fails, a panic being `none`. A sum of two coins is below
   2^54, so the u64 `checked_add` and `checked_mul` by a small factor never wrap
   before `try_from` sees the value. -/
namespace Albatross

def maxSafeValue : Nat := 9007199254740991

theorem maxSafeValue_pos : 0 < maxSafeValue := by decide

structure Coin where
  val : Nat
  le_max : val ≤ maxSafeValue
  deriving DecidableEq

/-- `CoinConvertError(u64)`. -/
structure CoinConvertError where
  val : Nat
  deriving DecidableEq, Repr

/-- `CoinUnderflowError { lhs, rhs }`. -/
structure CoinUnderflowError where
  lhs : Coin
  rhs : Coin
  deriving DecidableEq

namespace Coin

instance : LE Coin := ⟨fun a b => a.val ≤ b.val⟩
instance : LT Coin := ⟨fun a b => a.val < b.val⟩
instance (a b : Coin) : Decidable (a ≤ b) := inferInstanceAs (Decidable (a.val ≤ b.val))
instance (a b : Coin) : Decidable (a < b) := inferInstanceAs (Decidable (a.val < b.val))

def zero : Coin := ⟨0, Nat.zero_le _⟩

def max : Coin := ⟨maxSafeValue, le_refl _⟩

/-- `Coin::try_from(u64)`. -/
def tryFrom (val : Nat) : Except CoinConvertError Coin :=
  if h : val ≤ maxSafeValue then .ok ⟨val, h⟩ else .error ⟨val⟩

def checkedAdd (a b : Coin) : Option Coin := (tryFrom (a.val + b.val)).toOption

def checkedSub (a b : Coin) : Option Coin :=
  if b.val ≤ a.val then (tryFrom (a.val - b.val)).toOption else none

def safeSub (a b : Coin) : Except CoinUnderflowError Coin :=
  match a.checkedSub b with
  | some c => .ok c
  | none => .error ⟨a, b⟩

def saturatingAdd (a b : Coin) : Coin := (a.checkedAdd b).getD max

/-- `checked_mul` by a u64: the product is rejected by `try_from` whenever the u64
    multiplication would overflow. -/
def checkedMul (a : Coin) (rhs : Nat) : Option Coin := (tryFrom (a.val * rhs)).toOption

/-- `impl Div<u64> for Coin`. -/
def div (a : Coin) (rhs : Nat) : Coin := ⟨a.val / rhs, (Nat.div_le_self _ _).trans a.le_max⟩

/-- `impl Rem<u64> for Coin`. -/
def rem (a : Coin) (rhs : Nat) : Coin := ⟨a.val % rhs, (Nat.mod_le _ _).trans a.le_max⟩

/-- `impl Add for Coin`: "Overflow during add()". -/
def add (a b : Coin) : Option Coin := a.checkedAdd b

/-- `impl Sub for Coin`: "Underflow during sub()". -/
def sub (a b : Coin) : Option Coin := a.checkedSub b

@[ext] theorem ext {a b : Coin} (h : a.val = b.val) : a = b := by
  cases a; cases b; cases h; rfl

@[simp] theorem le_def (a b : Coin) : a ≤ b ↔ a.val ≤ b.val := Iff.rfl

@[simp] theorem lt_def (a b : Coin) : a < b ↔ a.val < b.val := Iff.rfl

@[simp] theorem zero_val : zero.val = 0 := rfl

theorem tryFrom_of_le {val : Nat} (h : val ≤ maxSafeValue) : tryFrom val = .ok ⟨val, h⟩ := by
  simp [tryFrom, h]

theorem tryFrom_val (c : Coin) : tryFrom c.val = .ok c := tryFrom_of_le c.le_max

/-- Every coin value is a double: it has at most 53 bits. -/
theorem lt_two_pow (c : Coin) : c.val < 2 ^ 53 := by
  have bound := c.le_max
  unfold maxSafeValue at bound
  omega

theorem checkedSub_eq_some {a b c : Coin} : a.checkedSub b = some c ↔ b.val ≤ a.val ∧ c.val = a.val - b.val := by
  unfold checkedSub
  by_cases le : b.val ≤ a.val
  · have small : a.val - b.val ≤ maxSafeValue := le_trans (Nat.sub_le _ _) a.le_max
    simp only [le, if_true, tryFrom_of_le small, Except.toOption, Option.some.injEq, true_and]
    exact ⟨fun h => by rw [← h], fun h => by ext; exact h.symm⟩
  · simp [le]

theorem checkedSub_eq_none {a b : Coin} : a.checkedSub b = none ↔ a.val < b.val := by
  unfold checkedSub
  by_cases le : b.val ≤ a.val
  · have small : a.val - b.val ≤ maxSafeValue := le_trans (Nat.sub_le _ _) a.le_max
    simp [le, tryFrom_of_le small, Except.toOption]
  · simp only [le, if_false, true_iff]
    omega

theorem safeSub_ok {a b c : Coin} : a.safeSub b = .ok c ↔ b.val ≤ a.val ∧ c.val = a.val - b.val := by
  unfold safeSub
  cases h : a.checkedSub b with
  | none =>
    rw [checkedSub_eq_none] at h
    simp only [reduceCtorEq, false_iff, not_and]
    omega
  | some c' =>
    rw [checkedSub_eq_some] at h
    simp only [Except.ok.injEq]
    constructor
    · rintro rfl
      exact h
    · intro hc
      ext
      omega

theorem safeSub_error {a b : Coin} (lt : a.val < b.val) : a.safeSub b = .error ⟨a, b⟩ := by
  simp [safeSub, checkedSub_eq_none.mpr lt]

theorem lt_of_safeSub_error {a b : Coin} {e : CoinUnderflowError} (h : a.safeSub b = .error e) :
    a.val < b.val := by
  by_contra fits
  have ok : a.safeSub b = .ok ⟨a.val - b.val, (Nat.sub_le _ _).trans a.le_max⟩ :=
    safeSub_ok.mpr ⟨by omega, rfl⟩
  rw [ok] at h
  cases h

theorem checkedMul_eq_some {a c : Coin} {rhs : Nat} : a.checkedMul rhs = some c ↔ c.val = a.val * rhs := by
  unfold checkedMul
  by_cases small : a.val * rhs ≤ maxSafeValue
  · simp only [tryFrom_of_le small, Except.toOption, Option.some.injEq]
    exact ⟨fun h => by rw [← h], fun h => by ext; exact h.symm⟩
  · have := c.le_max
    simp only [tryFrom, small, dif_neg, not_false_eq_true, Except.toOption, reduceCtorEq, false_iff]
    omega

theorem checkedAdd_eq_some {a b c : Coin} : a.checkedAdd b = some c ↔ c.val = a.val + b.val := by
  unfold checkedAdd
  by_cases small : a.val + b.val ≤ maxSafeValue
  · simp only [tryFrom_of_le small, Except.toOption, Option.some.injEq]
    exact ⟨fun h => by rw [← h], fun h => by ext; exact h.symm⟩
  · have := c.le_max
    simp only [tryFrom, small, dif_neg, not_false_eq_true, Except.toOption, reduceCtorEq, false_iff]
    omega

end Coin

end Albatross
