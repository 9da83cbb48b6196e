import Mathlib

/- Bytes as pairs of nibbles, the high half first: the nibble at an index of a byte string,
   the string unpacked into its nibbles, and the lexicographic order of byte strings as the
   order of their nibbles. A string of nibbles padded with zeros to a common length, then
   ordered by its length, is ordered as the string itself. -/
namespace Albatross

namespace Nibbles

def high (b : UInt8) : Fin 16 := Fin.ofNat 16 (b.toNat / 16)

def low (b : UInt8) : Fin 16 := Fin.ofNat 16 b.toNat

@[simp] theorem high_val (b : UInt8) : (high b).val = b.toNat / 16 := by
  have := b.toNat_lt
  simp only [high, Fin.val_ofNat]
  omega

@[simp] theorem low_val (b : UInt8) : (low b).val = b.toNat % 16 := by
  simp [low]

theorem toNat_eq_high_low (b : UInt8) : b.toNat = 16 * (high b).val + (low b).val := by
  simp only [high_val, low_val]
  omega

theorem eq_iff_high_low (a b : UInt8) : a = b ↔ high a = high b ∧ low a = low b := by
  constructor
  · rintro rfl
    exact ⟨rfl, rfl⟩
  · rintro ⟨same_high, same_low⟩
    apply UInt8.toNat_inj.mp
    rw [toNat_eq_high_low a, toNat_eq_high_low b, same_high, same_low]

theorem compare_high_low (a b : UInt8) :
    compare a b = (compare (high a) (high b)).then (compare (low a) (low b)) := by
  rw [UInt8.compare_eq_toNat_compare_toNat, Fin.compare_eq_compare_val, Fin.compare_eq_compare_val,
    toNat_eq_high_low a, toNat_eq_high_low b]
  have la := (low a).isLt
  have lb := (low b).isLt
  rcases lt_trichotomy (high a).val (high b).val with lt | same | gt
  · rw [Nat.compare_eq_lt.mpr lt, Nat.compare_eq_lt.mpr (by omega)]
    rfl
  · rw [same, Nat.compare_eq_eq.mpr rfl, Ordering.eq_then]
    rcases lt_trichotomy (low a).val (low b).val with lt' | same' | gt'
    · rw [Nat.compare_eq_lt.mpr lt', Nat.compare_eq_lt.mpr (by omega)]
    · rw [same', Nat.compare_eq_eq.mpr rfl, Nat.compare_eq_eq.mpr rfl]
    · rw [Nat.compare_eq_gt.mpr gt', Nat.compare_eq_gt.mpr (by omega)]
  · rw [Nat.compare_eq_gt.mpr gt, Nat.compare_eq_gt.mpr (by omega)]
    rfl

/-- The nibble at `index` of a byte string: the high half of byte `index / 2` for an even
index, the low half for an odd one, and zero past the string. -/
def nibble (bytes : List UInt8) (index : Nat) : Fin 16 :=
  let byte := bytes.getD (index / 2) 0
  if index % 2 = 0 then high byte else low byte

@[simp] theorem nibble_cons_zero (b : UInt8) (bytes : List UInt8) : nibble (b :: bytes) 0 = high b := rfl

@[simp] theorem nibble_cons_one (b : UInt8) (bytes : List UInt8) : nibble (b :: bytes) 1 = low b := rfl

@[simp] theorem nibble_cons_add_two (b : UInt8) (bytes : List UInt8) (i : Nat) :
    nibble (b :: bytes) (i + 2) = nibble bytes i := by
  have half : (i + 2) / 2 = i / 2 + 1 := by omega
  have parity : (i + 2) % 2 = i % 2 := by omega
  simp [nibble, half, parity]

theorem nibble_two_mul (bytes : List UInt8) (e : Nat) : nibble bytes (2 * e) = high (bytes.getD e 0) := by
  simp [nibble]

theorem nibble_two_mul_add_one (bytes : List UInt8) (e : Nat) :
    nibble bytes (2 * e + 1) = low (bytes.getD e 0) := by
  have half : (2 * e + 1) / 2 = e := by omega
  simp [nibble, half]

/-- The nibbles of a byte string. -/
def unpack (bytes : List UInt8) : List (Fin 16) := bytes.flatMap fun b => [high b, low b]

@[simp] theorem unpack_nil : unpack [] = [] := rfl

@[simp] theorem unpack_cons (b : UInt8) (bytes : List UInt8) :
    unpack (b :: bytes) = high b :: low b :: unpack bytes := rfl

@[simp] theorem length_unpack (bytes : List UInt8) : (unpack bytes).length = 2 * bytes.length := by
  induction bytes with
  | nil => rfl
  | cons b bytes ih =>
    simp only [unpack_cons, List.length_cons, ih]
    omega

theorem unpack_append (a b : List UInt8) : unpack (a ++ b) = unpack a ++ unpack b :=
  List.flatMap_append

@[simp] theorem unpack_replicate_zero (m : Nat) : unpack (List.replicate m 0) = List.replicate (2 * m) 0 := by
  induction m with
  | zero => rfl
  | succ m ih =>
    rw [List.replicate_succ, unpack_cons, ih, show 2 * (m + 1) = 2 * m + 1 + 1 by omega,
      List.replicate_succ, List.replicate_succ]
    rfl

theorem getElem_unpack (bytes : List UInt8) (i : Nat) (h : i < (unpack bytes).length) :
    (unpack bytes)[i] = nibble bytes i := by
  induction bytes generalizing i with
  | nil => simp at h
  | cons b bytes ih =>
    -- the first byte gives the nibbles 0 and 1; the rest is the tail's, two places on
    match i, h with
    | 0, _ => rfl
    | 1, _ => rfl
    | i + 2, h =>
      simp only [unpack_cons, List.getElem_cons_succ, nibble_cons_add_two]
      exact ih i _

theorem getElem?_unpack (bytes : List UInt8) {i : Nat} (h : i < 2 * bytes.length) :
    (unpack bytes)[i]? = some (nibble bytes i) := by
  rw [List.getElem?_eq_getElem (by simpa using h), getElem_unpack]

theorem unpack_take (bytes : List UInt8) (m : Nat) :
    unpack (bytes.take m) = (unpack bytes).take (2 * m) := by
  induction bytes generalizing m with
  | nil => simp
  | cons b bytes ih =>
    cases m with
    | zero => simp
    | succ m =>
      have twice : 2 * (m + 1) = 2 * m + 1 + 1 := by omega
      simp [ih, twice]

theorem unpack_drop (bytes : List UInt8) (m : Nat) :
    unpack (bytes.drop m) = (unpack bytes).drop (2 * m) := by
  induction bytes generalizing m with
  | nil => simp
  | cons b bytes ih =>
    cases m with
    | zero => simp
    | succ m =>
      have twice : 2 * (m + 1) = 2 * m + 1 + 1 := by omega
      simp [ih, twice]

theorem unpack_set (bytes : List UInt8) (n : Nat) (byte : UInt8) :
    unpack (bytes.set n byte) = ((unpack bytes).set (2 * n) (high byte)).set (2 * n + 1) (low byte) := by
  induction bytes generalizing n with
  | nil => simp
  | cons b bytes ih =>
    cases n with
    | zero => simp
    | succ n =>
      have twice : 2 * (n + 1) = 2 * n + 1 + 1 := by omega
      simp [ih, twice]

theorem unpack_set_low (bytes : List UInt8) {n : Nat} (inside : n < bytes.length) (byte : UInt8)
    (same : high byte = high (bytes.getD n 0)) :
    unpack (bytes.set n byte) = (unpack bytes).set (2 * n + 1) (low byte) := by
  induction bytes generalizing n with
  | nil => simp at inside
  | cons b bytes ih =>
    cases n with
    | zero =>
      simp only [List.getD_cons_zero] at same
      simp [same]
    | succ n =>
      have twice : 2 * (n + 1) + 1 = 2 * n + 1 + 1 + 1 := by omega
      simp only [List.getD_cons_succ] at same
      simp [ih (by simpa using inside) same, twice]

theorem unpack_injective : Function.Injective unpack := by
  intro a b same
  induction a generalizing b with
  | nil =>
    cases b with
    | nil => rfl
    | cons _ _ => simp at same
  | cons x a ih =>
    cases b with
    | nil => simp at same
    | cons y b =>
      simp only [unpack_cons, List.cons.injEq] at same
      obtain ⟨same_high, same_low, rest⟩ := same
      rw [(eq_iff_high_low x y).mpr ⟨same_high, same_low⟩, ih rest]

theorem take_eq_take_iff (a b : List UInt8) {m : Nat} (ha : m ≤ a.length) (hb : m ≤ b.length) :
    a.take m = b.take m ↔ ∀ i < 2 * m, nibble a i = nibble b i := by
  rw [← unpack_injective.eq_iff, unpack_take, unpack_take]
  have la : (unpack a).length ≥ 2 * m := by simp; omega
  have lb : (unpack b).length ≥ 2 * m := by simp; omega
  rw [List.ext_get_iff]
  simp only [List.length_take, List.get_eq_getElem, List.getElem_take, getElem_unpack]
  constructor
  · rintro ⟨-, agree⟩ i below
    exact agree i (by omega) (by omega)
  · intro agree
    exact ⟨by omega, fun i within _ => agree i (by omega)⟩

/-- Byte strings are ordered as their nibble strings. -/
theorem compare_unpack (a b : List UInt8) : compare (unpack a) (unpack b) = compare a b := by
  induction a generalizing b with
  | nil =>
    cases b with
    | nil => rfl
    | cons _ _ => rfl
  | cons x a ih =>
    cases b with
    | nil => rfl
    | cons y b =>
      simp only [unpack_cons, List.compare_cons_cons, ih, compare_high_low, Ordering.then_assoc]

/-- Zeros come at or before any string at least as long. -/
theorem compare_zeros_ne_gt (m : Nat) (b : List (Fin 16)) (long : m ≤ b.length) :
    compare (List.replicate m 0) b ≠ .gt := by
  induction m generalizing b with
  | zero =>
    cases b with
    | nil => simp
    | cons _ _ => simp [List.compare_nil_cons]
  | succ m ih =>
    obtain ⟨y, b, rfl⟩ : ∃ y b', b = y :: b' := List.exists_cons_of_length_pos (by omega)
    have first : compare (0 : Fin 16) y ≠ .gt := by
      rw [Ne, compare_gt_iff_gt, not_lt]
      exact Fin.zero_le y
    have rest := ih b (by simpa using long)
    rw [List.replicate_succ, List.compare_cons_cons]
    cases h : compare (0 : Fin 16) y <;> simp_all [Ordering.then]

theorem compare_append_zero (k : List (Fin 16)) : compare k (k ++ [0]) = .lt := by
  induction k with
  | nil => rfl
  | cons x k ih => simp [List.compare_cons_cons, ih]

/-- Nothing lies strictly between a string and the string with a zero appended: whatever
is above the string is at or above the extended one. -/
theorem compare_append_zero_ne_gt {k l : List (Fin 16)} (above : compare k l = .lt) :
    compare (k ++ [0]) l ≠ .gt := by
  induction k generalizing l with
  | nil =>
    cases l with
    | nil => simp at above
    | cons y l =>
      have first : compare (0 : Fin 16) y ≠ .gt := by
        rw [Ne, compare_gt_iff_gt, not_lt]
        exact Fin.zero_le y
      have rest : compare ([] : List (Fin 16)) l ≠ .gt := by
        cases l <;> simp [List.compare_nil_cons]
      rw [List.nil_append, List.compare_cons_cons]
      cases h : compare (0 : Fin 16) y <;> simp_all [Ordering.then]
  | cons x k ih =>
    cases l with
    | nil => simp [List.compare_cons_nil] at above
    | cons y l =>
      rw [List.compare_cons_cons] at above
      rw [List.cons_append, List.compare_cons_cons]
      cases h : compare x y with
      | lt => simp
      | eq =>
        rw [h, Ordering.eq_then] at above
        simpa using ih above
      | gt => simp [h, Ordering.then] at above

theorem compare_succ_succ (a b : Nat) : compare (a + 1) (b + 1) = compare a b := by
  rcases lt_trichotomy a b with lt | rfl | gt
  · rw [Nat.compare_eq_lt.mpr lt, Nat.compare_eq_lt.mpr (by omega)]
  · simp
  · rw [Nat.compare_eq_gt.mpr gt, Nat.compare_eq_gt.mpr (by omega)]

/-- A nibble string padded with zeros to a common length, then ordered by its length, is
ordered as the string itself: where the padding meets the other string's nibbles it never
wins, and a tie leaves the shorter string the smaller. -/
theorem compare_pad_then_length (a b : List (Fin 16)) {m m' : Nat}
    (fill : a.length + m = b.length + m') :
    (compare (a ++ List.replicate m 0) (b ++ List.replicate m' 0)).then
      (compare a.length b.length) = compare a b := by
  induction a generalizing b with
  | nil =>
    cases b with
    | nil =>
      have : m = m' := by simpa using fill
      subst this
      simp
    | cons y b =>
      have padding := compare_zeros_ne_gt m ((y :: b) ++ List.replicate m' 0) (by simp at fill ⊢; omega)
      have shorter : compare 0 (y :: b).length = .lt := Nat.compare_eq_lt.mpr (by simp)
      rw [List.nil_append, List.length_nil, shorter, List.compare_nil_cons]
      cases h : compare (List.replicate m 0) ((y :: b) ++ List.replicate m' 0) <;>
        simp_all [Ordering.then]
  | cons x a ih =>
    cases b with
    | nil =>
      -- the mirror of the case above, through the swap of the comparison
      have padding := compare_zeros_ne_gt m' ((x :: a) ++ List.replicate m 0) (by simp at fill ⊢; omega)
      have longer : compare (x :: a).length 0 = .gt := Nat.compare_eq_gt.mpr (by simp)
      have swapped : compare ((x :: a) ++ List.replicate m 0) (List.replicate m' 0) =
          (compare (List.replicate m' 0) ((x :: a) ++ List.replicate m 0)).swap :=
        Std.OrientedCmp.eq_swap
      rw [List.nil_append, List.length_nil, longer, List.compare_cons_nil, swapped]
      cases h : compare (List.replicate m' 0) ((x :: a) ++ List.replicate m 0) <;>
        simp_all [Ordering.then]
    | cons y b =>
      have fill' : a.length + m = b.length + m' := by simp at fill; omega
      simp only [List.cons_append, List.compare_cons_cons, List.length_cons, Ordering.then_assoc,
        compare_succ_succ, ih b fill']

theorem and_high_mask (x : Nat) (small : x < 256) : x &&& 240 = x / 16 * 16 := by
  have shifted : x / 16 * 16 = x >>> 4 <<< 4 := by
    rw [Nat.shiftRight_eq_div_pow, Nat.shiftLeft_eq]
  rw [shifted]
  apply Nat.eq_of_testBit_eq
  intro i
  rw [Nat.testBit_and, Nat.testBit_shiftLeft, Nat.testBit_shiftRight]
  by_cases low : i < 8
  · -- below bit 8 the mask keeps exactly the bits from 4 on
    have mask : ∀ j < 8, Nat.testBit 240 j = decide (4 ≤ j) := by decide
    rw [mask i low]
    by_cases upper : 4 ≤ i
    · simp [upper, show 4 + (i - 4) = i by omega]
    · simp [upper]
  · have above : x.testBit i = false := Nat.testBit_lt_two_pow (lt_of_lt_of_le small (by
      calc 256 = 2 ^ 8 := rfl
        _ ≤ 2 ^ i := Nat.pow_le_pow_right (by decide) (by omega)))
    have above' : x.testBit (4 + (i - 4)) = false := by rw [show 4 + (i - 4) = i by omega]; exact above
    simp [above, above']

theorem or_low (a c : Nat) (small : c < 16) : a * 16 ||| c = a * 16 + c := by
  have := Nat.shiftLeft_add_eq_or_of_lt (a := a) (i := 4) (b := c) small
  rw [Nat.shiftLeft_eq] at this
  exact this.symm

@[simp] theorem toNat_shiftRight_four (x : UInt8) : (x >>> 4).toNat = (high x).val := by
  simp [UInt8.toNat_shiftRight, Nat.shiftRight_eq_div_pow]

@[simp] theorem toNat_shiftRight_four_and (x : UInt8) : ((x >>> 4) &&& 0xf).toNat = (high x).val := by
  have := x.toNat_lt
  have fifteen : (x.toNat / 16) &&& 15 = x.toNat / 16 % 16 := Nat.and_two_pow_sub_one_eq_mod _ 4
  simp [UInt8.toNat_and, UInt8.toNat_shiftRight, Nat.shiftRight_eq_div_pow, fifteen]
  omega

@[simp] theorem toNat_and_fifteen (x : UInt8) : (x &&& 0xf).toNat = (low x).val := by
  have fifteen : x.toNat &&& 15 = x.toNat % 16 := Nat.and_two_pow_sub_one_eq_mod _ 4
  simp [UInt8.toNat_and, fifteen]

theorem nibble_of_length_le (bytes : List UInt8) {i : Nat} (past : 2 * bytes.length ≤ i) :
    nibble bytes i = 0 := by
  have outside : bytes.getD (i / 2) 0 = 0 := List.getD_eq_default _ _ (by omega)
  simp only [nibble, outside]
  split <;> rfl

@[simp] theorem high_low_shiftLeft (x : UInt8) : high ((x &&& 0xf) <<< 4) = low x := by
  apply Fin.ext
  have fifteen : x.toNat &&& 15 = x.toNat % 16 := Nat.and_two_pow_sub_one_eq_mod _ 4
  simp [UInt8.toNat_and, UInt8.toNat_shiftLeft, Nat.shiftLeft_eq, fifteen]
  omega

@[simp] theorem low_low_shiftLeft (x : UInt8) : low ((x &&& 0xf) <<< 4) = 0 := by
  apply Fin.ext
  have fifteen : x.toNat &&& 15 = x.toNat % 16 := Nat.and_two_pow_sub_one_eq_mod _ 4
  simp [UInt8.toNat_and, UInt8.toNat_shiftLeft, Nat.shiftLeft_eq, fifteen]

theorem shiftLeft_shiftRight_of_low_zero {b : UInt8} (zero : low b = 0) : ((b >>> 4) &&& 0xf) <<< 4 = b := by
  rw [eq_iff_high_low, high_low_shiftLeft, low_low_shiftLeft, zero]
  refine ⟨Fin.ext ?_, rfl⟩
  have := b.toNat_lt
  rw [low_val, toNat_shiftRight_four, high_val]
  omega

@[simp] theorem high_and_high_mask (x : UInt8) : high (x &&& 0xf0) = high x := by
  apply Fin.ext
  simp [UInt8.toNat_and, and_high_mask x.toNat x.toNat_lt]

@[simp] theorem low_and_high_mask (x : UInt8) : low (x &&& 0xf0) = 0 := by
  apply Fin.ext
  simp [UInt8.toNat_and, and_high_mask x.toNat x.toNat_lt]

@[simp] theorem toNat_and_high_mask_shiftRight (x : UInt8) : ((x &&& 0xf0) >>> 4).toNat = (high x).val := by
  have masked : (x &&& 0xf0).toNat = x.toNat / 16 * 16 := by
    rw [UInt8.toNat_and]
    exact and_high_mask x.toNat x.toNat_lt
  rw [UInt8.toNat_shiftRight, masked, high_val]
  simp [Nat.shiftRight_eq_div_pow]

theorem high_or_of_low_zero (u v : UInt8) (hu : low u = 0) (hv : v.toNat < 16) :
    high (u ||| v) = high u := by
  have split : u.toNat = (high u).val * 16 := by
    rw [toNat_eq_high_low u, hu, Fin.val_zero, Nat.add_zero, Nat.mul_comm]
  apply Fin.ext
  rw [high_val, UInt8.toNat_or, split, or_low _ _ hv]
  omega

theorem low_or_of_low_zero (u v : UInt8) (hu : low u = 0) (hv : v.toNat < 16) :
    (low (u ||| v)).val = v.toNat := by
  have split : u.toNat = (high u).val * 16 := by
    rw [toNat_eq_high_low u, hu, Fin.val_zero, Nat.add_zero, Nat.mul_comm]
  rw [low_val, UInt8.toNat_or, split, or_low _ _ hv]
  omega

end Nibbles

end Albatross
