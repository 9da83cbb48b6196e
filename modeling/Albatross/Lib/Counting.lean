import Mathlib

/- Counting over lists and boxes of naturals: a list written at one place, a sum over
   the indices of a list, sums against a bound, sums that change at two places only, the
   draws of one column of a two-way choice, and the draw vectors whose one coordinate
   lies in a given set. -/
namespace Counting

open Finset

section Lists

variable {α : Type} {l : List α} {d v : α}

theorem getD_set_self {j : Nat} (inside : j < l.length) : (l.set j v).getD j d = v := by
  simp [List.getD_eq_getElem?_getD, inside]

theorem getD_set_ne {j x : Nat} (other : x ≠ j) : (l.set j v).getD x d = l.getD x d := by
  simp [List.getD_eq_getElem?_getD, Ne.symm other]

theorem sum_range_getD (l : List Nat) : ∑ x ∈ range l.length, l.getD x 0 = l.sum := by
  induction l with
  | nil => simp
  | cons a l ih =>
    rw [List.length_cons, sum_range_succ', List.sum_cons]
    simp only [List.getD_cons_succ, List.getD_cons_zero, ih]
    omega

variable {β : Type} {f : β → Nat} {T : Nat}

theorem length_mul_lt_sum {l : List β} (nonempty : l ≠ []) (above : ∀ x ∈ l, T < f x) :
    l.length * T < (l.map f).sum := by
  induction l with
  | nil => contradiction
  | cons x l ih =>
    have first := above x (by simp)
    simp only [List.length_cons, List.map_cons, List.sum_cons, Nat.add_mul, Nat.one_mul]
    rcases l with _ | ⟨y, l⟩
    · simpa using first
    · have rest := ih (by simp) fun z mem => above z (by simp [mem])
      omega

theorem sum_lt_length_mul {l : List β} (nonempty : l ≠ []) (below : ∀ x ∈ l, f x < T) :
    (l.map f).sum < l.length * T := by
  induction l with
  | nil => contradiction
  | cons x l ih =>
    have first := below x (by simp)
    simp only [List.length_cons, List.map_cons, List.sum_cons, Nat.add_mul, Nat.one_mul]
    rcases l with _ | ⟨y, l⟩
    · simpa using first
    · have rest := ih (by simp) fun z mem => below z (by simp [mem])
      omega

end Lists

section Sums

variable {ι : Type} [DecidableEq ι] {s : Finset ι} {f g : ι → Nat} {a b : ι}

/-- Two sums that differ at `a` and `b` only, where the two places together agree. -/
theorem sum_congr_off_pair (ha : a ∈ s) (hb : b ∈ s) (apart : a ≠ b)
    (rest : ∀ x ∈ s, x ≠ a → x ≠ b → f x = g x) (pair : f a + f b = g a + g b) :
    ∑ x ∈ s, f x = ∑ x ∈ s, g x := by
  have hb' : b ∈ s.erase a := mem_erase.mpr ⟨Ne.symm apart, hb⟩
  rw [← add_sum_erase s f ha, ← add_sum_erase s g ha, ← add_sum_erase _ f hb', ← add_sum_erase _ g hb']
  have others : ∑ x ∈ (s.erase a).erase b, f x = ∑ x ∈ (s.erase a).erase b, g x := by
    refine sum_congr rfl fun x mem => ?_
    obtain ⟨notB, notA, inS⟩ : x ≠ b ∧ x ≠ a ∧ x ∈ s := by simpa using mem
    exact rest x inS notA notB
  rw [others]
  omega

/-- Distinct indices below `n`, with every other index below `n` at `T` and the total at
    `n * T`, hold `T` apiece on average: their sum is their number times `T`. -/
theorem sum_map_eq_length_mul {S : List Nat} {n T : Nat} {f : Nat → Nat} (nodup : S.Nodup)
    (inside : ∀ x ∈ S, x < n) (full : ∀ x < n, x ∉ S → f x = T) (total : ∑ x ∈ range n, f x = n * T) :
    (S.map f).sum = S.length * T := by
  have sub : S.toFinset ⊆ range n := fun x mem => mem_range.mpr (inside x (List.mem_toFinset.mp mem))
  have le : S.length ≤ n := by
    simpa using (nodup.subperm fun x mem => List.mem_range.mpr (inside x mem)).length_le
  have off : ∑ x ∈ range n \ S.toFinset, f x = (n - S.length) * T := by
    rw [sum_congr rfl fun x mem => full x (mem_range.mp (mem_sdiff.mp mem).1)
      fun inS => (mem_sdiff.mp mem).2 (List.mem_toFinset.mpr inS)]
    rw [sum_const, card_sdiff_of_subset sub, card_range, List.toFinset_card_of_nodup nodup, smul_eq_mul]
  have split := sum_sdiff (f := f) sub
  rw [off, List.sum_toFinset _ nodup, total] at split
  have parts : (n - S.length) * T + S.length * T = n * T := by rw [← Nat.add_mul, Nat.sub_add_cancel le]
  exact Nat.add_left_cancel (split.trans parts.symm)

end Sums

section Draws

theorem card_filter_range_ite {α : Type} [DecidableEq α] {u T : Nat} (a b i : α) (le : u ≤ T) :
    ((range T).filter fun y => (if y < u then a else b) = i).card =
      (if a = i then u else 0) + (if b = i then T - u else 0) := by
  rw [card_filter, ← sum_range_add_sum_Ico _ le]
  have low : ∑ y ∈ range u, (if (if y < u then a else b) = i then 1 else 0) = if a = i then u else 0 := by
    rw [sum_congr rfl fun y mem => by rw [if_pos (mem_range.mp mem)]]
    split <;> simp
  have high : ∑ y ∈ Ico u T, (if (if y < u then a else b) = i then 1 else 0) = if b = i then T - u else 0 := by
    rw [sum_congr rfl fun y mem => by rw [if_neg (Nat.not_lt.mpr (mem_Ico.mp mem).1)]]
    split <;> simp
  rw [low, high]

theorem card_filter_product {α β : Type} (s : Finset α) (t : Finset β) (P : α × β → Prop) [DecidablePred P] :
    ((s ×ˢ t).filter P).card = ∑ x ∈ s, (t.filter fun y => P (x, y)).card := by
  simp only [card_filter]
  rw [sum_product]

theorem card_filter_piFinset_eval {ι β : Type} [DecidableEq ι] [Fintype ι] [DecidableEq β]
    {s t : Finset β} (sub : t ⊆ s) (j : ι) :
    ((Fintype.piFinset fun _ : ι => s).filter fun draws => draws j ∈ t).card =
      t.card * s.card ^ (Fintype.card ι - 1) := by
  rw [← Fintype.piFinset_update_eq_filter_piFinset_mem _ j sub, Fintype.card_piFinset,
    Fintype.prod_eq_mul_prod_compl j, Function.update_self]
  have others : ∏ i ∈ {j}ᶜ, (Function.update (fun _ => s) j t i).card = ∏ i ∈ ({j}ᶜ : Finset ι), s.card :=
    prod_congr rfl fun i mem => by rw [Function.update_of_ne (by simpa using mem)]
  rw [others, prod_const, card_compl, card_singleton]

end Draws

end Counting
