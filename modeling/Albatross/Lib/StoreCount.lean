import Mathlib.Data.Set.Card

/- Counting the entries of a store kept as a function: how the number of keys
   whose entry has a property changes when one entry is overwritten. -/
namespace Albatross

variable {α β : Type} [DecidableEq α] {f : α → β} {P : β → Prop}

theorem finite_setOf_update (fin : {x | P (f x)}.Finite) (a : α) (b : β) :
    {x | P (Function.update f a b x)}.Finite := by
  refine (fin.insert a).subset ?_
  intro x hx
  by_cases same : x = a
  · exact Or.inl same
  · exact Or.inr (by simpa [Function.update_of_ne same] using hx)

omit [DecidableEq α] in
theorem ncard_eq_sdiff_add (s : Set α) (fin : s.Finite) (a : α) [Decidable (a ∈ s)] :
    (s.ncard : Int) = (s \ {a}).ncard + if a ∈ s then 1 else 0 := by
  split
  · rename_i mem
    rw [← Set.ncard_sdiff_singleton_add_one mem fin]
    push_cast
    rfl
  · rename_i absent
    rw [Set.sdiff_singleton_eq_self absent]
    simp

/-- Overwriting the entry at `a` with `b` takes `a` out of the count if its old
    entry had the property and puts it in if `b` has it. -/
theorem ncard_setOf_update (fin : {x | P (f x)}.Finite) (a : α) (b : β)
    [DecidablePred P] :
    ({x | P (Function.update f a b x)}.ncard : Int) =
      {x | P (f x)}.ncard - (if P (f a) then 1 else 0) + (if P b then 1 else 0) := by
  have rest : {x | P (Function.update f a b x)} \ {a} = {x | P (f x)} \ {a} := by
    ext x
    by_cases same : x = a
    · simp [same]
    · simp [same]
  have old := ncard_eq_sdiff_add {x | P (f x)} fin a
  have new := ncard_eq_sdiff_add {x | P (Function.update f a b x)} (finite_setOf_update fin a b) a
  simp only [Set.mem_ofPred_eq, Function.update_self] at old new
  rw [new, rest]
  omega

end Albatross
