import Mathlib

/- `List.mapM` in `Option`: the run over a list succeeds exactly when every call does, and
   its result holds the calls' results in order. -/
namespace Albatross

variable {α β : Type}

theorem mapM_eq_some_map {f : α → Option β} {g : α → β} :
    ∀ l : List α, (∀ x ∈ l, f x = some (g x)) → l.mapM f = some (l.map g)
  | [], _ => rfl
  | x :: l, agree => by
    rw [List.mapM_cons, agree x (by simp), mapM_eq_some_map l (fun y member => agree y (by simp [member]))]
    rfl

theorem mapM_eq_ok_map {ε : Type} {f : α → Except ε β} {g : α → β} :
    ∀ l : List α, (∀ x ∈ l, f x = .ok (g x)) → l.mapM f = .ok (l.map g)
  | [], _ => rfl
  | x :: l, agree => by
    rw [List.mapM_cons, agree x (by simp), mapM_eq_ok_map l (fun y member => agree y (by simp [member]))]
    rfl

theorem mapM_eq_some_of_isSome {f : α → Option β} :
    ∀ l : List α, (∀ x ∈ l, (f x).isSome) →
      ∃ r, l.mapM f = some r ∧ ∀ y, y ∈ r ↔ ∃ x ∈ l, f x = some y
  | [], _ => ⟨[], rfl, by simp⟩
  | x :: l, succeed => by
    obtain ⟨b, first⟩ := Option.isSome_iff_exists.mp (succeed x List.mem_cons_self)
    obtain ⟨r, rest, members⟩ := mapM_eq_some_of_isSome l (fun y member => succeed y (List.mem_cons_of_mem _ member))
    refine ⟨b :: r, by rw [List.mapM_cons, first, rest]; rfl, fun y => ?_⟩
    rw [List.mem_cons, members, List.exists_mem_cons_iff, first, Option.some.injEq, eq_comm]

theorem mapM_bind_index {f : α → Option β} :
    ∀ l : List α, (∀ x ∈ l, (f x).isSome) → ∀ j : Nat, (l.mapM f).bind (·[j]?) = l[j]?.bind f
  | [], _, _ => rfl
  | x :: l, succeed, j => by
    have succeedTail : ∀ y ∈ l, (f y).isSome := fun y member => succeed y (List.mem_cons_of_mem _ member)
    obtain ⟨b, first⟩ := Option.isSome_iff_exists.mp (succeed x List.mem_cons_self)
    obtain ⟨r, rest, -⟩ := mapM_eq_some_of_isSome l succeedTail
    have whole : (x :: l).mapM f = some (b :: r) := by rw [List.mapM_cons, first, rest]; rfl
    rw [whole]
    cases j with
    | zero => simp [first]
    | succ j =>
      have tail := mapM_bind_index l succeedTail j
      rw [rest] at tail
      simpa using tail

/-- The invariant rule for a run in `Option` over a list without repeats, the invariant
    indexed by what is left to visit: a step that succeeds from every state the
    invariant allows makes the whole run succeed, and the invariant holds at its end. -/
theorem foldlM_some_of_step {γ : Type} {g : γ → α → Option γ} (I : List α → γ → Prop)
    (step : ∀ a l x, (a :: l).Nodup → I (a :: l) x → ∃ y, g x a = some y ∧ I l y) :
    ∀ (l : List α) (x : γ), l.Nodup → I l x → ∃ y, l.foldlM g x = some y ∧ I [] y
  | [], x, _, hx => ⟨x, rfl, hx⟩
  | a :: l, x, nodup, hx => by
    obtain ⟨y, first, hy⟩ := step a l x nodup hx
    obtain ⟨z, rest, hz⟩ := foldlM_some_of_step I step l y nodup.of_cons hy
    refine ⟨z, ?_, hz⟩
    rw [List.foldlM_cons, first]
    exact rest

end Albatross
