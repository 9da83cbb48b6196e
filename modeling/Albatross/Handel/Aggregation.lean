import Mathlib.Data.Option.Basic

/- The Handel aggregation of handel/src/aggregation.rs as the stream Tendermint
   reads: what `poll_next` yields. It is generic over its protocol, of which the
   stream reads the store (the two calls of the `ContributionStore` trait that
   `apply_contribution` makes), the number of levels and `is_complete`. Which
   contribution a poll applies (the node's own, trusted, or one whose verification
   succeeded) is the environment's choice: the pending list, the verifier and the
   network are outside the model, as are the level updates, which only send. -/
namespace Albatross

namespace Handel

variable {St C : Type}

/-- The calls of `ContributionStore` that `apply_contribution` makes. -/
structure ContributionStore (St C : Type) where
  put : St → C → Nat → St
  combined : St → Nat → Option C

structure PendingContribution (C : Type) where
  contribution : C
  level : Nat

/-- The part of an `Aggregation` its yields depend on: `levels.len()`, the store and
    `final_result`. -/
structure Aggregation (St C : Type) where
  numLevels : Nat
  store : St
  finalResult : Option C

section Stream

variable (cs : ContributionStore St C) (isComplete : C → Bool)

/-- `apply_contribution`. A full aggregation, sent at level `num_levels`, is returned
    as it is and never enters the store. -/
def applyContribution (agg : Aggregation St C) (pending : PendingContribution C) :
    Option (Aggregation St C × C) :=
  if pending.level = agg.numLevels then some (agg, pending.contribution)
  else
    let store := cs.put agg.store pending.contribution pending.level
    -- `expect` on the combined aggregate of all levels
    (cs.combined store (agg.numLevels - 1)).map fun best => ({ agg with store := store }, best)

/-- `poll_next`, applying at most one contribution. Its item is `none` where the
    stream returns `Poll::Pending`: nothing was applied, or the aggregation had
    already produced its final result. -/
def pollNext (agg : Aggregation St C) (applied : Option (PendingContribution C)) :
    Option (Aggregation St C × Option C) :=
  let applyNext : Option (Aggregation St C × Option C) :=
    match applied with
    | none => some (agg, none)
    | some pending => (applyContribution cs agg pending).map fun r => (r.1, some r.2)
  applyNext.bind fun (agg, best) =>
    if agg.finalResult.isSome then some (agg, none)
    else
      match best with
      | none => some (agg, none)
      | some best =>
        if isComplete best then some ({ agg with finalResult := some best }, some best)
        else some (agg, some best)

/-- The items of the stream over a run of polls, or `none` where one of them panics. -/
def runYields (agg : Aggregation St C) :
    List (Option (PendingContribution C)) → Option (Aggregation St C × List C)
  | [] => some (agg, [])
  | applied :: rest =>
    (pollNext cs isComplete agg applied).bind fun (agg, item) =>
      (runYields agg rest).map fun (agg, items) => (agg, item.toList ++ items)

theorem applyContribution_finalResult {agg agg' : Aggregation St C} {pending : PendingContribution C} {best : C}
    (applied : applyContribution cs agg pending = some (agg', best)) : agg'.finalResult = agg.finalResult := by
  unfold applyContribution at applied
  split at applied
  · cases applied
    rfl
  · obtain ⟨_, -, found⟩ := Option.map_eq_some_iff.mp applied
    cases found
    rfl

theorem pollNext_after_final {agg agg' : Aggregation St C} {applied : Option (PendingContribution C)}
    {item : Option C} {result : C} (final : agg.finalResult = some result)
    (polled : pollNext cs isComplete agg applied = some (agg', item)) :
    item = none ∧ agg'.finalResult = some result := by
  obtain ⟨⟨agg₁, best⟩, next, rest⟩ := Option.bind_eq_some_iff.mp polled
  have kept : agg₁.finalResult = some result := by
    cases applied with
    | none =>
      cases next
      exact final
    | some pending =>
      obtain ⟨⟨_, _⟩, applied, found⟩ := Option.map_eq_some_iff.mp next
      cases found
      rw [applyContribution_finalResult cs applied, final]
  simp only [kept, Option.isSome_some, if_true, Option.some.injEq, Prod.mk.injEq] at rest
  exact ⟨rest.2.symm, rest.1 ▸ kept⟩

/-- The stream never yields after its final result: every later run of polls is silent. -/
theorem runYields_after_final {agg agg' : Aggregation St C} {result : C} (final : agg.finalResult = some result)
    (polls : List (Option (PendingContribution C))) {items : List C}
    (run : runYields cs isComplete agg polls = some (agg', items)) : items = [] := by
  induction polls generalizing agg items with
  | nil =>
    simp only [runYields, Option.some.injEq, Prod.mk.injEq] at run
    exact run.2.symm
  | cons applied rest ih =>
    obtain ⟨⟨agg₁, item⟩, polled, later⟩ := Option.bind_eq_some_iff.mp run
    obtain ⟨silent, kept⟩ := pollNext_after_final cs isComplete final polled
    obtain ⟨⟨_, items'⟩, ranRest, found⟩ := Option.map_eq_some_iff.mp later
    cases found
    rw [silent, ih kept ranRest]
    rfl

/-- A contribution below the top level goes through the store, and the poll yields
    the combined aggregate of all levels. -/
theorem pollNext_applies_to_store {agg : Aggregation St C} {pending : PendingContribution C} {best : C}
    (fresh : agg.finalResult = none) (below : pending.level ≠ agg.numLevels)
    (combined : cs.combined (cs.put agg.store pending.contribution pending.level) (agg.numLevels - 1) = some best)
    (incomplete : isComplete best = false) :
    pollNext cs isComplete agg (some pending) =
      some ({ agg with store := cs.put agg.store pending.contribution pending.level }, some best) := by
  simp [pollNext, applyContribution, below, combined, fresh, incomplete]

/-- A full aggregation is yielded as it is and, being complete, is the final result. -/
theorem pollNext_applies_full {agg : Aggregation St C} {full : C} (fresh : agg.finalResult = none)
    (complete : isComplete full = true) :
    pollNext cs isComplete agg (some ⟨full, agg.numLevels⟩) = some ({ agg with finalResult := some full }, some full) := by
  simp [pollNext, applyContribution, fresh, complete]

end Stream

end Handel

end Albatross
