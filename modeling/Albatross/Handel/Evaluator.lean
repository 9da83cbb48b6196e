import Albatross.Handel.Store
import Albatross.Policy

/- `WeightedVote::evaluate` of handel/src/evaluator.rs: the score by which pending contributions
   are ordered, computed from the store by set algebra that predicts what `put` will make of the
   contribution. The weights are a registry, whose `signers_identity` and `signature_weight` are
   parameters. The score is `usize` arithmetic: an underflow, which panics in a debug build and
   wraps in a release build, is `none`. -/
namespace Albatross

namespace Handel

namespace WeightedVote

/-- `a - b` on `usize`; `none` is an underflow. -/
def checkedSub (a b : Nat) : Option Nat := if b ≤ a then some (a - b) else none

@[simp] theorem checkedSub_eq_none_iff (a b : Nat) : checkedSub a b = none ↔ a < b := by
  unfold checkedSub
  split <;> simp <;> omega

variable {C : Type} (signersIdentity : Finset C → Finset Nat)

/-- `new_total`, `added_sigs` and `combined_sigs` of `evaluate`: the identity with the level's
verified individuals, set against the best contribution; `none` is the panic of `combine`
without intersections. -/
def counts (identity individualVerified : Finset Nat) (best : Option (Finset C)) : Option (Nat × Int × Nat) :=
  let withIndividuals := identity ∪ individualVerified
  match best with
  | some best =>
    let bestContributors := signersIdentity best
    if 0 < (identity ∩ bestContributors).card then
      let newTotal := withIndividuals.card
      some (newTotal, (newTotal : Int) - bestContributors.card, newTotal - identity.card)
    else
      let finalSig := withIndividuals ∪ bestContributors
      (Identity.combine bestContributors identity false).map fun withoutIndividuals =>
        (finalSig.card, (finalSig.card : Int) - bestContributors.card, (symmDiff finalSig withoutIndividuals).card)
  | none =>
    let newTotal := withIndividuals.card
    some (newTotal, newTotal, newTotal - identity.card)

/-- `evaluate` below the final level up to its score: `some none` where it returns zero early (no
identity, an individual contribution the store knows, a best that is complete or a superset),
and otherwise the counts it scores. -/
def prediction (p : BinomialPartitioner) (store : ReplaceStore C) (contribution : Finset C) (level : Nat) :
    Option (Option (Nat × Int × Nat)) :=
  let identity := signersIdentity contribution
  if identity = ∅ then some none
  else
    -- `individual_signature`, which panics on a level the store does not have
    let known : Option Bool :=
      if identity.card = 1 then
        (store.individualContributions[level]?).map fun individuals => (findKey identity individuals).isSome
      else some false
    known.bind fun known =>
      if known then some none
      else
        let levelIdentityCount := p.levelSize level
        let best := (store.bestContribution level).map Prod.fst
        let settled : Bool :=
          match best with
          | some best => levelIdentityCount == (signersIdentity best).card || decide (identity ⊆ signersIdentity best)
          | none => false
        if settled then some none
        else
          (store.individualVerified[level]?).bind fun individualVerified =>
            (counts signersIdentity identity individualVerified best).map some

section Predicts

variable {signersIdentity}

theorem counts_of_none (identity verified : Finset Nat) :
    counts signersIdentity identity verified none = some ((identity ∪ verified).card,
      ((identity ∪ verified).card : Int), (identity ∪ verified).card - identity.card) := rfl

theorem counts_of_overlap {identity verified : Finset Nat} {best : Finset C}
    (meets : ¬Disjoint identity (signersIdentity best)) :
    counts signersIdentity identity verified (some best) = some ((identity ∪ verified).card,
      ((identity ∪ verified).card : Int) - (signersIdentity best).card, (identity ∪ verified).card - identity.card) := by
  rw [Finset.disjoint_iff_inter_eq_empty, ← Finset.card_eq_zero, ← Ne, ← Nat.pos_iff_ne_zero] at meets
  simp only [counts, if_pos meets]

theorem counts_of_apart {identity verified : Finset Nat} {best : Finset C}
    (apart : Disjoint identity (signersIdentity best)) :
    counts signersIdentity identity verified (some best) = some ((identity ∪ verified ∪ signersIdentity best).card,
      ((identity ∪ verified ∪ signersIdentity best).card : Int) - (signersIdentity best).card,
      (symmDiff (identity ∪ verified ∪ signersIdentity best) (signersIdentity best ∪ identity)).card) := by
  have none : ¬0 < (identity ∩ signersIdentity best).card := by
    rw [Finset.disjoint_iff_inter_eq_empty.mp apart]
    simp
  simp only [counts, if_neg none, Identity.combine_of_disjoint apart.symm, Option.map_some]

section Store

variable {p : BinomialPartitioner} {store : ReplaceStore C} {contribution : Finset C} {level : Nat}
  (nonempty : signersIdentity contribution ≠ ∅)
  (fresh : (signersIdentity contribution).card = 1 →
    findKey (signersIdentity contribution) (store.individualsOn level) = none)
  (individualsAt : level < store.individualContributions.length)
include nonempty fresh individualsAt

omit nonempty in
theorem known_eq_false :
    (if (signersIdentity contribution).card = 1 then
      (store.individualContributions[level]?).map fun individuals =>
        (findKey (signersIdentity contribution) individuals).isSome
    else some false) = some false := by
  split_ifs with single
  · rw [ReplaceStore.getElem?_individualContributions individualsAt, Option.map_some, fresh single]
    rfl
  · rfl

theorem prediction_of_settled {best : Finset C} {identity : Finset Nat}
    (found : store.bestContribution level = some (best, identity))
    (settled : p.levelSize level = (signersIdentity best).card ∨ signersIdentity contribution ⊆ signersIdentity best) :
    prediction signersIdentity p store contribution level = some none := by
  simp only [prediction, if_neg nonempty, known_eq_false fresh individualsAt]
  simp [found, settled]

theorem prediction_of_unsettled (verifiedAt : level < store.individualVerified.length)
    (unsettled : ∀ best identity, store.bestContribution level = some (best, identity) →
      p.levelSize level ≠ (signersIdentity best).card ∧ ¬signersIdentity contribution ⊆ signersIdentity best) :
    prediction signersIdentity p store contribution level =
      (counts signersIdentity (signersIdentity contribution) (store.verifiedOn level)
        ((store.bestContribution level).map Prod.fst)).map some := by
  simp only [prediction, if_neg nonempty, known_eq_false fresh individualsAt]
  cases found : store.bestContribution level with
  | none => simp [ReplaceStore.getElem?_individualVerified verifiedAt]
  | some entry =>
    obtain ⟨incomplete, notSuperset⟩ := unsettled entry.1 entry.2 found
    simp [ReplaceStore.getElem?_individualVerified verifiedAt, incomplete, notSuperset]

end Store

/-- A best as strong as its level is the whole level. -/
theorem bestIdentity_eq_levelSet {p : BinomialPartitioner} {store : ReplaceStore C}
    (inv : ReplaceStore.Invariant signersIdentity p store) {level : Nat}
    (complete : (store.bestIdentity level).card = p.levelSize level) : store.bestIdentity level = p.levelSet level :=
  Finset.eq_of_subset_of_card_le (inv.best_on_level level) (by rw [← p.levelSize_eq_card, complete])

theorem put_follows_prediction [DecidableEq C] (faithful : Faithful signersIdentity)
    (separates : ∀ a b : Finset C, Disjoint a b → Disjoint (signersIdentity a) (signersIdentity b))
    {p : BinomialPartitioner} {store : ReplaceStore C} (reachable : ReplaceStore.Reachable signersIdentity p store)
    {contribution : Finset C} {level : Nat}
    (admissible : ReplaceStore.Admissible signersIdentity p store contribution level) :
    (prediction signersIdentity p store contribution level).isSome ∧
    ∃ after, ReplaceStore.put signersIdentity store contribution level = some after ∧
      ReplaceStore.Invariant signersIdentity p after ∧
      (prediction signersIdentity p store contribution level = some none →
        (after.bestIdentity level).card = (store.bestIdentity level).card) ∧
      ∀ newTotal addedSigs combinedSigs,
        prediction signersIdentity p store contribution level = some (some (newTotal, addedSigs, combinedSigs)) →
        (addedSigs ≤ 0 → (after.bestIdentity level).card = (store.bestIdentity level).card) ∧
        (0 < addedSigs → (after.bestIdentity level).card = newTotal ∧ (store.bestIdentity level).card < newTotal ∧
          (newTotal = p.levelSize level → after.bestIdentity level = p.levelSet level)) := by
  have inv := ReplaceStore.reachable_invariant faithful reachable
  obtain ⟨after, put, invAfter, -, -, size⟩ := ReplaceStore.put_invariant faithful inv admissible
  by_cases empty : signersIdentity contribution = ∅
  · have early : prediction signersIdentity p store contribution level = some none := by
      simp [prediction, empty]
    refine ⟨by rw [early]; rfl, after, put, invAfter, fun _ => size.trans (ReplaceStore.mergedSize_of_empty inv empty level), ?_⟩
    intro _ _ _ counted
    rw [early] at counted
    cases counted
  have inLevels : level < p.levels := by
    by_contra beyond
    have := admissible.on_level
    rw [p.levelSet_of_levels_le (Nat.le_of_not_lt beyond), Finset.subset_empty] at this
    exact empty this
  have individualsAt : level < store.individualContributions.length := inv.length_individuals ▸ inLevels
  have verifiedAt : level < store.individualVerified.length := inv.length_verified ▸ inLevels
  have pos : 0 < (signersIdentity contribution).card := Finset.card_pos.mpr (Finset.nonempty_iff_ne_empty.mpr empty)
  cases found : store.bestContribution level with
  | none =>
    -- an empty level has no verified individuals, so the contribution is counted alone
    have nothing : store.verifiedOn level = ∅ :=
      Finset.subset_empty.mp (ReplaceStore.bestIdentity_of_none found ▸ inv.verified_in_best level)
    have counted := prediction_of_unsettled (p := p) empty admissible.fresh individualsAt verifiedAt (by simp [found])
    rw [found, Option.map_none, counts_of_none, nothing, Finset.union_empty, Option.map_some] at counted
    have merged : (after.bestIdentity level).card = (signersIdentity contribution).card := by
      rw [size, ReplaceStore.mergedSize, found]
    refine ⟨by rw [counted]; rfl, after, put, invAfter, by simp [counted], ?_⟩
    rintro newTotal addedSigs combinedSigs predicted
    rw [counted, Option.some.injEq, Option.some.injEq, Prod.mk.injEq, Prod.mk.injEq] at predicted
    obtain ⟨rfl, rfl, -⟩ := predicted
    rw [ReplaceStore.bestIdentity_of_none found, Finset.card_empty]
    exact ⟨fun nonpos => by omega, fun _ => ⟨merged, pos, fun complete => bestIdentity_eq_levelSet invAfter (merged.trans complete)⟩⟩
  | some entry =>
    obtain ⟨best, identity⟩ := entry
    have isIdentity := inv.stored_identity level best identity found
    have bestOnLevel : identity ⊆ p.levelSet level := ReplaceStore.bestIdentity_of_eq found ▸ inv.best_on_level level
    have verifiedInBest : store.verifiedOn level ⊆ identity :=
      ReplaceStore.bestIdentity_of_eq found ▸ inv.verified_in_best level
    have merged : (after.bestIdentity level).card = if Disjoint contribution best then
        (signersIdentity contribution ∪ identity).card
        else max identity.card (signersIdentity contribution ∪ store.verifiedOn level).card := by
      rw [size, ReplaceStore.mergedSize, found]
    -- the contributors overlap exactly when the identities do
    have overlapIff : Disjoint contribution best ↔ Disjoint (signersIdentity contribution) identity := by
      rw [isIdentity]
      exact ⟨separates _ _, faithful.disjoint _ _⟩
    rw [ReplaceStore.bestIdentity_of_eq found]
    by_cases settled : p.levelSize level = identity.card ∨ signersIdentity contribution ⊆ identity
    · -- a complete best is the whole level, so it holds the contribution as a superset does
      have within : signersIdentity contribution ⊆ identity := by
        rcases settled with complete | superset
        · have whole : identity = p.levelSet level :=
            Finset.eq_of_subset_of_card_le bestOnLevel (by rw [← p.levelSize_eq_card, complete])
          exact whole ▸ admissible.on_level
        · exact superset
      have early := prediction_of_settled empty admissible.fresh individualsAt found (isIdentity ▸ settled)
      have meets : ¬Disjoint contribution best := by
        rw [overlapIff]
        intro apart
        exact empty (Finset.disjoint_self_iff_empty _ |>.mp (Finset.disjoint_of_subset_right within apart))
      have unchanged : (after.bestIdentity level).card = identity.card := by
        rw [merged, if_neg meets]
        exact max_eq_left (Finset.card_le_card (Finset.union_subset within verifiedInBest))
      refine ⟨by rw [early]; rfl, after, put, invAfter, fun _ => unchanged, ?_⟩
      intro _ _ _ counted
      rw [early] at counted
      cases counted
    · have counted := prediction_of_unsettled empty admissible.fresh individualsAt verifiedAt
        (fun best' identity' found' => by
          rw [found, Option.some.injEq, Prod.mk.injEq] at found'
          obtain ⟨rfl, rfl⟩ := found'
          rw [← isIdentity]
          exact not_or.mp settled)
      rw [found, Option.map_some] at counted
      by_cases apart : Disjoint (signersIdentity contribution) identity
      · -- the two combine: the verified individuals are in the best already, and the
        -- contribution adds all its identities
        rw [counts_of_apart (isIdentity ▸ apart), ← isIdentity, Finset.union_assoc,
          Finset.union_eq_right.mpr verifiedInBest, Option.map_some] at counted
        have grown : (signersIdentity contribution ∪ identity).card = (signersIdentity contribution).card + identity.card :=
          Finset.card_union_of_disjoint apart
        have combines : (after.bestIdentity level).card = (signersIdentity contribution ∪ identity).card := by
          rw [merged, if_pos (overlapIff.mpr apart)]
        refine ⟨by rw [counted]; rfl, after, put, invAfter, by simp [counted], ?_⟩
        rintro newTotal addedSigs combinedSigs predicted
        rw [counted, Option.some.injEq, Option.some.injEq, Prod.mk.injEq, Prod.mk.injEq] at predicted
        obtain ⟨rfl, rfl, -⟩ := predicted
        exact ⟨fun nonpos => by omega, fun _ => ⟨combines, by omega,
          fun complete => bestIdentity_eq_levelSet invAfter (combines.trans complete)⟩⟩
      · -- they overlap: the individuals the contribution lacks are merged in if that beats the best
        rw [counts_of_overlap (isIdentity ▸ apart), ← isIdentity, Option.map_some] at counted
        have meets : ¬Disjoint contribution best := fun disjoint => apart (overlapIff.mp disjoint)
        have better : (after.bestIdentity level).card =
            max identity.card (signersIdentity contribution ∪ store.verifiedOn level).card := by
          rw [merged, if_neg meets]
        refine ⟨by rw [counted]; rfl, after, put, invAfter, by simp [counted], ?_⟩
        rintro newTotal addedSigs combinedSigs predicted
        rw [counted, Option.some.injEq, Option.some.injEq, Prod.mk.injEq, Prod.mk.injEq] at predicted
        obtain ⟨rfl, rfl, -⟩ := predicted
        refine ⟨fun nonpos => by rw [better]; exact max_eq_left (by omega), fun gain => ?_⟩
        have improves : (after.bestIdentity level).card = (signersIdentity contribution ∪ store.verifiedOn level).card := by
          rw [better]
          exact max_eq_right (by omega)
        exact ⟨improves, by omega, fun complete => bestIdentity_eq_levelSet invAfter (improves.trans complete)⟩

/-- The evaluator predicts the store. On a store reachable by admissible `put`s, under a registry
that maps unions to unions and for which contributors overlap exactly when their identities do,
`evaluate` of an admissible contribution does not panic before its score, and the strength of the
level's best after `put` is what it counts: unchanged where it returns zero early or counts no
signature added, and its `new_total` otherwise, which is more than before and, where it completes
the level, makes the best the whole level. -/
theorem evaluate_predicts_put [DecidableEq C] (faithful : Faithful signersIdentity)
    (separates : ∀ a b : Finset C, Disjoint a b → Disjoint (signersIdentity a) (signersIdentity b))
    {p : BinomialPartitioner} {store : ReplaceStore C} (reachable : ReplaceStore.Reachable signersIdentity p store)
    {contribution : Finset C} {level : Nat}
    (admissible : ReplaceStore.Admissible signersIdentity p store contribution level) :
    (prediction signersIdentity p store contribution level).isSome ∧
    ∃ after, ReplaceStore.put signersIdentity store contribution level = some after ∧
      (prediction signersIdentity p store contribution level = some none →
        (after.bestIdentity level).card = (store.bestIdentity level).card) ∧
      ∀ newTotal addedSigs combinedSigs,
        prediction signersIdentity p store contribution level = some (some (newTotal, addedSigs, combinedSigs)) →
        (addedSigs ≤ 0 → (after.bestIdentity level).card = (store.bestIdentity level).card) ∧
        (0 < addedSigs → (after.bestIdentity level).card = newTotal ∧ (store.bestIdentity level).card < newTotal ∧
          (newTotal = p.levelSize level → after.bestIdentity level = p.levelSet level)) := by
  obtain ⟨predicted, after, put, -, unchanged, counted⟩ :=
    put_follows_prediction faithful separates reachable admissible
  exact ⟨predicted, after, put, unchanged, counted⟩

theorem pair_prediction_on_new_store :
    (prediction (fun contributors : Finset Nat => contributors) nodeThreeOfFour
      (ReplaceStore.new nodeThreeOfFour) {0, 1} 2).isSome :=
  (evaluate_predicts_put identity_registry_faithful (fun _ _ apart => apart) .new
    ⟨Finset.insert_subset zero_mem_levelTwo (Finset.singleton_subset_iff.mpr one_mem_levelTwo),
      fun two => absurd two (by decide)⟩).1

end Predicts

end WeightedVote

end Handel

end Albatross
