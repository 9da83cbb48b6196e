import Albatross.Handel.Partitioner
import Albatross.Lib.AssocMap

/- `ReplaceStore` of handel/src/store.rs: per level the verified individual contributions and
   the best contribution seen, which `put` improves through `check_merge`. A contribution is
   its set of contributors, so that `combine` is their union and fails exactly where the two
   overlap, leaving the contribution as it was. The registry's `signers_identity` maps a set of
   contributors to the identities it stands for. `BinomialPartitioner::combine` reads neither
   the partitioner nor the level, so the store keeps only the level count of its partitioner,
   as the lengths of its per-level vectors. A panic is `none`. -/
namespace Albatross

namespace Handel

variable {C : Type}

structure ReplaceStore (C : Type) where
  bestLevel : Nat
  individualVerified : List (Finset Nat)
  individualContributions : List (List (Finset Nat × Finset C))
  -- the `BTreeMap` from levels
  bestContribution : Nat → Option (Finset C × Finset Nat)

namespace ReplaceStore

def new (p : BinomialPartitioner) : ReplaceStore C :=
  ⟨0, List.replicate p.levels ∅, List.replicate p.levels [], fun _ => none⟩

/-- The store after `check_merge` gave it a new best contribution for `level`. -/
def setBest (s : ReplaceStore C) (level : Nat) (best : Finset C × Finset Nat) : ReplaceStore C :=
  { s with
    bestContribution := Function.update s.bestContribution level (some best)
    bestLevel := if level > s.bestLevel then level else s.bestLevel }

/-- The verified individuals of a level, none past the levels. -/
def verifiedOn (s : ReplaceStore C) (l : Nat) : Finset Nat := (s.individualVerified[l]?).getD ∅

def individualsOn (s : ReplaceStore C) (l : Nat) : List (Finset Nat × Finset C) :=
  (s.individualContributions[l]?).getD []

def bestIdentity (s : ReplaceStore C) (l : Nat) : Finset Nat :=
  match s.bestContribution l with
  | some (_, identity) => identity
  | none => ∅

def bestContributors (s : ReplaceStore C) (l : Nat) : Finset C :=
  match s.bestContribution l with
  | some (best, _) => best
  | none => ∅

theorem bestIdentity_of_eq {s : ReplaceStore C} {l : Nat} {best : Finset C} {identity : Finset Nat}
    (found : s.bestContribution l = some (best, identity)) : s.bestIdentity l = identity := by
  rw [bestIdentity, found]

theorem bestIdentity_of_none {s : ReplaceStore C} {l : Nat} (empty : s.bestContribution l = none) :
    s.bestIdentity l = ∅ := by
  rw [bestIdentity, empty]

@[simp] theorem verifiedOn_new (p : BinomialPartitioner) (l : Nat) : (new p : ReplaceStore C).verifiedOn l = ∅ := by
  by_cases inside : l < p.levels <;> simp [verifiedOn, new, inside]

theorem getElem?_individualVerified {s : ReplaceStore C} {l : Nat} (inside : l < s.individualVerified.length) :
    s.individualVerified[l]? = some (s.verifiedOn l) := by
  simp [verifiedOn, inside]

theorem getElem?_individualContributions {s : ReplaceStore C} {l : Nat} (inside : l < s.individualContributions.length) :
    s.individualContributions[l]? = some (s.individualsOn l) := by
  simp [individualsOn, inside]

@[simp] theorem setBest_individualVerified (s : ReplaceStore C) (l : Nat) (best : Finset C × Finset Nat) :
    (setBest s l best).individualVerified = s.individualVerified := rfl

@[simp] theorem setBest_individualContributions (s : ReplaceStore C) (l : Nat) (best : Finset C × Finset Nat) :
    (setBest s l best).individualContributions = s.individualContributions := rfl

@[simp] theorem verifiedOn_setBest (s : ReplaceStore C) (l l' : Nat) (best : Finset C × Finset Nat) :
    (setBest s l best).verifiedOn l' = s.verifiedOn l' := rfl

theorem setBest_bestContribution (s : ReplaceStore C) (l l' : Nat) (best : Finset C × Finset Nat) :
    (setBest s l best).bestContribution l' = if l' = l then some best else s.bestContribution l' := by
  simp only [setBest, Function.update_apply]

theorem bestIdentity_setBest (s : ReplaceStore C) (l l' : Nat) (best : Finset C) (identity : Finset Nat) :
    (setBest s l (best, identity)).bestIdentity l' = if l' = l then identity else s.bestIdentity l' := by
  by_cases same : l' = l
  · rw [if_pos same, bestIdentity_of_eq (by rw [setBest_bestContribution, if_pos same])]
  · rw [if_neg same, bestIdentity, bestIdentity, setBest_bestContribution, if_neg same]

end ReplaceStore

variable [DecidableEq C]

namespace Contribution

/-- `AggregatableContribution::combine` on contributor sets. -/
def combine (c d : Finset C) : Except Unit (Finset C) :=
  if Disjoint c d then .ok (c ∪ d) else .error ()

theorem combine_of_disjoint {c d : Finset C} (apart : Disjoint c d) : combine c d = .ok (c ∪ d) := by
  rw [combine, if_pos apart]

theorem combine_of_not_disjoint {c d : Finset C} (overlap : ¬Disjoint c d) : combine c d = .error () := by
  rw [combine, if_neg overlap]

end Contribution

namespace Identity

/-- `Identity::complement`: `(self & other) ^ other`. -/
def complement (a b : Finset Nat) : Finset Nat := symmDiff (a ∩ b) b

/-- `Identity::combine`; `none` is its panic on an overlap that is not allowed. -/
def combine (a b : Finset Nat) (allowIntersection : Bool) : Option (Finset Nat) :=
  if !allowIntersection && 0 < (a ∩ b).card then none else some (a ∪ b)

theorem complement_eq (a b : Finset Nat) : complement a b = b \ a := by
  rw [complement, symmDiff_of_le Finset.inter_subset_right, Finset.sdiff_inter_self_right]

theorem combine_of_disjoint {a b : Finset Nat} (apart : Disjoint a b) (allowIntersection : Bool) :
    combine a b allowIntersection = some (a ∪ b) := by
  rw [combine, Finset.disjoint_iff_inter_eq_empty.mp apart]
  simp

end Identity

/-- `BinomialPartitioner::combine`: `none` when there is nothing to combine, a panic (the outer
`none`) on two contributions that overlap. -/
def BinomialPartitioner.combine : List (Finset C) → Option (Option (Finset C))
  | [] => some none
  | first :: rest =>
    (rest.foldlM (fun combined c => (Contribution.combine combined c).toOption) first).map some

namespace ReplaceStore

section Operations

variable (signersIdentity : Finset C → Finset Nat)

/-- One round of the loop of `check_merge` over the complements: indexing the individuals
panics on a level or an identity that is missing, and either `combine` on an overlap. -/
def mergeIndividual (s : ReplaceStore C) (level : Nat) (acc : Finset C × Finset Nat) (id : Nat) :
    Option (Finset C × Finset Nat) := do
  let individuals ← s.individualContributions[level]?
  let individual ← findKey {id} individuals
  let contribution ← (Contribution.combine acc.1 individual).toOption
  let contributors ← Identity.combine acc.2 {id} false
  pure (contribution, contributors)

/-- `check_merge`; the inner `none` is no improvement. -/
def checkMerge (s : ReplaceStore C) (contribution : Finset C) (level : Nat) :
    Option (Option (Finset C × Finset Nat)) :=
  match s.bestContribution level with
  | none => some (some (contribution, signersIdentity contribution))
  | some (best, bestContributors) =>
    match Contribution.combine contribution best with
    | .ok combined => some (some (combined, signersIdentity combined))
    | .error _ =>
      let contributors := signersIdentity contribution
      if bestContributors ⊆ contributors then some (some (contribution, contributors))
      else
        match s.individualVerified[level]? with
        | none => none
        | some individualVerified =>
          let complements := Identity.complement contributors individualVerified
          if complements.card + contributors.card ≤ bestContributors.card then some none
          else
            ((complements.sort (· ≤ ·)).foldlM (mergeIndividual s level) (contribution, contributors)).map some

/-- The tracking of an individual contribution in `put`: it panics on a level that does not
exist, on an identity verified already (`combine`) and on one stored already (`assert!`). -/
def trackIndividual (s : ReplaceStore C) (contribution : Finset C) (identity : Finset Nat) (level : Nat) :
    Option (ReplaceStore C) := do
  let verified ← s.individualVerified[level]?
  let verified ← Identity.combine verified identity false
  let individuals ← s.individualContributions[level]?
  if (findKey identity individuals).isSome then none
  else
    some { s with
      individualVerified := s.individualVerified.set level verified
      individualContributions := s.individualContributions.set level (insertKey identity contribution individuals) }

def put (s : ReplaceStore C) (contribution : Finset C) (level : Nat) : Option (ReplaceStore C) :=
  let identity := signersIdentity contribution
  if identity = ∅ then some s
  else
    (if identity.card = 1 then trackIndividual s contribution identity level else some s).bind fun s =>
      (checkMerge signersIdentity s contribution level).map fun
        | none => s
        | some best => setBest s level best

/-- `combined`: the best contributions of the levels up to `level`, in the order of the levels. -/
def combined (s : ReplaceStore C) (level : Nat) : Option (Option (Finset C)) :=
  BinomialPartitioner.combine ((List.range (level + 1)).filterMap fun l => (s.bestContribution l).map Prod.fst)

end Operations

end ReplaceStore

section Registry

variable (signersIdentity : Finset C → Finset Nat)

/-- What the store needs of `signers_identity`: it maps a union of contributors to the union of
their identities, and contributions whose identities are disjoint have disjoint contributors
(every contributor stands for an identity). -/
structure Faithful : Prop where
  union : ∀ a b, signersIdentity (a ∪ b) = signersIdentity a ∪ signersIdentity b
  disjoint : ∀ a b, Disjoint (signersIdentity a) (signersIdentity b) → Disjoint a b

namespace ReplaceStore

/-- What the store keeps of its individual and best contributions on every level: the
per-level vectors have a slot per level, every verified individual is stored under its own
identity, the identity stored with a best contribution is that of its contributors, and it
lies on its level. -/
structure Stored (p : BinomialPartitioner) (s : ReplaceStore C) : Prop where
  length_verified : s.individualVerified.length = p.levels
  length_individuals : s.individualContributions.length = p.levels
  verified_stored : ∀ l, ∀ i ∈ s.verifiedOn l,
    ∃ c, findKey {i} (s.individualsOn l) = some c ∧ signersIdentity c = {i}
  stored_identity : ∀ l c identity, s.bestContribution l = some (c, identity) → identity = signersIdentity c
  best_on_level : ∀ l, s.bestIdentity l ⊆ p.levelSet l

/-- The store's invariant: besides what is stored, the verified individuals of a level are
contributors of its best contribution. -/
structure Invariant (p : BinomialPartitioner) (s : ReplaceStore C) : Prop extends Stored signersIdentity p s where
  verified_in_best : ∀ l, s.verifiedOn l ⊆ s.bestIdentity l

/-- The puts the store is meant for: the identity lies on the level, and an individual
contribution is not stored at its level already (those `WeightedVote::evaluate` scores zero). -/
structure Admissible (p : BinomialPartitioner) (s : ReplaceStore C) (contribution : Finset C) (level : Nat) : Prop where
  on_level : signersIdentity contribution ⊆ p.levelSet level
  fresh : (signersIdentity contribution).card = 1 →
    findKey (signersIdentity contribution) (s.individualsOn level) = none

inductive Reachable (p : BinomialPartitioner) : ReplaceStore C → Prop
  | new : Reachable p (new p)
  | put {s s' : ReplaceStore C} {contribution : Finset C} {level : Nat} :
    Reachable p s → Admissible signersIdentity p s contribution level →
      put signersIdentity s contribution level = some s' → Reachable p s'

variable {signersIdentity}

omit [DecidableEq C] in
theorem invariant_new (p : BinomialPartitioner) : Invariant signersIdentity p (new p : ReplaceStore C) where
  length_verified := List.length_replicate
  length_individuals := List.length_replicate
  verified_stored l i member := by simp at member
  stored_identity l c identity found := by simp [new] at found
  best_on_level l := by simp [bestIdentity, new]
  verified_in_best l := by simp

omit [DecidableEq C] in
theorem trackIndividual_eq {s : ReplaceStore C} {contribution : Finset C} {identity : Finset Nat} {l : Nat}
    (verifiedAt : l < s.individualVerified.length) (individualsAt : l < s.individualContributions.length)
    (unverified : Disjoint (s.verifiedOn l) identity) (fresh : findKey identity (s.individualsOn l) = none) :
    trackIndividual s contribution identity l = some { s with
      individualVerified := s.individualVerified.set l (s.verifiedOn l ∪ identity)
      individualContributions := s.individualContributions.set l (insertKey identity contribution (s.individualsOn l)) } := by
  simp [trackIndividual, getElem?_individualVerified verifiedAt, getElem?_individualContributions individualsAt,
    Identity.combine_of_disjoint unverified, fresh]

omit [DecidableEq C] in
/-- The tracking step of `put` on a stored state goes through, keeps what is stored, and adds
the identity of an individual contribution to the verified individuals of its level. -/
theorem track_stored {p : BinomialPartitioner} {s : ReplaceStore C} (stored : Stored signersIdentity p s)
    {contribution : Finset C} {l : Nat} (inLevels : l < p.levels)
    (fresh : (signersIdentity contribution).card = 1 →
      findKey (signersIdentity contribution) (s.individualsOn l) = none) :
    ∃ t, (if (signersIdentity contribution).card = 1 then
        trackIndividual s contribution (signersIdentity contribution) l else some s) = some t ∧
      Stored signersIdentity p t ∧ t.bestContribution = s.bestContribution ∧
      (∀ l', l' ≠ l → t.verifiedOn l' = s.verifiedOn l') ∧
      t.verifiedOn l = s.verifiedOn l ∪
        (if (signersIdentity contribution).card = 1 then signersIdentity contribution else ∅) := by
  by_cases single : (signersIdentity contribution).card = 1
  · obtain ⟨j, identity⟩ := Finset.card_eq_one.mp single
    have absent := fresh single
    have unverified : Disjoint (s.verifiedOn l) (signersIdentity contribution) := by
      rw [identity, Finset.disjoint_singleton_right]
      intro member
      obtain ⟨c, found, -⟩ := stored.verified_stored l j member
      rw [identity, found] at absent
      cases absent
    have verifiedAt : l < s.individualVerified.length := stored.length_verified ▸ inLevels
    have individualsAt : l < s.individualContributions.length := stored.length_individuals ▸ inLevels
    refine ⟨{ s with
        individualVerified := s.individualVerified.set l (s.verifiedOn l ∪ signersIdentity contribution)
        individualContributions := s.individualContributions.set l
          (insertKey (signersIdentity contribution) contribution (s.individualsOn l)) },
      by rw [if_pos single, trackIndividual_eq verifiedAt individualsAt unverified absent], ?_, rfl, ?_, ?_⟩
    · constructor
      · simp [stored.length_verified]
      · simp [stored.length_individuals]
      · intro l' i member
        by_cases same : l' = l
        · subst same
          simp only [verifiedOn, individualsOn, List.getElem?_set_self verifiedAt,
            List.getElem?_set_self individualsAt, Option.getD_some, findKey_insertKey] at member ⊢
          rcases Finset.mem_union.mp member with old | new
          · have other : ({i} : Finset Nat) ≠ signersIdentity contribution := by
              intro same
              exact Finset.disjoint_left.mp unverified old (same ▸ Finset.mem_singleton_self i)
            rw [if_neg other]
            exact stored.verified_stored l' i old
          · rw [identity, Finset.mem_singleton] at new
            subst new
            exact ⟨contribution, by rw [if_pos identity.symm], identity⟩
        · simp only [verifiedOn, individualsOn, List.getElem?_set_ne (Ne.symm same)] at member ⊢
          exact stored.verified_stored l' i member
      · exact stored.stored_identity
      · exact stored.best_on_level
    · intro l' other
      simp only [verifiedOn, List.getElem?_set_ne (Ne.symm other)]
    · simp only [verifiedOn, List.getElem?_set_self verifiedAt, Option.getD_some, if_pos single]
  · exact ⟨s, by rw [if_neg single], stored, rfl, fun _ _ => rfl, by rw [if_neg single, Finset.union_empty]⟩

/-- The loop of `check_merge` over verified individuals that the contribution lacks: every
one is found and merged, and the identity grows by exactly those individuals. -/
theorem foldlM_mergeIndividual (faithful : Faithful signersIdentity) {p : BinomialPartitioner}
    {s : ReplaceStore C} (stored : Stored signersIdentity p s) {l : Nat} (inLevels : l < p.levels)
    (ids : List Nat) (distinct : ids.Nodup) (verified : ∀ i ∈ ids, i ∈ s.verifiedOn l) :
    ∀ contribution : Finset C, Disjoint (signersIdentity contribution) ids.toFinset →
      ∃ merged, ids.foldlM (mergeIndividual s l) (contribution, signersIdentity contribution) =
        some (merged, signersIdentity contribution ∪ ids.toFinset) ∧
        signersIdentity merged = signersIdentity contribution ∪ ids.toFinset := by
  induction ids with
  | nil => exact fun contribution _ => ⟨contribution, by simp, by simp⟩
  | cons i rest ih =>
    intro contribution apart
    obtain ⟨individual, found, single⟩ := stored.verified_stored l i (verified i List.mem_cons_self)
    have notIn : i ∉ signersIdentity contribution :=
      Finset.disjoint_right.mp apart (List.mem_toFinset.mpr List.mem_cons_self)
    have combines : Disjoint contribution individual :=
      faithful.disjoint _ _ (by rw [single]; exact Finset.disjoint_singleton_right.mpr notIn)
    have individualsAt : l < s.individualContributions.length := stored.length_individuals ▸ inLevels
    have step : mergeIndividual s l (contribution, signersIdentity contribution) i =
        some (contribution ∪ individual, signersIdentity (contribution ∪ individual)) := by
      rw [faithful.union, single]
      simp [mergeIndividual, getElem?_individualContributions individualsAt, found,
        Contribution.combine_of_disjoint combines, Except.toOption,
        Identity.combine_of_disjoint (Finset.disjoint_singleton_right.mpr notIn)]
    -- the rest of the loop starts from the contribution with `i` merged in
    have grown : signersIdentity (contribution ∪ individual) ∪ rest.toFinset =
        signersIdentity contribution ∪ (i :: rest).toFinset := by
      rw [faithful.union, single, List.toFinset_cons, Finset.insert_eq, Finset.union_assoc]
    have restApart : Disjoint (signersIdentity (contribution ∪ individual)) rest.toFinset := by
      rw [faithful.union, single, Finset.disjoint_union_left, Finset.disjoint_singleton_left, List.mem_toFinset]
      exact ⟨Finset.disjoint_of_subset_right (by simp) apart, (List.nodup_cons.mp distinct).1⟩
    obtain ⟨merged, run, identity⟩ := ih (List.nodup_cons.mp distinct).2
      (fun j member => verified j (List.mem_cons_of_mem i member)) (contribution ∪ individual) restApart
    refine ⟨merged, ?_, identity.trans grown⟩
    rw [List.foldlM_cons, step, Option.bind_eq_bind, Option.bind_some, run, grown]

section CheckMerge

variable {s : ReplaceStore C} {contribution best : Finset C} {identity : Finset Nat} {l : Nat}

theorem checkMerge_of_none (empty : s.bestContribution l = none) :
    checkMerge signersIdentity s contribution l = some (some (contribution, signersIdentity contribution)) := by
  rw [checkMerge, empty]

variable (found : s.bestContribution l = some (best, identity))
include found

theorem checkMerge_of_disjoint (apart : Disjoint contribution best) :
    checkMerge signersIdentity s contribution l =
      some (some (contribution ∪ best, signersIdentity (contribution ∪ best))) := by
  rw [checkMerge, found]
  simp only [Contribution.combine_of_disjoint apart]

variable (overlap : ¬Disjoint contribution best)
include overlap

theorem checkMerge_of_superset (superset : identity ⊆ signersIdentity contribution) :
    checkMerge signersIdentity s contribution l = some (some (contribution, signersIdentity contribution)) := by
  rw [checkMerge, found]
  simp only [Contribution.combine_of_not_disjoint overlap, if_pos superset]

variable (notSuperset : ¬identity ⊆ signersIdentity contribution)
include notSuperset

theorem checkMerge_of_no_gain (verifiedAt : l < s.individualVerified.length)
    (noGain : (s.verifiedOn l \ signersIdentity contribution).card + (signersIdentity contribution).card ≤ identity.card) :
    checkMerge signersIdentity s contribution l = some none := by
  rw [checkMerge, found]
  simp only [Contribution.combine_of_not_disjoint overlap, if_neg notSuperset,
    getElem?_individualVerified verifiedAt, Identity.complement_eq, if_pos noGain]

/-- Where the contribution overlaps the best one and is no superset of it, the verified
individuals it lacks are merged into it when that beats the best. -/
theorem checkMerge_of_gain (faithful : Faithful signersIdentity) {p : BinomialPartitioner}
    (stored : Stored signersIdentity p s) (inLevels : l < p.levels)
    (gain : identity.card < (s.verifiedOn l \ signersIdentity contribution).card + (signersIdentity contribution).card) :
    ∃ merged, checkMerge signersIdentity s contribution l =
        some (some (merged, signersIdentity contribution ∪ s.verifiedOn l)) ∧
      signersIdentity merged = signersIdentity contribution ∪ s.verifiedOn l := by
  have verifiedAt : l < s.individualVerified.length := stored.length_verified ▸ inLevels
  have missing := Finset.sort_nodup (s.verifiedOn l \ signersIdentity contribution) (· ≤ ·)
  obtain ⟨merged, run, merges⟩ := foldlM_mergeIndividual faithful stored inLevels _ missing
    (fun i member => (Finset.mem_sdiff.mp ((Finset.mem_sort _).mp member)).1) contribution
    (by rw [Finset.sort_toFinset]; exact Finset.disjoint_sdiff)
  rw [Finset.sort_toFinset, Finset.union_sdiff_self_eq_union] at run merges
  refine ⟨merged, ?_, merges⟩
  rw [checkMerge, found]
  simp only [Contribution.combine_of_not_disjoint overlap, if_neg notSuperset,
    getElem?_individualVerified verifiedAt, Identity.complement_eq, if_neg (Nat.not_le.mpr gain), run,
    Option.map_some]

end CheckMerge

variable (signersIdentity) in
/-- The strength of a level's best once `check_merge` has seen a contribution, with `verified`
the verified individuals of the level: the contribution alone on an empty level, its union with
the best where the two combine, and otherwise the better of the best and the contribution with
the verified individuals. -/
def mergedSize (s : ReplaceStore C) (contribution : Finset C) (verified : Finset Nat) (l : Nat) : Nat :=
  match s.bestContribution l with
  | none => (signersIdentity contribution).card
  | some (best, identity) =>
    if Disjoint contribution best then (signersIdentity contribution ∪ identity).card
    else max identity.card (signersIdentity contribution ∪ verified).card

/-- What `check_merge` makes of a contribution on its level, run on the store `t` that tracking
left of an invariant store `s`: no improvement only when the verified individuals lie in the
best, and otherwise a best whose identity is its contributors', lies on the level, holds the
verified individuals and is at least as strong as the best before and the contribution; either
way the level's best ends as strong as `mergedSize` says. -/
theorem checkMerge_outcome (faithful : Faithful signersIdentity) {p : BinomialPartitioner}
    {s t : ReplaceStore C} (inv : Invariant signersIdentity p s) (stored : Stored signersIdentity p t)
    (sameBest : t.bestContribution = s.bestContribution) {contribution : Finset C} {l : Nat}
    (inLevels : l < p.levels) (onLevel : signersIdentity contribution ⊆ p.levelSet l)
    (verified : t.verifiedOn l = s.verifiedOn l ∪
      (if (signersIdentity contribution).card = 1 then signersIdentity contribution else ∅)) :
    ∃ r, checkMerge signersIdentity t contribution l = some r ∧
      (r = none → t.verifiedOn l ⊆ s.bestIdentity l ∧
        (signersIdentity contribution).card ≤ (s.bestIdentity l).card) ∧
      (∀ best identity, r = some (best, identity) → identity = signersIdentity best ∧
        identity ⊆ p.levelSet l ∧ t.verifiedOn l ⊆ identity ∧
        (s.bestIdentity l).card ≤ identity.card ∧ (signersIdentity contribution).card ≤ identity.card) ∧
      r.elim (s.bestIdentity l).card (fun best => best.2.card) =
        mergedSize signersIdentity s contribution (t.verifiedOn l) l := by
  have tracked : t.verifiedOn l ⊆ s.verifiedOn l ∪ signersIdentity contribution := by
    rw [verified]
    split_ifs <;> simp
  cases found : s.bestContribution l with
  | none =>
    -- the level was empty, so no individual was verified on it before
    have nothing : s.verifiedOn l = ∅ :=
      Finset.subset_empty.mp (bestIdentity_of_none found ▸ inv.verified_in_best l)
    refine ⟨_, checkMerge_of_none (sameBest ▸ found), by simp, ?_, by simp [mergedSize, found]⟩
    rintro best identity ⟨rfl, rfl⟩
    rw [nothing, Finset.empty_union] at tracked
    simp [bestIdentity_of_none found, onLevel, tracked]
  | some entry =>
    obtain ⟨best, identity⟩ := entry
    have found' : t.bestContribution l = some (best, identity) := sameBest ▸ found
    have isIdentity := inv.stored_identity l best identity found
    have bestOnLevel : identity ⊆ p.levelSet l := bestIdentity_of_eq found ▸ inv.best_on_level l
    have verifiedInBest : s.verifiedOn l ⊆ identity := bestIdentity_of_eq found ▸ inv.verified_in_best l
    have size : (signersIdentity contribution ∪ t.verifiedOn l).card =
        (t.verifiedOn l \ signersIdentity contribution).card + (signersIdentity contribution).card := by
      rw [Finset.card_sdiff_add_card, Finset.union_comm]
    rw [bestIdentity_of_eq found]
    by_cases apart : Disjoint contribution best
    · refine ⟨_, checkMerge_of_disjoint found' apart, by simp, ?_, ?_⟩
      · rintro merged mergedIdentity ⟨rfl, rfl⟩
        rw [faithful.union, ← isIdentity]
        refine ⟨rfl, Finset.union_subset onLevel bestOnLevel, ?_, Finset.card_le_card Finset.subset_union_right,
          Finset.card_le_card Finset.subset_union_left⟩
        exact tracked.trans (Finset.union_subset (verifiedInBest.trans Finset.subset_union_right) Finset.subset_union_left)
      · simp [mergedSize, found, apart, faithful.union, ← isIdentity]
    by_cases superset : identity ⊆ signersIdentity contribution
    · have within : t.verifiedOn l ⊆ signersIdentity contribution :=
        tracked.trans (Finset.union_subset (verifiedInBest.trans superset) le_rfl)
      refine ⟨_, checkMerge_of_superset found' apart superset, by simp, ?_, ?_⟩
      · rintro merged mergedIdentity ⟨rfl, rfl⟩
        exact ⟨rfl, onLevel, within, Finset.card_le_card superset, le_rfl⟩
      · simp only [Option.elim_some, mergedSize, found, if_neg apart, Finset.union_eq_left.mpr within]
        exact (max_eq_right (Finset.card_le_card superset)).symm
    have verifiedAt : l < t.individualVerified.length := stored.length_verified ▸ inLevels
    by_cases noGain : (t.verifiedOn l \ signersIdentity contribution).card + (signersIdentity contribution).card ≤
        identity.card
    · refine ⟨_, checkMerge_of_no_gain found' apart superset verifiedAt noGain, fun _ => ⟨?_, by omega⟩, by simp, ?_⟩
      · -- an individual contribution that overlaps the best has its one identity in it
        rw [verified]
        refine Finset.union_subset verifiedInBest ?_
        split_ifs with single
        · obtain ⟨j, single⟩ := Finset.card_eq_one.mp single
          have meets := mt (faithful.disjoint contribution best) apart
          rw [single, ← isIdentity, Finset.disjoint_singleton_left, not_not] at meets
          rw [single, Finset.singleton_subset_iff]
          exact meets
        · exact Finset.empty_subset _
      · simp only [Option.elim_none, mergedSize, found, if_neg apart]
        omega
    · obtain ⟨merged, run, merges⟩ := checkMerge_of_gain found' apart superset faithful stored inLevels
        (Nat.lt_of_not_le noGain)
      have grows : identity.card < (signersIdentity contribution ∪ t.verifiedOn l).card := by
        omega
      refine ⟨_, run, by simp, ?_, ?_⟩
      · rintro _ _ ⟨rfl, rfl⟩
        refine ⟨merges.symm, Finset.union_subset onLevel ?_, Finset.subset_union_right, grows.le,
          Finset.card_le_card Finset.subset_union_left⟩
        exact tracked.trans (Finset.union_subset (verifiedInBest.trans bestOnLevel) onLevel)
      · simp only [Option.elim_some, mergedSize, found, if_neg apart]
        exact (max_eq_right grows.le).symm

omit [DecidableEq C] in
theorem invariant_of_stored {p : BinomialPartitioner} {s t : ReplaceStore C} (inv : Invariant signersIdentity p s)
    (stored : Stored signersIdentity p t) (sameBest : t.bestContribution = s.bestContribution) {l : Nat}
    (otherVerified : ∀ l', l' ≠ l → t.verifiedOn l' = s.verifiedOn l') (verifiedInBest : t.verifiedOn l ⊆ s.bestIdentity l) :
    Invariant signersIdentity p t := by
  refine ⟨stored, fun l' => ?_⟩
  have best : t.bestIdentity l' = s.bestIdentity l' := by simp only [bestIdentity, sameBest]
  by_cases same : l' = l
  · subst same
    rw [best]
    exact verifiedInBest
  · rw [best, otherVerified l' same]
    exact inv.verified_in_best l'

omit [DecidableEq C] in
theorem invariant_setBest {p : BinomialPartitioner} {s t : ReplaceStore C} (inv : Invariant signersIdentity p s)
    (stored : Stored signersIdentity p t) (sameBest : t.bestContribution = s.bestContribution) {l : Nat}
    (otherVerified : ∀ l', l' ≠ l → t.verifiedOn l' = s.verifiedOn l') {best : Finset C} {identity : Finset Nat}
    (isIdentity : identity = signersIdentity best) (onLevel : identity ⊆ p.levelSet l)
    (verifiedInBest : t.verifiedOn l ⊆ identity) :
    Invariant signersIdentity p (setBest t l (best, identity)) where
  length_verified := stored.length_verified
  length_individuals := stored.length_individuals
  verified_stored := stored.verified_stored
  stored_identity l' best' identity' found := by
    rw [setBest_bestContribution] at found
    split_ifs at found
    · cases found
      exact isIdentity
    · exact stored.stored_identity l' best' identity' found
  best_on_level l' := by
    rw [bestIdentity_setBest]
    split_ifs with same
    · exact same ▸ onLevel
    · exact stored.best_on_level l'
  verified_in_best l' := by
    rw [bestIdentity_setBest]
    split_ifs with same
    · exact same ▸ verifiedInBest
    · have best : t.bestIdentity l' = s.bestIdentity l' := by simp only [bestIdentity, sameBest]
      rw [verifiedOn_setBest, best, otherVerified l' same]
      exact inv.verified_in_best l'

/-- Tracking an individual contribution adds nothing to the contribution with the verified
individuals. -/
theorem mergedSize_tracked (s : ReplaceStore C) (contribution : Finset C) (verified : Finset Nat) (l : Nat) :
    mergedSize signersIdentity s contribution (verified ∪
      (if (signersIdentity contribution).card = 1 then signersIdentity contribution else ∅)) l =
      mergedSize signersIdentity s contribution verified l := by
  have same : signersIdentity contribution ∪ (verified ∪
      (if (signersIdentity contribution).card = 1 then signersIdentity contribution else ∅)) =
      signersIdentity contribution ∪ verified := by
    split_ifs
    · rw [Finset.union_comm verified, ← Finset.union_assoc, Finset.union_self]
    · rw [Finset.union_empty]
  simp only [mergedSize, same]

/-- A contribution of no identity leaves the best of an invariant store as it is. -/
theorem mergedSize_of_empty {p : BinomialPartitioner} {s : ReplaceStore C} (inv : Invariant signersIdentity p s)
    {contribution : Finset C} (empty : signersIdentity contribution = ∅) (l : Nat) :
    mergedSize signersIdentity s contribution (s.verifiedOn l) l = (s.bestIdentity l).card := by
  unfold mergedSize
  cases found : s.bestContribution l with
  | none => simp [empty, bestIdentity_of_none found]
  | some entry =>
    obtain ⟨best, identity⟩ := entry
    have verifiedInBest : s.verifiedOn l ⊆ identity := bestIdentity_of_eq found ▸ inv.verified_in_best l
    simp only [empty, Finset.empty_union, bestIdentity_of_eq found]
    split_ifs
    · rfl
    · exact max_eq_left (Finset.card_le_card verifiedInBest)

/-- One `put` on an invariant store: it does not panic, keeps the invariant, weakens no level's
best, leaves the level's best at least as strong as the contribution, and exactly as strong as
`mergedSize` of the verified individuals before the put. -/
theorem put_invariant (faithful : Faithful signersIdentity) {p : BinomialPartitioner} {s : ReplaceStore C}
    (inv : Invariant signersIdentity p s) {contribution : Finset C} {l : Nat}
    (admissible : Admissible signersIdentity p s contribution l) :
    ∃ s', put signersIdentity s contribution l = some s' ∧ Invariant signersIdentity p s' ∧
      (∀ l', (s.bestIdentity l').card ≤ (s'.bestIdentity l').card) ∧
      (signersIdentity contribution).card ≤ (s'.bestIdentity l).card ∧
      (s'.bestIdentity l).card = mergedSize signersIdentity s contribution (s.verifiedOn l) l := by
  by_cases empty : signersIdentity contribution = ∅
  · exact ⟨s, by simp [put, empty], inv, fun _ => le_rfl, by simp [empty], (mergedSize_of_empty inv empty l).symm⟩
  have inLevels : l < p.levels := by
    by_contra beyond
    have := admissible.on_level
    rw [p.levelSet_of_levels_le (Nat.le_of_not_lt beyond), Finset.subset_empty] at this
    exact empty this
  obtain ⟨t, tracked, stored, sameBest, otherVerified, verified⟩ :=
    track_stored inv.toStored inLevels admissible.fresh
  obtain ⟨r, merged, noImprovement, improvement, size⟩ :=
    checkMerge_outcome faithful inv stored sameBest inLevels admissible.on_level verified
  rw [verified, mergedSize_tracked] at size
  have bestOf : ∀ l', t.bestIdentity l' = s.bestIdentity l' := by simp only [bestIdentity, sameBest, implies_true]
  cases r with
  | none =>
    obtain ⟨verifiedInBest, strong⟩ := noImprovement rfl
    refine ⟨t, by simp [put, empty, tracked, merged], invariant_of_stored inv stored sameBest otherVerified verifiedInBest,
      fun l' => by rw [bestOf], by rw [bestOf]; exact strong, by rw [bestOf]; exact size⟩
  | some entry =>
    obtain ⟨best, identity⟩ := entry
    obtain ⟨isIdentity, onLevel, verifiedInBest, stronger, strong⟩ := improvement best identity rfl
    refine ⟨setBest t l (best, identity), by simp [put, empty, tracked, merged],
      invariant_setBest inv stored sameBest otherVerified isIdentity onLevel verifiedInBest, fun l' => ?_, ?_, ?_⟩
    · rw [bestIdentity_setBest]
      split_ifs with same
      · exact same ▸ stronger
      · rw [bestOf]
    · rw [bestIdentity_setBest, if_pos rfl]
      exact strong
    · rw [bestIdentity_setBest, if_pos rfl]
      exact size

theorem reachable_invariant (faithful : Faithful signersIdentity) {p : BinomialPartitioner} {s : ReplaceStore C}
    (reachable : Reachable signersIdentity p s) : Invariant signersIdentity p s := by
  induction reachable with
  | new => exact invariant_new p
  | put _ admissible step ih =>
    obtain ⟨s', put, inv', -⟩ := put_invariant faithful ih admissible
    rw [step, Option.some.injEq] at put
    exact put ▸ inv'

theorem mem_foldl_union (x : C) (rest : List (Finset C)) :
    ∀ acc, x ∈ rest.foldl (· ∪ ·) acc ↔ x ∈ acc ∨ ∃ c ∈ rest, x ∈ c := by
  induction rest with
  | nil => simp
  | cons c rest ih =>
    intro acc
    rw [List.foldl_cons, ih, Finset.mem_union]
    simp only [List.mem_cons, exists_eq_or_imp]
    tauto

/-- The loop of `BinomialPartitioner::combine` over contributions that pairwise do not overlap,
nor overlap the first: it never panics and unites them. -/
theorem foldlM_combine (rest : List (Finset C)) (apart : rest.Pairwise Disjoint) :
    ∀ acc, (∀ c ∈ rest, Disjoint acc c) →
      rest.foldlM (fun combined c => (Contribution.combine combined c).toOption) acc =
        some (rest.foldl (· ∪ ·) acc) := by
  induction rest with
  | nil => exact fun _ _ => rfl
  | cons c rest ih =>
    intro acc accApart
    have first : Disjoint acc c := accApart c List.mem_cons_self
    rw [List.foldlM_cons, Contribution.combine_of_disjoint first, List.foldl_cons]
    refine ih (List.pairwise_cons.mp apart).2 (acc ∪ c) fun d member => ?_
    exact Finset.disjoint_union_left.mpr
      ⟨accApart d (List.mem_cons_of_mem c member), (List.pairwise_cons.mp apart).1 d member⟩

/-- The best contributions of two levels do not overlap: their identities lie on the two
levels, which are disjoint. -/
theorem disjoint_bestContributors (faithful : Faithful signersIdentity) {p : BinomialPartitioner}
    {s : ReplaceStore C} (inv : Invariant signersIdentity p s) {l l' : Nat} (differ : l ≠ l') :
    Disjoint (s.bestContributors l) (s.bestContributors l') := by
  unfold bestContributors
  cases found : s.bestContribution l with
  | none => exact Finset.disjoint_empty_left _
  | some entry =>
    cases found' : s.bestContribution l' with
    | none => exact Finset.disjoint_empty_right _
    | some entry' =>
      obtain ⟨best, identity⟩ := entry
      obtain ⟨best', identity'⟩ := entry'
      apply faithful.disjoint
      rw [← inv.stored_identity l _ _ found, ← inv.stored_identity l' _ _ found']
      have onLevel := bestIdentity_of_eq found ▸ inv.best_on_level l
      have onLevel' := bestIdentity_of_eq found' ▸ inv.best_on_level l'
      exact Finset.disjoint_of_subset_left onLevel
        (Finset.disjoint_of_subset_right onLevel' (p.disjoint_levelSet differ))

omit [DecidableEq C] in
theorem bestContributors_of_mem {s : ReplaceStore C} {l : Nat} {best : Finset C}
    (member : best ∈ (s.bestContribution l).map Prod.fst) : s.bestContributors l = best := by
  obtain ⟨⟨best', identity⟩, found, rfl⟩ := Option.map_eq_some_iff.mp member
  simp [bestContributors, found]

theorem mem_biUnion_bestContributors (s : ReplaceStore C) (k : Nat) (x : C) :
    x ∈ (Finset.range (k + 1)).biUnion s.bestContributors ↔
      ∃ c ∈ (List.range (k + 1)).filterMap (fun l => (s.bestContribution l).map Prod.fst), x ∈ c := by
  simp only [Finset.mem_biUnion, Finset.mem_range, List.mem_filterMap, List.mem_range]
  constructor
  · rintro ⟨l, below, member⟩
    unfold bestContributors at member
    cases found : s.bestContribution l with
    | none => simp [found] at member
    | some entry => exact ⟨entry.1, ⟨l, below, by simp [found]⟩, by simpa [found] using member⟩
  · rintro ⟨c, ⟨l, below, found⟩, member⟩
    exact ⟨l, below, bestContributors_of_mem found ▸ member⟩

/-- `combined(k)` on an invariant store never panics, and yields the union of the best
contributions of the levels up to `k`, or nothing where there is none. -/
theorem combined_eq_union (faithful : Faithful signersIdentity) {p : BinomialPartitioner}
    {s : ReplaceStore C} (inv : Invariant signersIdentity p s) (k : Nat) :
    ∃ r, combined s k = some r ∧ r.getD ∅ = (Finset.range (k + 1)).biUnion s.bestContributors := by
  have apart : ((List.range (k + 1)).filterMap fun l => (s.bestContribution l).map Prod.fst).Pairwise Disjoint := by
    refine List.Pairwise.filterMap _ (fun l l' differ best found best' found' => ?_) List.nodup_range
    rw [← bestContributors_of_mem found, ← bestContributors_of_mem found']
    exact disjoint_bestContributors faithful inv differ
  have members := mem_biUnion_bestContributors s k
  unfold combined
  generalize (List.range (k + 1)).filterMap (fun l => (s.bestContribution l).map Prod.fst) = bests at apart members
  cases bests with
  | nil =>
    refine ⟨none, rfl, ?_⟩
    ext x
    simp [members]
  | cons first rest =>
    obtain ⟨firstApart, restApart⟩ := List.pairwise_cons.mp apart
    refine ⟨some (rest.foldl (· ∪ ·) first), ?_, ?_⟩
    · rw [BinomialPartitioner.combine, foldlM_combine rest restApart first firstApart, Option.map_some]
    · ext x
      rw [members, Option.getD_some, mem_foldl_union]
      simp

/-- A contribution that stands for more than one identity, put into a new store, is taken as the
best of its empty level as it is. -/
theorem put_new_of_many {p : BinomialPartitioner} {contribution : Finset C} {l : Nat}
    (many : 1 < (signersIdentity contribution).card) :
    put signersIdentity (new p) contribution l =
      some (setBest (new p) l (contribution, signersIdentity contribution)) := by
  have nonempty : signersIdentity contribution ≠ ∅ :=
    Finset.nonempty_iff_ne_empty.mp (Finset.card_pos.mp (by omega))
  rw [put, if_neg nonempty, if_neg (by omega), Option.bind_some, checkMerge_of_none rfl]
  rfl

omit [DecidableEq C] in
theorem filterMap_range_single {α : Type} (a : α) {l k : Nat} (le : l ≤ k) :
    (List.range (k + 1)).filterMap (fun l' => if l' = l then some a else none) = [a] := by
  induction k, le using Nat.le_induction with
  | base =>
    have below : ∀ l' ∈ List.range l, (if l' = l then some a else none) = none :=
      fun l' member => if_neg (List.mem_range.mp member).ne
    rw [List.range_succ, List.filterMap_append, List.filterMap_eq_nil_iff.mpr below]
    simp
  | succ k le ih =>
    have above : (if k + 1 = l then some a else none) = none := if_neg (by omega)
    rw [List.range_succ, List.filterMap_append, ih, List.filterMap_cons, above, List.filterMap_nil]
    rfl

theorem combined_setBest_new {p : BinomialPartitioner} {l k : Nat} (best : Finset C × Finset Nat)
    (le : l ≤ k) : combined (setBest (new p) l best) k = some (some best.1) := by
  have bests : (List.range (k + 1)).filterMap (fun l' => ((setBest (new p) l best).bestContribution l').map Prod.fst) =
      [best.1] := by
    simp only [setBest_bestContribution, apply_ite (Option.map Prod.fst), Option.map_some]
    exact filterMap_range_single best.1 le
  rw [combined, bests]
  rfl

/-- Where a contributor `x` stands for no identity, two individual contributions of distinct
peers `i` and `j` of a level that both carry `x` break the store: the first becomes the best of
the empty level, and the second, no superset of it, has it merged in as the verified individual
it lacks, which overlaps it in `x` and panics. -/
theorem put_panics_of_unattributed {p : BinomialPartitioner} {l i j x : Nat} (hi : i ∈ p.levelSet l)
    (hj : j ∈ p.levelSet l) (differ : i ≠ j) (xi : x ≠ i) (xj : x ≠ j) :
    ∃ s, Reachable (fun a : Finset Nat => a.erase x) p s ∧ Admissible (fun a : Finset Nat => a.erase x) p s {x, j} l ∧
      put (fun a : Finset Nat => a.erase x) s {x, j} l = none := by
  have inLevels : l < p.levels := by
    by_contra beyond
    rw [p.levelSet_of_levels_le (Nat.le_of_not_lt beyond)] at hi
    simp at hi
  have identityI : ({x, i} : Finset Nat).erase x = {i} := Finset.erase_insert (by simpa using xi)
  have identityJ : ({x, j} : Finset Nat).erase x = {j} := Finset.erase_insert (by simpa using xj)
  have admissibleI : Admissible (fun a : Finset Nat => a.erase x) p (new p) {x, i} l :=
    ⟨by simpa [identityI] using hi, fun _ => by simp [individualsOn, new]⟩
  -- the first contribution becomes the best of the empty level and is tracked as an individual
  let s : ReplaceStore Nat := setBest ⟨0, (List.replicate p.levels ∅).set l {i},
    (List.replicate p.levels []).set l [({i}, {x, i})], fun _ => none⟩ l ({x, i}, {i})
  have first : put (fun a : Finset Nat => a.erase x) (new p) {x, i} l = some s := by
    simp [s, put, identityI, trackIndividual, new, inLevels, Identity.combine, checkMerge, insertKey, modifyKey]
  refine ⟨s, .put .new admissibleI first, ⟨by simpa [identityJ] using hj, fun _ => ?_⟩, ?_⟩
  · simp [s, individualsOn, inLevels, identityJ, findKey, differ]
  · -- the second is no superset of the first, so the first is merged into it as the verified
    -- individual it lacks, and the two share `x`
    have lacks : Identity.complement {j} {j, i} = {i} := by
      rw [Identity.complement_eq]
      ext k
      simp only [Finset.mem_sdiff, Finset.mem_insert, Finset.mem_singleton]
      omega
    simp [s, put, identityJ, trackIndividual, inLevels, Identity.combine, checkMerge, insertKey, modifyKey,
      setBest, differ, lacks, mergeIndividual, findKey, Contribution.combine, Except.toOption]

/-- The store invariants of a Handel node, on every store reachable by admissible `put`s
under a faithful registry: the identity stored with each best contribution is that of its
contributors; the verified individuals of a level lie in its best; `combined(k)` never panics
and unites the best contributions of the levels up to `k`, which pairwise do not overlap; and a
further admissible `put` never panics, weakens no level's best and leaves the level's best at
least as strong as the contribution. -/
theorem replace_store_invariants (faithful : Faithful signersIdentity) {p : BinomialPartitioner}
    {s : ReplaceStore C} (reachable : Reachable signersIdentity p s) :
    (∀ l best identity, s.bestContribution l = some (best, identity) → identity = signersIdentity best) ∧
    (∀ l, s.verifiedOn l ⊆ s.bestIdentity l) ∧
    (∀ k, ∃ r, combined s k = some r ∧ r.getD ∅ = (Finset.range (k + 1)).biUnion s.bestContributors) ∧
    (∀ l l', l ≠ l' → Disjoint (s.bestContributors l) (s.bestContributors l')) ∧
    ∀ contribution l, Admissible signersIdentity p s contribution l →
      ∃ s', put signersIdentity s contribution l = some s' ∧
        (∀ l', (s.bestIdentity l').card ≤ (s'.bestIdentity l').card) ∧
        (signersIdentity contribution).card ≤ (s'.bestIdentity l).card := by
  have inv := reachable_invariant faithful reachable
  refine ⟨inv.stored_identity, inv.verified_in_best, combined_eq_union faithful inv,
    fun l l' differ => disjoint_bestContributors faithful inv differ, fun contribution l admissible => ?_⟩
  obtain ⟨s', put, -, monotone, strong, -⟩ := put_invariant faithful inv admissible
  exact ⟨s', put, monotone, strong⟩

end ReplaceStore

end Registry

/-- Node 3 of four identities, whose level 2 is the identities 0 and 1. -/
def nodeThreeOfFour : BinomialPartitioner := ⟨3, 4, 3, by decide, by decide⟩

theorem zero_mem_levelTwo : 0 ∈ nodeThreeOfFour.levelSet 2 := (nodeThreeOfFour.mem_levelSet_iff 2 0).mpr (by decide)

theorem one_mem_levelTwo : 1 ∈ nodeThreeOfFour.levelSet 2 := (nodeThreeOfFour.mem_levelSet_iff 2 1).mpr (by decide)

theorem identity_registry_faithful : Faithful (fun contributors : Finset Nat => contributors) :=
  ⟨fun _ _ => rfl, fun _ _ apart => apart⟩

namespace ReplaceStore

theorem pair_put_into_new_store :
    ∃ s', put (fun contributors : Finset Nat => contributors) (new nodeThreeOfFour) {0, 1} 2 = some s' ∧
      (∀ l', ((new nodeThreeOfFour : ReplaceStore Nat).bestIdentity l').card ≤ (s'.bestIdentity l').card) ∧
      ({0, 1} : Finset Nat).card ≤ (s'.bestIdentity 2).card :=
  (replace_store_invariants identity_registry_faithful .new).2.2.2.2 {0, 1} 2
    ⟨Finset.insert_subset zero_mem_levelTwo (Finset.singleton_subset_iff.mpr one_mem_levelTwo),
      fun two => absurd two (by decide)⟩

/-- A registry that counts contributor 5 for no identity still maps unions to unions, yet two
admissible individual contributions that both carry contributor 5 make `put` panic. -/
theorem unattributed_contributor_breaks_store :
    (∀ a b : Finset Nat, (a ∪ b).erase 5 = a.erase 5 ∪ b.erase 5) ∧
    ∃ s, Reachable (fun a : Finset Nat => a.erase 5) nodeThreeOfFour s ∧
      Admissible (fun a : Finset Nat => a.erase 5) nodeThreeOfFour s {5, 1} 2 ∧
      put (fun a : Finset Nat => a.erase 5) s {5, 1} 2 = none :=
  ⟨fun a b => Finset.erase_union_distrib a b 5,
    put_panics_of_unattributed zero_mem_levelTwo one_mem_levelTwo (by decide) (by decide) (by decide)⟩

end ReplaceStore

end Handel

end Albatross
