import Albatross.Primitives.SlotsAllocation
import Albatross.Lib.OptionList

/- `ValidatorRegistry::signers_identity` (validator/src/aggregation/registry.rs): the bands
   of a set of signing slots, kept only when the slots are exactly the slots of those bands.
   A bit set is its set of members here, as the identities of the Handel modules are. -/
namespace Albatross

namespace Validators

variable {K : Type}

/-- `ValidatorRegistry::get_slots`. The bands it is given come from `get_band_from_slot`,
which returns only indices of `vs`. -/
def getSlots (vs : Validators K) (idx : Nat) : Finset Nat :=
  match vs[idx]? with
  | some v => Finset.Ico v.slotsStart v.slotsEnd
  | none => ∅

/-- `ValidatorRegistry::signers_identity`; each slot is cast to `u16`, and `none` is a panic. -/
def signersIdentity (vs : Validators K) (slots : Finset Nat) : Option (Finset Nat) :=
  if slots = ∅ then some ∅
  else
    match (slots.sort (· ≤ ·)).mapM fun slot => getBandFromSlot vs (slot % 2 ^ 16) with
    | none => none
    | some bands =>
      let ids := bands.toFinset
      if ids = ∅ then some ∅
      else if ids.biUnion (getSlots vs) ≠ slots then some ∅
      else some ids

theorem mem_getSlots_iff (vs : Validators K) {slot band : Nat} :
    slot ∈ getSlots vs band ↔ ∃ v : Validator K, vs[band]? = some v ∧ v.slotsStart ≤ slot ∧ slot < v.slotsEnd := by
  unfold getSlots
  cases vs[band]? with
  | none => simp
  | some v => simp

section Layout

variable {vs : Validators K} (layout : Partition 0 Policy.SLOTS vs)
  (nonempty : ∀ v ∈ vs, v.slotsStart < v.slotsEnd)
include layout nonempty

theorem getBandFromSlot_of_mem_getSlots {slot band : Nat} (member : slot ∈ getSlots vs band) :
    slot < Policy.SLOTS ∧ getBandFromSlot vs slot = some band := by
  obtain ⟨w, atBand, lower, upper⟩ := (mem_getSlots_iff vs).mp member
  have inRange : slot < Policy.SLOTS := by
    have := (layout.bounds w (List.mem_of_getElem? atBand)).2
    omega
  obtain ⟨owner, v, found, -, -, -, unique⟩ := getBandFromSlot_owner layout nonempty inRange
  rw [found, unique band w atBand lower upper]
  exact ⟨inRange, rfl⟩

omit layout in
theorem getSlots_nonempty {band : Nat} (inside : band < vs.length) : (getSlots vs band).Nonempty := by
  have found : vs[band]? = some vs[band] := List.getElem?_eq_getElem inside
  have := nonempty vs[band] (List.getElem_mem inside)
  exact ⟨vs[band].slotsStart, (mem_getSlots_iff vs).mpr ⟨_, found, le_refl _, this⟩⟩

/-- On slots below `SLOTS` the search runs through, and the ids are the bands that hold one
of the slots. -/
theorem bands_of_slots {slots : Finset Nat} (inRange : ∀ slot ∈ slots, slot < Policy.SLOTS) :
    ∃ bands, ((slots.sort (· ≤ ·)).mapM fun slot => getBandFromSlot vs (slot % 2 ^ 16)) = some bands ∧
      ∀ band, band ∈ bands.toFinset ↔ ∃ slot ∈ slots, slot ∈ getSlots vs band := by
  have small : ∀ slot ∈ slots, slot % 2 ^ 16 = slot := fun slot member =>
    Nat.mod_eq_of_lt (lt_trans (inRange slot member) (by decide))
  obtain ⟨bands, run, members⟩ := mapM_eq_some_of_isSome (slots.sort (· ≤ ·)) (f := fun slot => getBandFromSlot vs (slot % 2 ^ 16))
    (by
      intro slot member
      rw [Finset.mem_sort] at member
      obtain ⟨band, v, found, -⟩ := getBandFromSlot_owner layout nonempty (inRange slot member)
      rw [small slot member, found]
      rfl)
  refine ⟨bands, run, fun band => ?_⟩
  rw [List.mem_toFinset, members]
  constructor
  · rintro ⟨slot, member, found⟩
    rw [Finset.mem_sort] at member
    rw [small slot member] at found
    obtain ⟨owner, v, owned, atOwner, lower, upper, -⟩ := getBandFromSlot_owner layout nonempty (inRange slot member)
    rw [owned, Option.some.injEq] at found
    subst found
    exact ⟨slot, member, (mem_getSlots_iff vs).mpr ⟨v, atOwner, lower, upper⟩⟩
  · rintro ⟨slot, member, inBand⟩
    refine ⟨slot, (Finset.mem_sort _).mpr member, ?_⟩
    rw [small slot member]
    exact (getBandFromSlot_of_mem_getSlots layout nonempty inBand).2

theorem signersIdentity_of_union {bands : Finset Nat} (inside : ∀ band ∈ bands, band < vs.length) :
    signersIdentity vs (bands.biUnion (getSlots vs)) = some bands := by
  by_cases empty : bands = ∅
  · subst empty
    simp [signersIdentity]
  obtain ⟨first, chosen⟩ := Finset.nonempty_iff_ne_empty.mpr empty
  obtain ⟨slot, inFirst⟩ := getSlots_nonempty nonempty (inside first chosen)
  have slotsNonempty : bands.biUnion (getSlots vs) ≠ ∅ :=
    Finset.nonempty_iff_ne_empty.mp ⟨slot, Finset.mem_biUnion.mpr ⟨first, chosen, inFirst⟩⟩
  have inRange : ∀ slot ∈ bands.biUnion (getSlots vs), slot < Policy.SLOTS := by
    intro slot member
    obtain ⟨band, -, inBand⟩ := Finset.mem_biUnion.mp member
    exact (getBandFromSlot_of_mem_getSlots layout nonempty inBand).1
  obtain ⟨found, run, members⟩ := bands_of_slots layout nonempty inRange
  -- the bands found are those given: a slot of a given band is found in that band only
  have ids : found.toFinset = bands := by
    ext band
    rw [members]
    constructor
    · rintro ⟨slot, member, inBand⟩
      obtain ⟨given, isGiven, inGiven⟩ := Finset.mem_biUnion.mp member
      have atBand := (getBandFromSlot_of_mem_getSlots layout nonempty inBand).2
      rw [(getBandFromSlot_of_mem_getSlots layout nonempty inGiven).2, Option.some.injEq] at atBand
      exact atBand ▸ isGiven
    · intro isGiven
      obtain ⟨slot, inBand⟩ := getSlots_nonempty nonempty (inside band isGiven)
      exact ⟨slot, Finset.mem_biUnion.mpr ⟨band, isGiven, inBand⟩, inBand⟩
  rw [signersIdentity, if_neg slotsNonempty, run]
  simp only [ids, if_neg empty, ne_eq, not_true_eq_false, if_false]

theorem signersIdentity_of_not_union {slots : Finset Nat} (inRange : ∀ slot ∈ slots, slot < Policy.SLOTS)
    (notUnion : ∀ bands : Finset Nat, bands.biUnion (getSlots vs) ≠ slots) :
    signersIdentity vs slots = some ∅ := by
  by_cases empty : slots = ∅
  · rw [signersIdentity, if_pos empty]
  obtain ⟨found, run, -⟩ := bands_of_slots layout nonempty inRange
  rw [signersIdentity, if_neg empty, run]
  simp only
  split_ifs with noIds mismatch
  · rfl
  · rfl
  · exact absurd (not_not.mp mismatch) (notUnion found.toFinset)

/-- On slots below `SLOTS`, `signers_identity` returns the bands whose slots the slots are
exactly, and the empty identity when they are not the slots of any bands. -/
theorem signers_identity_on_slots :
    (∀ bands : Finset Nat, (∀ band ∈ bands, band < vs.length) →
      signersIdentity vs (bands.biUnion (getSlots vs)) = some bands) ∧
    ∀ slots : Finset Nat, (∀ slot ∈ slots, slot < Policy.SLOTS) →
      (∀ bands : Finset Nat, bands.biUnion (getSlots vs) ≠ slots) → signersIdentity vs slots = some ∅ :=
  ⟨fun _ inside => signersIdentity_of_union layout nonempty inside,
    fun _ inRange notUnion => signersIdentity_of_not_union layout nonempty inRange notUnion⟩

omit layout nonempty in
theorem two_bands_first_band_identity :
    signersIdentity twoBands (({0} : Finset Nat).biUnion (getSlots twoBands)) = some {0} := by
  have built := buildFrom_partition [(0, 200), (1, 312)] (by decide) 0
  have layout : Partition 0 Policy.SLOTS twoBands := built.1
  exact (signers_identity_on_slots layout built.2).1 {0} (by decide)

end Layout

end Validators

end Albatross
