import Albatross.Policy

/- Validators and their slot bands (primitives/src/slots_allocation.rs). A
   validator owns the u16 slot range `start..end`; voting keys are the BLS keys
   after `uncompress`, which `voting_keys` unwraps. Addresses and Schnorr signing
   keys are not read by the functions modelled here. -/
namespace Albatross

structure Validator (K : Type) where
  votingKey : K
  slotsStart : Nat
  slotsEnd : Nat
  deriving DecidableEq, Repr

/-- `Validator::num_slots`: the length of the range, 0 when it is empty. -/
def Validator.numSlots {K : Type} (v : Validator K) : Nat := v.slotsEnd - v.slotsStart

abbrev Validators (K : Type) := List (Validator K)

namespace Validators

variable {K : Type}

/-- `voting_keys`: one key per slot, in slot order. -/
def votingKeys (vs : Validators K) : List K :=
  vs.flatMap fun v => List.replicate v.numSlots v.votingKey

/-- One step of the pivot search of `get_band_from_slot`. `none` is a panic: an
    index past the last validator, or a pivot below zero. -/
def bandSearch (vs : Validators K) (slot : Nat) : Nat → Nat → Nat → Option Nat
  | 0, _, _ => none
  | fuel + 1, pivot, lastPivot =>
    let pivotDiff := if pivot < lastPivot then lastPivot - pivot else pivot - lastPivot
    match vs[pivot]? with
    | none => none
    | some v =>
      if slot < v.slotsStart then
        if pivot < max (pivotDiff / 2) 1 then none
        else bandSearch vs slot fuel (pivot - max (pivotDiff / 2) 1) pivot
      else if v.slotsEnd ≤ slot then
        bandSearch vs slot fuel (pivot + max (pivotDiff / 2) 1) pivot
      else some pivot

/-- `get_band_from_slot`, `none` when it panics. The source loops without bound;
    the search ends within `vs.length` rounds on every band layout that
    `ValidatorsBuilder::build` produces, which is the fuel given here. -/
def getBandFromSlot (vs : Validators K) (slot : Nat) : Option Nat :=
  if slot < Policy.SLOTS then bandSearch vs slot vs.length (vs.length / 2) 0 else none

def getValidatorBySlotNumber (vs : Validators K) (slot : Nat) : Option (Validator K) :=
  (getBandFromSlot vs slot).bind fun band => vs[band]?

/-- Slot bands that are consecutive from `start` and end exactly at `stop`. -/
inductive Partition : Nat → Nat → Validators K → Prop where
  | nil (stop : Nat) : Partition stop stop []
  | cons {start stop : Nat} {v : Validator K} {rest : Validators K}
      (first : v.slotsStart = start) (valid : v.slotsStart ≤ v.slotsEnd)
      (tail : Partition v.slotsEnd stop rest) : Partition start stop (v :: rest)

theorem partition_bounds_le {start stop : Nat} {vs : Validators K}
    (p : Partition start stop vs) : start ≤ stop := by
  induction p with
  | nil => omega
  | cons first valid tail ih => omega

theorem partition_votingKeys_length {start stop : Nat} {vs : Validators K}
    (p : Partition start stop vs) : (votingKeys vs).length = stop - start := by
  induction p with
  | nil => simp [votingKeys]
  | @cons start stop v rest first valid tail ih =>
    have ends := partition_bounds_le tail
    simp only [votingKeys, List.flatMap_cons, List.length_append, List.length_replicate] at ih ⊢
    rw [ih, Validator.numSlots]
    omega

theorem Partition.bounds {start stop : Nat} {vs : Validators K} (p : Partition start stop vs) :
    ∀ w ∈ vs, start ≤ w.slotsStart ∧ w.slotsEnd ≤ stop := by
  induction p with
  | nil => simp
  | @cons start stop v rest first valid tail ih =>
    intro w member
    rcases List.mem_cons.mp member with rfl | later
    · exact ⟨first.ge, partition_bounds_le tail⟩
    · have := ih w later
      omega

/-- Bands come in slot order: an earlier band ends where or before a later one starts. -/
theorem Partition.ordered {start stop : Nat} {vs : Validators K} (p : Partition start stop vs) :
    ∀ {i j : Nat} {v w : Validator K}, i < j → vs[i]? = some v → vs[j]? = some w →
      v.slotsEnd ≤ w.slotsStart := by
  induction p with
  | nil => intro i j v w _ found; simp at found
  | @cons start stop u rest first valid tail ih =>
    intro i j v w before atI atJ
    obtain ⟨j, rfl⟩ : ∃ j', j = j' + 1 := ⟨j - 1, by omega⟩
    rw [List.getElem?_cons_succ] at atJ
    cases i with
    | zero =>
      rw [List.getElem?_cons_zero, Option.some.injEq] at atI
      subst atI
      exact (tail.bounds w (List.mem_of_getElem? atJ)).1
    | succ i =>
      rw [List.getElem?_cons_succ] at atI
      exact ih (by omega) atI atJ

theorem Partition.covers {start stop : Nat} {vs : Validators K} (p : Partition start stop vs) {slot : Nat}
    (above : start ≤ slot) (below : slot < stop) :
    ∃ t : Nat, ∃ v : Validator K, vs[t]? = some v ∧ v.slotsStart ≤ slot ∧ slot < v.slotsEnd := by
  induction p with
  | nil => omega
  | @cons start stop u rest first valid tail ih =>
    by_cases here : slot < u.slotsEnd
    · exact ⟨0, u, rfl, by omega, here⟩
    · obtain ⟨t, v, found, inV⟩ := ih (by omega) below
      exact ⟨t + 1, v, found, inV⟩

/-- Against the band `t` that owns `slot`, the two tests of the search read off on which
side of `t` the pivot lies, when no band is empty. -/
theorem Partition.compare_owner {start stop : Nat} {vs : Validators K} (p : Partition start stop vs)
    (nonempty : ∀ v ∈ vs, v.slotsStart < v.slotsEnd) {slot t pivot : Nat} {u v : Validator K}
    (owner : vs[t]? = some u) (inU : u.slotsStart ≤ slot ∧ slot < u.slotsEnd) (found : vs[pivot]? = some v) :
    (slot < v.slotsStart ↔ t < pivot) ∧ (v.slotsEnd ≤ slot ↔ pivot < t) := by
  have vNonempty := nonempty v (List.mem_of_getElem? found)
  rcases Nat.lt_trichotomy t pivot with lower | same | higher
  · have := p.ordered lower owner found
    omega
  · subst same
    rw [owner, Option.some.injEq] at found
    subst found
    omega
  · have := p.ordered higher found owner
    omega

/-- The pivot search toward the owner `t`. With `step` the next step, the pivot keeps room
for `2 * step - 2` on both sides, so no step leaves the validators or goes below zero, and
`|t - pivot| + 2 * step - 2` drops each round, so fuel above it suffices. The induction is on
the fuel. -/
theorem bandSearch_eq_owner {vs : Validators K} {slot t : Nat}
    (compares : ∀ pivot v, vs[pivot]? = some v → (slot < v.slotsStart ↔ t < pivot) ∧ (v.slotsEnd ≤ slot ↔ pivot < t))
    (owned : t < vs.length) :
    ∀ fuel pivot lastPivot step,
      step = max ((if pivot < lastPivot then lastPivot - pivot else pivot - lastPivot) / 2) 1 →
      2 * step - 2 ≤ pivot → pivot + 2 * step - 2 < vs.length →
      (t - pivot) + (pivot - t) + 2 * step - 2 < fuel →
      bandSearch vs slot fuel pivot lastPivot = some t := by
  intro fuel
  induction fuel with
  | zero => intros; omega
  | succ fuel ih =>
    intro pivot lastPivot step hstep room roomAbove rounds
    have positive : 1 ≤ step := hstep ▸ le_max_right _ _
    have halving := le_max_left (step / 2) 1
    have halvingOne := le_max_right (step / 2) 1
    have halvingChoice := max_choice (step / 2) 1
    obtain ⟨v, found⟩ : ∃ v, vs[pivot]? = some v := ⟨_, List.getElem?_eq_getElem (by omega)⟩
    obtain ⟨below, above⟩ := compares pivot v found
    rw [bandSearch]
    simp only [found, ← hstep]
    rcases Nat.lt_trichotomy t pivot with lower | same | higher
    · -- the owner lies below: step down, which the room below allows
      rw [if_pos (below.mpr lower), if_neg (by omega)]
      apply ih (pivot - step) pivot (max (step / 2) 1)
      · rw [if_pos (by omega), Nat.sub_sub_self (by omega)]
      all_goals omega
    · subst same
      rw [if_neg (by omega), if_neg (by omega)]
    · -- the owner lies above: step up, which the room above allows
      rw [if_neg (by omega), if_pos (above.mpr higher)]
      apply ih (pivot + step) pivot (max (step / 2) 1)
      · rw [if_neg (by omega), Nat.add_sub_cancel_left]
      all_goals omega

theorem Partition.owner_unique {start stop : Nat} {vs : Validators K} (p : Partition start stop vs)
    {slot t i : Nat} {u w : Validator K} (owner : vs[t]? = some u) (inU : u.slotsStart ≤ slot ∧ slot < u.slotsEnd)
    (other : vs[i]? = some w) (inW : w.slotsStart ≤ slot ∧ slot < w.slotsEnd) : i = t := by
  rcases Nat.lt_trichotomy i t with lower | same | higher
  · have := p.ordered lower other owner
    omega
  · exact same
  · have := p.ordered higher owner other
    omega

/-- On slot bands that are non-empty, consecutive and cover `0..SLOTS`, the search of
`get_band_from_slot` ends for every slot below `SLOTS`, never reads past the validators or
moves the pivot below zero, and returns the one band that holds the slot. -/
theorem getBandFromSlot_owner {vs : Validators K} (layout : Partition 0 Policy.SLOTS vs)
    (nonempty : ∀ v ∈ vs, v.slotsStart < v.slotsEnd) {slot : Nat} (inRange : slot < Policy.SLOTS) :
    ∃ band, ∃ v : Validator K, getBandFromSlot vs slot = some band ∧ vs[band]? = some v ∧
      v.slotsStart ≤ slot ∧ slot < v.slotsEnd ∧
      ∀ i, ∀ w : Validator K, vs[i]? = some w → w.slotsStart ≤ slot → slot < w.slotsEnd → i = band := by
  obtain ⟨t, u, owner, inU⟩ := layout.covers (Nat.zero_le _) inRange
  have owned : t < vs.length := (List.getElem?_eq_some_iff.mp owner).1
  -- the first round: pivot `n / 2`, last pivot `0`, so the next step is `max(n / 4, 1)`
  have halving := le_max_left (vs.length / 2 / 2) 1
  have halvingOne := le_max_right (vs.length / 2 / 2) 1
  have halvingChoice := max_choice (vs.length / 2 / 2) 1
  have search := bandSearch_eq_owner (fun pivot v found => layout.compare_owner nonempty owner inU found) owned
    vs.length (vs.length / 2) 0 (max (vs.length / 2 / 2) 1)
    (by rw [if_neg (Nat.not_lt_zero _), Nat.sub_zero]) (by omega) (by omega) (by omega)
  refine ⟨t, u, ?_, owner, inU.1, inU.2, fun i w other lower upper => layout.owner_unique owner inU other ⟨lower, upper⟩⟩
  rw [getBandFromSlot, if_pos inRange, search]

/-- The loop of `ValidatorsBuilder::build` over the builder's entries in address order,
each a voting key and a slot count: every validator gets the next `num_slots` slots. -/
def buildFrom (startSlot : Nat) : List (K × Nat) → Validators K
  | [] => []
  | (votingKey, numSlots) :: rest =>
    ⟨votingKey, startSlot, startSlot + numSlots⟩ :: buildFrom (startSlot + numSlots) rest

/-- `ValidatorsBuilder::build`. -/
def build (entries : List (K × Nat)) : Validators K := buildFrom 0 entries

/-- Entries that each hold a slot, as every entry `push` creates does, build non-empty
consecutive bands from the first slot to the total count. -/
theorem buildFrom_partition (entries : List (K × Nat)) (pushed : ∀ e ∈ entries, 1 ≤ e.2) :
    ∀ startSlot, Partition startSlot (startSlot + (entries.map Prod.snd).sum) (buildFrom startSlot entries) ∧
      ∀ v ∈ buildFrom startSlot entries, v.slotsStart < v.slotsEnd := by
  induction entries with
  | nil => intro startSlot; exact ⟨Partition.nil _, by simp [buildFrom]⟩
  | cons entry entries ih =>
    intro startSlot
    obtain ⟨votingKey, numSlots⟩ := entry
    have first : 1 ≤ numSlots := pushed _ List.mem_cons_self
    obtain ⟨tail, tailNonempty⟩ := ih (fun e member => pushed e (List.mem_cons_of_mem _ member)) (startSlot + numSlots)
    refine ⟨?_, ?_⟩
    · rw [List.map_cons, List.sum_cons, ← Nat.add_assoc]
      exact Partition.cons rfl (by simp) tail
    · intro v member
      rcases List.mem_cons.mp member with rfl | later
      · simp only
        omega
      · exact tailNonempty v later

/-- Two validators of 200 and 312 slots. -/
def twoBands : Validators Nat := build [(0, 200), (1, 312)]

theorem two_bands_slot_owner : getBandFromSlot twoBands 300 = some 1 := by
  have built := buildFrom_partition [(0, 200), (1, 312)] (by decide) 0
  have layout : Partition 0 Policy.SLOTS twoBands := built.1
  obtain ⟨band, v, found, -, -, -, unique⟩ := getBandFromSlot_owner layout built.2 (show 300 < Policy.SLOTS by decide)
  rw [found, unique 1 ⟨1, 200, 512⟩ rfl (by decide) (by decide)]

end Validators

end Albatross
