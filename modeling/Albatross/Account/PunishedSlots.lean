import Albatross.Policy

/- The punished slots of the staking contract
   (primitives/account/src/account/staking_contract/punished_slots.rs). A
   `BTreeSet<u16>` of slots is a finite set, and so is the `BitSet` of the previous
   batch, whose equality ignores trailing zero words; the map from validator
   addresses is a function to `Option`. A failed `assert!` or `expect` is `none`. -/
namespace Albatross

variable {A : Type}

structure PenalizedSlot (A : Type) where
  slot : Nat
  validatorAddress : A
  offenseEventBlock : Nat

/-- `JailedValidator`; `slots` is the range `start..end`. -/
structure JailedValidator (A : Type) where
  slots : Nat × Nat
  validatorAddress : A
  offenseEventBlock : Nat

/-- The slots of a range `start..end`. -/
def rangeSlots (range : Nat × Nat) : Finset Nat := Finset.Ico range.1 range.2

structure PunishedSlots (A : Type) where
  currentBatchPunishedSlots : A → Option (Finset Nat)
  previousBatchPunishedSlots : Finset Nat

namespace PunishedSlots

variable [DecidableEq A] (p : Policy)

/-- `register_jail`: the new state, with the old previous set and the old entry of
    the validator that the revert restores. The epochs are compared after the
    batches, so the subtraction of the assert does not wrap. -/
def registerJail (ps : PunishedSlots A) (jailedValidator : JailedValidator A) (reportingBlock : Nat)
    (newEpochSlotRange : Option (Nat × Nat)) : Option (PunishedSlots A × Finset Nat × Option (Finset Nat)) :=
  let address := jailedValidator.validatorAddress
  let offense := jailedValidator.offenseEventBlock
  let oldPrevious := ps.previousBatchPunishedSlots
  let oldCurrent := ps.currentBatchPunishedSlots address
  let currentBatchSlotRange :=
    if p.epochAt offense = p.epochAt reportingBlock then some jailedValidator.slots else newEpochSlotRange
  -- the entry is made, by `or_default`, only where a range of slots applies
  let ps := match currentBatchSlotRange with
    | some slots =>
      let entry := (oldCurrent.getD ∅) ∪ rangeSlots slots
      { ps with currentBatchPunishedSlots := Function.update ps.currentBatchPunishedSlots address (some entry) }
    | none => ps
  if p.batchAt offense < p.batchAt reportingBlock then
    if p.epochAt reportingBlock - p.epochAt offense ≤ 1 then
      let previousBatchSlotRange :=
        if p.epochAt offense = p.epochAt (u32WrappingSub reportingBlock p.blocksPerBatch) then
          some jailedValidator.slots
        else newEpochSlotRange
      let ps := match previousBatchSlotRange with
        | some slots => { ps with previousBatchPunishedSlots := ps.previousBatchPunishedSlots ∪ rangeSlots slots }
        | none => ps
      some (ps, oldPrevious, oldCurrent)
    else none
  else some (ps, oldPrevious, oldCurrent)

/-- `revert_register_jail`. Both of its branches assert that the validator has an
    entry ("Missing jailed validator"): `insert` of the old set, or `remove`. -/
def revertRegisterJail (ps : PunishedSlots A) (jailedValidator : JailedValidator A) (oldPrevious : Finset Nat)
    (oldCurrent : Option (Finset Nat)) : Option (PunishedSlots A) :=
  let address := jailedValidator.validatorAddress
  let ps := { ps with previousBatchPunishedSlots := oldPrevious }
  if (ps.currentBatchPunishedSlots address).isNone then none
  else some { ps with currentBatchPunishedSlots := Function.update ps.currentBatchPunishedSlots address oldCurrent }

/-- `register_penalty`: the new state, and whether the slot is newly punished in
    the previous and in the current batch. -/
def registerPenalty (ps : PunishedSlots A) (penalizedSlot : PenalizedSlot A) (reportingBlock : Nat) :
    PunishedSlots A × Bool × Bool :=
  let slot := penalizedSlot.slot
  let address := penalizedSlot.validatorAddress
  let offense := penalizedSlot.offenseEventBlock
  let (ps, newlyPunishedPrevious) :=
    if p.batchAt offense + 1 = p.batchAt reportingBlock then
      ({ ps with previousBatchPunishedSlots := insert slot ps.previousBatchPunishedSlots },
        decide (slot ∉ ps.previousBatchPunishedSlots))
    else (ps, false)
  if p.epochAt offense = p.epochAt reportingBlock then
    let entry := (ps.currentBatchPunishedSlots address).getD ∅
    let current := Function.update ps.currentBatchPunishedSlots address (some (insert slot entry))
    ({ ps with currentBatchPunishedSlots := current }, newlyPunishedPrevious, decide (slot ∉ entry))
  else (ps, newlyPunishedPrevious, false)

/-- `revert_register_penalty`; an entry left empty is removed. -/
def revertRegisterPenalty (ps : PunishedSlots A) (penalizedSlot : PenalizedSlot A)
    (newlyPunishedPrevious newlyPunishedCurrent : Bool) : Option (PunishedSlots A) :=
  let slot := penalizedSlot.slot
  let address := penalizedSlot.validatorAddress
  let ps := if newlyPunishedPrevious then
      { ps with previousBatchPunishedSlots := ps.previousBatchPunishedSlots.erase slot }
    else ps
  if newlyPunishedCurrent then
    match ps.currentBatchPunishedSlots address with
    | none => none
    | some entry =>
      if slot ∉ entry then none
      else
        let entry := entry.erase slot
        let current := Function.update ps.currentBatchPunishedSlots address (if entry = ∅ then none else some entry)
        some { ps with currentBatchPunishedSlots := current }
  else some ps

/-- A cross-epoch report within the reporting window never hits the assert of
    `register_jail`, and with no slot range for the new epoch it leaves the map of
    the current batch as it was. -/
theorem registerJail_of_crossEpoch (ps : PunishedSlots A) (jailedValidator : JailedValidator A)
    {reportingBlock : Nat} (crossEpoch : p.epochAt jailedValidator.offenseEventBlock ≠ p.epochAt reportingBlock)
    (window : p.batchAt reportingBlock ≤ p.batchAt jailedValidator.offenseEventBlock + 1) :
    ∃ registered, registerJail p ps jailedValidator reportingBlock none = some registered ∧
      registered.1.currentBatchPunishedSlots = ps.currentBatchPunishedSlots ∧
      registered.2.2 = ps.currentBatchPunishedSlots jailedValidator.validatorAddress := by
  have epochs := p.epochAt_le_succ_of_batchAt_le_succ window
  unfold registerJail
  simp only [crossEpoch, if_false]
  split
  · rw [if_pos (by omega)]
    split <;> exact ⟨_, rfl, rfl, rfl⟩
  · exact ⟨_, rfl, rfl, rfl⟩

/-- Jailing a validator with no entry, reported in a later epoch where it has no
    slots, cannot be reverted: no entry was made, and the revert asserts one. -/
theorem revert_register_jail_panics_without_new_range (ps : PunishedSlots A)
    (jailedValidator : JailedValidator A) {reportingBlock : Nat}
    (absent : ps.currentBatchPunishedSlots jailedValidator.validatorAddress = none)
    (crossEpoch : p.epochAt jailedValidator.offenseEventBlock ≠ p.epochAt reportingBlock)
    (window : p.batchAt reportingBlock ≤ p.batchAt jailedValidator.offenseEventBlock + 1) :
    ∃ registered, registerJail p ps jailedValidator reportingBlock none = some registered ∧
      revertRegisterJail registered.1 jailedValidator registered.2.1 registered.2.2 = none := by
  obtain ⟨registered, jailed, sameMap, -⟩ := registerJail_of_crossEpoch p ps jailedValidator crossEpoch window
  refine ⟨registered, jailed, ?_⟩
  simp [revertRegisterJail, sameMap, absent]

end PunishedSlots

/-- Validator 1 is jailed for an offense at block 43200, the last block of epoch 1,
    reported at block 43201 in epoch 2, where it was not elected. -/
theorem cross_epoch_jail_revert_panics :
    ∃ registered, PunishedSlots.registerJail Policy.default ⟨fun _ => none, ∅⟩ ⟨(0, 2), 1, 43200⟩ 43201 none =
        some registered ∧
      PunishedSlots.revertRegisterJail registered.1 ⟨(0, 2), 1, 43200⟩ registered.2.1 registered.2.2 = none :=
  PunishedSlots.revert_register_jail_panics_without_new_range Policy.default _ _ rfl (by decide) (by decide)

end Albatross
