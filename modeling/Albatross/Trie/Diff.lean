import Albatross.Trie.Node
import Albatross.Lib.AssocMap

/- The diffs of primitives/src/trie/trie_diff.rs and the change recording of
   trie/src/transaction.rs. A `TrieDiffBuilder` keeps one `ValueChange` per key,
   folding the changes recorded at a key with `ValueChange::combine`; each node write
   records the change from the old value its caller labels it with to the node's
   new value. A `BTreeMap` is a list with distinct keys. -/
namespace Albatross

inductive ValueChange (V : Type) where
  | insert (new : V)
  | update (old new : V)
  | delete (old : V)
  deriving DecidableEq, Repr

namespace ValueChange

variable {V : Type}

def intoOldAndNew : ValueChange V → Option V × Option V
  | insert n => (none, some n)
  | update o n => (some o, some n)
  | delete o => (some o, none)

variable [DecidableEq V]

def fromOldAndNew : Option V → Option V → Option (ValueChange V)
  | none, none => none
  | none, some n => some (insert n)
  | some o, some n => if o ≠ n then some (update o n) else none
  | some o, none => some (delete o)

/-- `combine`; its `assert` panics, which is `none`. -/
def combine : Option (ValueChange V) → Option (ValueChange V) → Option (Option (ValueChange V))
  | none, none => some none
  | none, some right => some (some right)
  | some left, none => some (some left)
  | some left, some right =>
    if left.intoOldAndNew.2 = right.intoOldAndNew.1 then
      some (fromOldAndNew left.intoOldAndNew.1 right.intoOldAndNew.2)
    else none

theorem intoOldAndNew_of_fromOldAndNew {a b : Option V} {c : ValueChange V} (made : fromOldAndNew a b = some c) :
    c.intoOldAndNew = (a, b) := by
  cases a with
  | none =>
    cases b with
    | none => cases made
    | some n =>
      cases made
      rfl
  | some o =>
    cases b with
    | none =>
      cases made
      rfl
    | some n =>
      simp only [fromOldAndNew] at made
      split at made
      · cases made
        rfl
      · cases made

@[simp] theorem fromOldAndNew_eq_none_iff {a b : Option V} : fromOldAndNew a b = none ↔ a = b := by
  cases a <;> cases b <;> simp [fromOldAndNew]

theorem fromOldAndNew_self (a : Option V) : fromOldAndNew a a = none := fromOldAndNew_eq_none_iff.mpr rfl

theorem getD_new_fromOldAndNew (a b : Option V) : ((fromOldAndNew a b).map fun c => c.intoOldAndNew.2).getD a = b := by
  cases made : fromOldAndNew a b with
  | none => exact fromOldAndNew_eq_none_iff.mp made
  | some c => simp [intoOldAndNew_of_fromOldAndNew made]

theorem getD_old_fromOldAndNew (a b : Option V) : ((fromOldAndNew a b).map fun c => c.intoOldAndNew.1).getD b = a := by
  cases made : fromOldAndNew a b with
  | none => exact (fromOldAndNew_eq_none_iff.mp made).symm
  | some c => simp [intoOldAndNew_of_fromOldAndNew made]

/-- Changes that follow one another combine to the change over both, and the
    `assert` holds. -/
theorem combine_fromOldAndNew (a b c : Option V) :
    combine (fromOldAndNew a b) (fromOldAndNew b c) = some (fromOldAndNew a c) := by
  cases first : fromOldAndNew a b with
  | none =>
    obtain rfl := fromOldAndNew_eq_none_iff.mp first
    cases fromOldAndNew a c <;> rfl
  | some left =>
    cases second : fromOldAndNew b c with
    | none =>
      obtain rfl := fromOldAndNew_eq_none_iff.mp second
      rw [first]
      rfl
    | some right =>
      rw [combine, intoOldAndNew_of_fromOldAndNew first, intoOldAndNew_of_fromOldAndNew second, if_pos rfl]

end ValueChange

structure TrieDiffBuilder (V : Type) where
  changes : List (KeyNibbles × ValueChange V)

/-- `OldValue`: what the writer of a node says its value was. -/
inductive OldValue (V : Type) where
  | unchanged
  | none
  | some (v : V)

/-- `From<Option<Vec<u8>>>`. -/
def OldValue.ofOption {V : Type} : Option V → OldValue V
  | .none => .none
  | .some v => .some v

/-- `RevertDiffValue`, of which a complete trie uses the values of the known part. -/
inductive RevertDiffValue (V : Type) where
  | put (value : V)
  | remove
  | updateStump

/-- `RevertDiffValue::known_value`. -/
def RevertDiffValue.knownValue {V : Type} : Option V → RevertDiffValue V
  | .some v => .put v
  | .none => .remove

namespace TrieDiffBuilder

variable {V : Type}

def intoBackwardDiff (b : TrieDiffBuilder V) : List (KeyNibbles × Option V) :=
  b.changes.map fun change => (change.1, change.2.intoOldAndNew.1)

def intoForwardDiff (b : TrieDiffBuilder V) : List (KeyNibbles × Option V) :=
  b.changes.map fun change => (change.1, change.2.intoOldAndNew.2)

theorem keys_intoForwardDiff (b : TrieDiffBuilder V) : b.intoForwardDiff.map Prod.fst = b.changes.map Prod.fst := by
  simp [intoForwardDiff]

theorem keys_intoBackwardDiff (b : TrieDiffBuilder V) : b.intoBackwardDiff.map Prod.fst = b.changes.map Prod.fst := by
  simp [intoBackwardDiff]

theorem findKey_intoForwardDiff (b : TrieDiffBuilder V) (k : KeyNibbles) :
    findKey k b.intoForwardDiff = (findKey k b.changes).map fun c => c.intoOldAndNew.2 :=
  findKey_map_value (fun c : ValueChange V => c.intoOldAndNew.2) k b.changes

theorem findKey_intoBackwardDiff (b : TrieDiffBuilder V) (k : KeyNibbles) :
    findKey k b.intoBackwardDiff = (findKey k b.changes).map fun c => c.intoOldAndNew.1 :=
  findKey_map_value (fun c : ValueChange V => c.intoOldAndNew.1) k b.changes

variable [DecidableEq V]

/-- `add_change`: the key's change is taken out and combined with the new one. The
    `assert` on the insertion cannot fail, the key having just been removed. -/
def addChange (b : TrieDiffBuilder V) (key : KeyNibbles) (value : ValueChange V) : Option (TrieDiffBuilder V) :=
  let removed := eraseKey key b.changes
  (ValueChange.combine (findKey key b.changes) (some value)).bind fun
    | none => some ⟨removed⟩
    | some result => if (findKey key removed).isSome then none else some ⟨insertKey key result removed⟩

/-- `record_value_change` while a recording runs. -/
def recordValueChange (diff : TrieDiffBuilder V) (key : KeyNibbles) (oldValue : OldValue V)
    (newValue : Option V) : Option (TrieDiffBuilder V) :=
  let valueChange : Option (ValueChange V) :=
    match oldValue, newValue with
    | .unchanged, _ => none
    | .none, none => none
    | .none, some n => some (.insert n)
    | .some o, none => some (.delete o)
    | .some o, some n => if o = n then none else some (.update o n)
  match valueChange with
  | none => some diff
  | some valueChange => diff.addChange key valueChange

theorem recordValueChange_ofOption (diff : TrieDiffBuilder V) (key : KeyNibbles) (old new : Option V) :
    diff.recordValueChange key (.ofOption old) new =
      match ValueChange.fromOldAndNew old new with
      | none => some diff
      | some change => diff.addChange key change := by
  cases old with
  | none => cases new <;> rfl
  | some o =>
    cases new with
    | none => rfl
    | some n =>
      by_cases same : o = n
      · simp [recordValueChange, OldValue.ofOption, ValueChange.fromOldAndNew, same]
      · simp [recordValueChange, OldValue.ofOption, ValueChange.fromOldAndNew, same]

/-- A write that records nothing: the value unchanged, or a new node without one. -/
def Silent (w : KeyNibbles × OldValue V × Option V) : Prop :=
  w.2.1 = .unchanged ∨ (w.2.1 = .none ∧ w.2.2 = none)

theorem recordValueChange_silent {w : KeyNibbles × OldValue V × Option V} (silent : Silent w)
    (diff : TrieDiffBuilder V) : diff.recordValueChange w.1 w.2.1 w.2.2 = some diff := by
  obtain ⟨key, old, new⟩ := w
  rcases silent with unchanged | ⟨none, noValue⟩
  · cases unchanged
    rfl
  · cases none
    cases noValue
    rfl

/-- The builder holds, at every key, the net change from `base` to `current`. -/
structure Tracks (b : TrieDiffBuilder V) (base current : KeyNibbles → Option V) : Prop where
  distinct : (b.changes.map Prod.fst).Nodup
  net : ∀ k, findKey k b.changes = ValueChange.fromOldAndNew (base k) (current k)

/-- `start_recording`: nothing has changed yet. -/
theorem tracks_start (base : KeyNibbles → Option V) : (⟨[]⟩ : TrieDiffBuilder V).Tracks base base :=
  ⟨List.nodup_nil, fun k => by simp [ValueChange.fromOldAndNew_self]⟩

section Step

variable {b : TrieDiffBuilder V} {base current : KeyNibbles → Option V}

theorem Tracks.addChange (t : b.Tracks base current) (key : KeyNibbles) (new : Option V) {change : ValueChange V}
    (made : ValueChange.fromOldAndNew (current key) new = some change) :
    ∃ b', b.addChange key change = some b' ∧ b'.Tracks base (Function.update current key new) := by
  have combined : ValueChange.combine (findKey key b.changes) (some change) =
      some (ValueChange.fromOldAndNew (base key) new) := by
    rw [t.net key, ← made, ValueChange.combine_fromOldAndNew]
  have erasedDistinct := t.distinct.sublist (keys_eraseKey_sublist key b.changes)
  have net : ∀ k, k ≠ key → ValueChange.fromOldAndNew (base k) (Function.update current key new k) =
      findKey k (eraseKey key b.changes) := by
    intro k other
    rw [Function.update_of_ne other, findKey_eraseKey_of_ne (Ne.symm other), t.net k]
  cases result : ValueChange.fromOldAndNew (base key) new with
  -- the changes cancel out: the key leaves the builder
  | none =>
    refine ⟨⟨eraseKey key b.changes⟩, by simp [TrieDiffBuilder.addChange, combined, result], erasedDistinct, ?_⟩
    intro k
    by_cases here : k = key
    · subst here
      simp [result]
    · exact (net k here).symm
  | some net' =>
    refine ⟨⟨insertKey key net' (eraseKey key b.changes)⟩,
      by simp [TrieDiffBuilder.addChange, combined, result], ?_, ?_⟩
    · rw [keys_insertKey_of_not_mem (not_mem_keys_eraseKey key b.changes)]
      exact erasedDistinct.append (List.nodup_singleton key)
        (List.disjoint_singleton.mpr (not_mem_keys_eraseKey key b.changes))
    · intro k
      by_cases here : k = key
      · subst here
        simp [result]
      · rw [findKey_insertKey_of_ne (Ne.symm here)]
        exact (net k here).symm

/-- The step of a recording: a write labelled with the value it replaces keeps the
    builder on the net change. -/
theorem Tracks.record (t : b.Tracks base current) (key : KeyNibbles) (new : Option V) :
    ∃ b', b.recordValueChange key (.ofOption (current key)) new = some b' ∧
      b'.Tracks base (Function.update current key new) := by
  rw [recordValueChange_ofOption]
  cases made : ValueChange.fromOldAndNew (current key) new with
  | none =>
    have same : current key = new := ValueChange.fromOldAndNew_eq_none_iff.mp made
    refine ⟨b, rfl, ?_⟩
    rw [← same, Function.update_eq_self]
    exact t
  | some change => exact t.addChange key new made

end Step

end TrieDiffBuilder

end Albatross
