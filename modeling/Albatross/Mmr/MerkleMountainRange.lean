import Albatross.Mmr.Proof

/- The Merkle mountain range over an in-memory store (primitives/mmr/src/mmr/mod.rs
   and store/memory.rs): the store is the list of node hashes in post-order. `push`
   writes through a `MemoryTransaction` committed at the end, so a failed push leaves
   the range as it was. -/
namespace Albatross.Mmr

variable {H T : Type}

structure MerkleMountainRange (H : Type) where
  store : List H
  numLeaves : Nat

namespace MerkleMountainRange

/-- `MerkleMountainRange::new` on an empty store. -/
def new : MerkleMountainRange H := ⟨[], 0⟩

def len (mmr : MerkleMountainRange H) : Nat := mmr.store.length

def isEmpty (mmr : MerkleMountainRange H) : Bool := mmr.len = 0

/-- The `while pos.right_node` loop of `push`: a right node is merged with its left
    sibling into their parent, appended after them. The height grows every round. -/
def pushLoop (m : Merge H) : Nat → Position → List H → Except Error (List H)
  | 0, _, store => .ok store
  | fuel + 1, pos, store =>
    if pos.rightNode then
      match store[pos.sibling.index]?, store[pos.index]? with
      | some leftElem, some rightElem =>
        let parent := pos.parent
        pushLoop m fuel parent (store ++ [m.merge leftElem rightElem parent.numLeaves])
      | _, _ => .error .inconsistentStore
    else .ok store

/-- `push`: the new range and the leaf index of the pushed element. -/
def push (m : Merge H) (hash : T → Nat → H) (mmr : MerkleMountainRange H) (elem : T) :
    Except Error (MerkleMountainRange H × Nat) :=
  let pos := Position.ofIndex mmr.len
  match pushLoop m (mmr.len + 1) pos (mmr.store ++ [hash elem pos.numLeaves]) with
  | .error e => .error e
  | .ok store => .ok (⟨store, mmr.numLeaves + 1⟩, mmr.numLeaves)

/-- `MemoryStore::remove_back`: `truncate(len - num_elems)`, which the release build
    wraps to a length past the end, removing nothing, when more are asked for. -/
def storeRemoveBack (store : List H) (numElems : Nat) : List H :=
  if numElems ≤ store.length then store.take (store.length - numElems) else store

/-- `remove_back`: the last node, at height `h`, and the `h` nodes below it back to
    the last leaf go. `num_leaves` is not touched. -/
def removeBack (mmr : MerkleMountainRange H) : Except Error (MerkleMountainRange H) :=
  if mmr.isEmpty then .error .emptyTree
  else .ok ⟨storeRemoveBack mmr.store (indexToHeight (mmr.len - 1) + 1), mmr.numLeaves⟩

/-- `get_root`: the empty root for an empty range, else the bagged peaks. -/
def getRoot (m : Merge H) (mmr : MerkleMountainRange H) : Except Error H :=
  if mmr.isEmpty then .ok (m.empty 0)
  else bagging m.merge ((revPeaks mmr.len).map fun peak =>
    match mmr.store[peak.index]? with
    | some h => .ok (h, peak.numLeaves)
    | none => .error .inconsistentStore)

/-- The range obtained by pushing `values` one after another into a new one. -/
def fromLeaves (m : Merge H) (hash : T → Nat → H) (values : List T) :
    Except Error (MerkleMountainRange H) :=
  values.foldlM (fun mmr value => (mmr.push m hash value).map Prod.fst) new

theorem pushLoop_length {m : Merge H} {fuel : Nat} {pos : Position} {store store' : List H}
    (pushed : pushLoop m fuel pos store = .ok store') : store.length ≤ store'.length := by
  induction fuel generalizing pos store with
  | zero =>
    simp only [pushLoop, Except.ok.injEq] at pushed
    rw [pushed]
  | succ fuel ih =>
    unfold pushLoop at pushed
    split at pushed
    · split at pushed
      · have longer := ih pushed
        simp only [List.length_append, List.length_singleton] at longer
        omega
      · cases pushed
    · cases pushed
      exact Nat.le_refl _

theorem push_store_ne_nil {m : Merge H} {hash : T → Nat → H} {mmr pushed : MerkleMountainRange H}
    {elem : T} {leafIndex : Nat} (ok : mmr.push m hash elem = .ok (pushed, leafIndex)) :
    pushed.store ≠ [] ∧ pushed.numLeaves = mmr.numLeaves + 1 := by
  unfold push at ok
  dsimp only at ok
  split at ok
  · cases ok
  · rename_i store looped
    simp only [Except.ok.injEq, Prod.mk.injEq] at ok
    obtain ⟨rfl, -⟩ := ok
    have longer := pushLoop_length looped
    simp only [List.length_append, List.length_singleton] at longer
    exact ⟨List.ne_nil_of_length_pos (show 0 < store.length by omega), rfl⟩

/-- Removing the leaf just pushed leaves the pushed leaf counted: the range keeps
    one leaf more than it had before the push. -/
theorem remove_back_after_push_keeps_leaf_count (m : Merge H) (hash : T → Nat → H)
    {mmr pushed : MerkleMountainRange H} {elem : T} {leafIndex : Nat}
    (ok : mmr.push m hash elem = .ok (pushed, leafIndex)) :
    ∃ removed, pushed.removeBack = .ok removed ∧ removed.numLeaves = mmr.numLeaves + 1 := by
  obtain ⟨nonempty, counted⟩ := push_store_ne_nil ok
  have notEmpty : pushed.isEmpty = false := by
    simpa [isEmpty, len] using nonempty
  refine ⟨⟨storeRemoveBack pushed.store (indexToHeight (pushed.len - 1) + 1), pushed.numLeaves⟩, ?_, counted⟩
  simp [removeBack, notEmpty]

/-- A merge that adds the two hashes and the leaf count: enough to tell nodes apart. -/
def countingMerge : Merge Nat := ⟨fun _ => 0, fun left right leaves => left + right + leaves⟩

theorem second_leaf_removed_but_counted :
    (⟨[1], 1⟩ : MerkleMountainRange Nat).push countingMerge (fun v n => v + n) 2 = .ok (⟨[1, 3, 6], 2⟩, 1) ∧
      (⟨[1, 3, 6], 2⟩ : MerkleMountainRange Nat).removeBack = .ok ⟨[1], 2⟩ ∧
      ∃ removed, (⟨[1, 3, 6], 2⟩ : MerkleMountainRange Nat).removeBack = .ok removed ∧ removed.numLeaves = 1 + 1 := by
  have pushed : (⟨[1], 1⟩ : MerkleMountainRange Nat).push countingMerge (fun v n => v + n) 2 =
      .ok (⟨[1, 3, 6], 2⟩, 1) := by rfl
  exact ⟨pushed, by rfl, remove_back_after_push_keeps_leaf_count countingMerge _ pushed⟩

end MerkleMountainRange

end Albatross.Mmr
