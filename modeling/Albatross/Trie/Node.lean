import Mathlib.Data.Fintype.Basic
import Mathlib.Data.Set.Card
import Albatross.Lib.Prefix
import Albatross.Lib.StoreCount

/- Nodes of the Merkle radix trie (primitives/src/trie/trie_node.rs,
   primitives/src/key_nibbles.rs). A `KeyNibbles` is its list of nibbles: `is_prefix_of`
   is `List.isPrefixOf`, `+` is `++`, `suffix` is `drop`, `get` is `[i]?`, `ROOT` is `[]`
   and `common_prefix` is `commonPrefix`. Only complete tries are modelled, so a
   child is never a stump and `TrieNodeChild::key` never fails. -/
namespace Albatross

abbrev KeyNibbles := List (Fin 16)

inductive MerkleRadixTrieError where
  | wrongPrefix
  | childDoesNotExist
  | rootCantHaveValue
  | incompleteTrie
  deriving DecidableEq, Repr

structure TrieNodeChild (H : Type) where
  suffix : KeyNibbles
  hash : H
  deriving DecidableEq, Repr

namespace TrieNodeChild

variable {H : Type}

/-- An all-zero hash, `Default::default()`, marks a child whose hash is not computed. -/
def hasHash [DecidableEq H] [Inhabited H] (c : TrieNodeChild H) : Bool := c.hash ≠ default

def key (c : TrieNodeChild H) (parentKey : KeyNibbles) : KeyNibbles := parentKey ++ c.suffix

end TrieNodeChild

/-- The root data of a complete trie: its node counters. -/
structure RootData where
  numBranches : Nat
  numHybrids : Nat
  numLeaves : Nat
  deriving DecidableEq, Repr

inductive TrieNodeKind where
  | root
  | branch
  | hybrid
  | leaf
  deriving DecidableEq, Repr

structure TrieNode (V H : Type) where
  key : KeyNibbles
  rootData : Option RootData
  value : Option V
  children : Fin 16 → Option (TrieNodeChild H)

/-- What `TrieNode::hash` writes after the key: a tag, then the value of a leaf or
    the hash of the value of a node that also has children. -/
inductive ValuePart (V H : Type) where
  | none
  | leaf (value : V)
  | hybrid (valueHash : H)

structure HashInput (V H : Type) where
  key : KeyNibbles
  valuePart : ValuePart V H
  children : Fin 16 → Option (TrieNodeChild H)

/-- Blake2b as the trie uses it: on a value, and on a node's serialisation. -/
structure TrieHasher (V H : Type) where
  hashValue : V → H
  hashNode : HashInput V H → H

namespace TrieNode

variable {V H : Type}

def newLeaf (key : KeyNibbles) (value : V) : TrieNode V H := ⟨key, none, some value, fun _ => none⟩

@[simp] theorem newLeaf_key (key : KeyNibbles) (value : V) : (newLeaf key value : TrieNode V H).key = key := rfl
@[simp] theorem newLeaf_value (key : KeyNibbles) (value : V) :
    (newLeaf key value : TrieNode V H).value = some value := rfl

def newRoot : TrieNode V H := ⟨[], some ⟨0, 0, 0⟩, none, fun _ => none⟩

def newEmpty (key : KeyNibbles) : TrieNode V H := ⟨key, none, none, fun _ => none⟩

@[simp] theorem newEmpty_key (key : KeyNibbles) : (newEmpty key : TrieNode V H).key = key := rfl

/-- `iter_children().count()`. -/
def numChildren (n : TrieNode V H) : Nat := (Finset.univ.filter fun i => (n.children i).isSome).card

def isRoot (n : TrieNode V H) : Bool := n.rootData.isSome

def hasChildren (n : TrieNode V H) : Bool := n.numChildren ≠ 0

def isEmpty (n : TrieNode V H) : Bool := !n.isRoot && n.value.isNone && !n.hasChildren

def isHybrid (n : TrieNode V H) : Bool := !n.isRoot && n.value.isSome && n.hasChildren

def kind (n : TrieNode V H) : Option TrieNodeKind :=
  match n.isRoot, n.hasChildren, n.value.isSome with
  | false, false, false => none
  | false, false, true => some .leaf
  | false, true, false => some .branch
  | false, true, true => some .hybrid
  | true, _, _ => some .root

/-- `child_index`: an error for a key it does not prefix, a panic (`none`) at the
    `unwrap` of `get` for a key no longer than its own. -/
def childIndex (n : TrieNode V H) (childPrefix : KeyNibbles) :
    Option (Except MerkleRadixTrieError (Fin 16)) :=
  if n.key.isPrefixOf childPrefix then (childPrefix[n.key.length]?).map .ok
  else some (.error .wrongPrefix)

def child (n : TrieNode V H) (childPrefix : KeyNibbles) :
    Option (Except MerkleRadixTrieError (TrieNodeChild H)) :=
  (n.childIndex childPrefix).map fun index => index.bind fun i =>
    match n.children i with
    | some c => .ok c
    | none => .error .childDoesNotExist

def childKey (n : TrieNode V H) (childPrefix : KeyNibbles) :
    Option (Except MerkleRadixTrieError KeyNibbles) :=
  (n.child childPrefix).map (Except.map (·.key n.key))

def putChild (n : TrieNode V H) (childKey : KeyNibbles) (childHash : H) :
    Option (Except MerkleRadixTrieError (TrieNode V H)) :=
  (n.childIndex childKey).map <| Except.map fun i =>
    { n with children := Function.update n.children i (some ⟨childKey.drop n.key.length, childHash⟩) }

def putChildNoHash [Inhabited H] (n : TrieNode V H) (childKey : KeyNibbles) :
    Option (Except MerkleRadixTrieError (TrieNode V H)) :=
  n.putChild childKey default

def removeChild (n : TrieNode V H) (childPrefix : KeyNibbles) :
    Option (Except MerkleRadixTrieError (TrieNode V H)) :=
  (n.childIndex childPrefix).map <| Except.map fun i =>
    { n with children := Function.update n.children i none }

/-- `put_value`: the updated node and the value it replaces. -/
def putValue (n : TrieNode V H) (newValue : V) : Except MerkleRadixTrieError (TrieNode V H × Option V) :=
  if n.rootData.isSome then .error .rootCantHaveValue
  else .ok ({ n with value := some newValue }, n.value)

/-- `iter_children().next()`: the child at the least index. -/
def firstChild (n : TrieNode V H) : Option (TrieNodeChild H) := (List.finRange 16).findSome? n.children

def canHash [DecidableEq H] [Inhabited H] (n : TrieNode V H) : Bool :=
  (List.finRange 16).all fun i =>
    match n.children i with
    | some c => c.hasHash
    | none => true

def valuePart (hasher : TrieHasher V H) (n : TrieNode V H) : ValuePart V H :=
  match n.hasChildren, n.value with
  | _, none => .none
  | false, some v => .leaf v
  | true, some v => .hybrid (hasher.hashValue v)

/-- `hash`: nothing while a child's hash is missing. The root data is not hashed. -/
def hash [DecidableEq H] [Inhabited H] (hasher : TrieHasher V H) (n : TrieNode V H) : Option H :=
  if n.canHash then some (hasher.hashNode ⟨n.key, n.valuePart hasher, n.children⟩) else none

/-- The key each child entry points to. -/
def targetAt (n : TrieNode V H) (i : Fin 16) : Option KeyNibbles := (n.children i).map (·.key n.key)

/-- A node with an entry at `i` replaced by `c`. -/
def setChild (n : TrieNode V H) (i : Fin 16) (c : Option (TrieNodeChild H)) : TrieNode V H :=
  { n with children := Function.update n.children i c }

section Lemmas

variable {n : TrieNode V H} {k : KeyNibbles} {i : Fin 16}

theorem key_append_drop {p : KeyNibbles} (h : p <+: k) : p ++ k.drop p.length = k := by
  obtain ⟨t, rfl⟩ := h
  simp

theorem childIndex_of_concat (h : n.key ++ [i] <+: k) : n.childIndex k = some (.ok i) := by
  simp [childIndex, prefix_of_concat h, getElem?_of_concat h]

theorem childIndex_wrong (h : ¬ n.key <+: k) : n.childIndex k = some (.error .wrongPrefix) := by
  simp [childIndex, h]

theorem childKey_of_target {t : KeyNibbles} (h : n.key ++ [i] <+: k) (target : n.targetAt i = some t) :
    n.childKey k = some (.ok t) := by
  simp only [targetAt, Option.map_eq_some_iff] at target
  obtain ⟨c, entry, rfl⟩ := target
  simp [childKey, child, childIndex_of_concat h, entry, Except.map, Except.bind]

theorem childKey_of_no_child (h : n.key ++ [i] <+: k) (none : n.children i = none) :
    n.childKey k = some (.error .childDoesNotExist) := by
  simp [childKey, child, childIndex_of_concat h, none, Except.map, Except.bind]

theorem putChild_of_concat (h : n.key ++ [i] <+: k) (c : H) :
    n.putChild k c = some (.ok (n.setChild i (some ⟨k.drop n.key.length, c⟩))) := by
  simp [putChild, childIndex_of_concat h, Except.map, setChild]

theorem removeChild_of_concat (h : n.key ++ [i] <+: k) :
    n.removeChild k = some (.ok (n.setChild i none)) := by
  simp [removeChild, childIndex_of_concat h, Except.map, setChild]

@[simp] theorem setChild_key (c : Option (TrieNodeChild H)) : (n.setChild i c).key = n.key := rfl
@[simp] theorem setChild_value (c : Option (TrieNodeChild H)) : (n.setChild i c).value = n.value := rfl
@[simp] theorem setChild_rootData (c : Option (TrieNodeChild H)) :
    (n.setChild i c).rootData = n.rootData := rfl

theorem setChild_children (c : Option (TrieNodeChild H)) (j : Fin 16) :
    (n.setChild i c).children j = if j = i then c else n.children j := by
  simp [setChild, Function.update_apply]

theorem targetAt_setChild (c : Option (TrieNodeChild H)) (j : Fin 16) :
    (n.setChild i c).targetAt j = if j = i then c.map (·.key n.key) else n.targetAt j := by
  unfold targetAt
  rw [setChild_children]
  split <;> rfl

theorem targetAt_setChild_drop (h : n.key <+: k) (c : H) :
    (n.setChild i (some ⟨k.drop n.key.length, c⟩)).targetAt i = some k := by
  simp [targetAt_setChild, TrieNodeChild.key, key_append_drop h]

theorem targetAt_setChild_ne (c : Option (TrieNodeChild H)) {j : Fin 16} (ne : j ≠ i) :
    (n.setChild i c).targetAt j = n.targetAt j := by
  rw [targetAt_setChild, if_neg ne]

theorem isSome_children_iff_targetAt (j : Fin 16) : (n.children j).isSome ↔ (n.targetAt j).isSome := by
  simp [targetAt]

theorem numChildren_eq_ncard (n : TrieNode V H) :
    n.numChildren = {j | (n.children j).isSome = true}.ncard := by
  rw [numChildren, ← Set.ncard_coe_finset]
  simp

theorem numChildren_setChild (c : Option (TrieNodeChild H)) :
    ((n.setChild i c).numChildren : Int) =
      n.numChildren - (if (n.children i).isSome = true then 1 else 0) + (if c.isSome = true then 1 else 0) := by
  rw [numChildren_eq_ncard, numChildren_eq_ncard]
  exact ncard_setOf_update (P := fun o => o.isSome = true) (Set.toFinite _) i c

theorem numChildren_eq_of_targetAt {n' : TrieNode V H} (h : ∀ j, n'.targetAt j = n.targetAt j) :
    n'.numChildren = n.numChildren := by
  have same : ∀ j, (n'.children j).isSome = (n.children j).isSome := by
    intro j
    rw [Bool.eq_iff_iff, isSome_children_iff_targetAt, isSome_children_iff_targetAt, h]
  simp [numChildren, same]

theorem hasChildren_iff : n.hasChildren = true ↔ ∃ j, (n.children j).isSome := by
  rw [hasChildren, numChildren]
  simp [Finset.card_eq_zero, Finset.filter_eq_empty_iff, Option.ne_none_iff_isSome]

theorem kind_eq_of {n' : TrieNode V H} (root : n'.isRoot = n.isRoot) (children : n'.numChildren = n.numChildren)
    (value : n'.value.isSome = n.value.isSome) : n'.kind = n.kind := by
  simp [kind, hasChildren, root, children, value]

theorem newLeaf_kind (key : KeyNibbles) (value : V) : (newLeaf key value : TrieNode V H).kind = some .leaf := by
  simp [kind, newLeaf, isRoot, hasChildren, numChildren]

theorem kind_eq_hybrid (noData : n.rootData = none) (valued : n.value.isSome) (children : n.numChildren ≠ 0) :
    n.kind = some .hybrid := by
  simp [kind, isRoot, hasChildren, noData, valued, children]

theorem kind_eq_branch (noData : n.rootData = none) (valueless : n.value = none) (children : n.numChildren ≠ 0) :
    n.kind = some .branch := by
  simp [kind, isRoot, hasChildren, noData, valueless, children]

theorem numChildren_setChild_of_none (none : ∀ j, n.children j = none) (c : TrieNodeChild H) :
    (n.setChild i (some c)).numChildren = 1 := by
  have grown := numChildren_setChild (n := n) (i := i) (some c)
  have zero : n.numChildren = 0 := by simp [numChildren, none]
  simp only [none, zero, Option.isSome_none, Option.isSome_some, Bool.false_eq_true, if_false, if_true] at grown
  omega

theorem findSome_of_unique {f : Fin 16 → Option (TrieNodeChild H)} (others : ∀ j, j ≠ i → f j = none) :
    ∀ l : List (Fin 16), i ∈ l → l.findSome? f = f i
  | [], mem => absurd mem (by simp)
  | j :: l, mem => by
    by_cases same : j = i
    · subst same
      cases hj : f j with
      | none =>
        simp only [List.findSome?_cons, hj, List.findSome?_eq_none_iff]
        intro x _
        by_cases hx : x = j
        · rw [hx, hj]
        · exact others x hx
      | some c => simp [hj]
    · rw [List.findSome?_cons, others j same]
      exact findSome_of_unique others l ((List.mem_cons.mp mem).resolve_left (fun h => same h.symm))

/-- A node with one child: its first child is that child and every other entry is empty. -/
theorem firstChild_of_numChildren_one (one : n.numChildren = 1) :
    ∃ i c, n.children i = some c ∧ n.firstChild = some c ∧ ∀ j, j ≠ i → n.children j = none := by
  obtain ⟨i, single⟩ := Finset.card_eq_one.mp one
  have inside : ∀ j, (n.children j).isSome ↔ j = i := by
    intro j
    have := congrArg (j ∈ ·) single
    simpa using this
  obtain ⟨c, hc⟩ := Option.isSome_iff_exists.mp ((inside i).mpr rfl)
  have others : ∀ j, j ≠ i → n.children j = none := by
    intro j ne
    exact Option.not_isSome_iff_eq_none.mp (fun h => ne ((inside j).mp h))
  refine ⟨i, c, hc, ?_, others⟩
  rw [firstChild, findSome_of_unique others _ (List.mem_finRange i), hc]

theorem canHash_of_no_children [DecidableEq H] [Inhabited H] (none : ∀ j, n.children j = none) :
    n.canHash = true := by
  simp [canHash, none]

theorem hash_newLeaf [DecidableEq H] [Inhabited H] (hasher : TrieHasher V H) (key : KeyNibbles) (value : V) :
    (newLeaf key value : TrieNode V H).hash hasher = some (hasher.hashNode ⟨key, .leaf value, fun _ => none⟩) := by
  simp [hash, canHash, newLeaf, valuePart, hasChildren, numChildren]

end Lemmas

end TrieNode

/-- An `unwrap` of a result computed by code that may itself have panicked. -/
def unwrapResult {ε α : Type} : Option (Except ε α) → Option α
  | some (.ok a) => some a
  | _ => none

@[simp] theorem unwrapResult_some_ok {ε α : Type} (a : α) : unwrapResult (some (.ok a : Except ε α)) = some a := rfl

end Albatross
