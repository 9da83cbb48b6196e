import Albatross.Trie.Node

/- The operations of `MerkleRadixTrie` on a complete trie (primitives/trie/src/trie.rs):
   `put_raw`, `remove_raw`, `update_keys` with the node counters of `CountUpdates`,
   `update_hashes` and `update_root`. The table is a function from keys to nodes. The
   root path is a stack, the last pushed node first and the root last, and the loop
   that `put_raw` and `remove_raw` share to walk down to the key is `descend`. -/
namespace Albatross

abbrev NodeStore (V H : Type) := KeyNibbles → Option (TrieNode V H)

/-- The `i8` counters of the updates an operation made, per node kind. -/
structure CountUpdates where
  branches : Int
  hybrids : Int
  leaves : Int
  deriving DecidableEq, Repr

def u64Bound : Nat := 2 ^ 64

namespace CountUpdates

/-- `*counter_mut(kind) += delta`; the root has no counter. -/
def add (c : CountUpdates) (kind : Option TrieNodeKind) (delta : Int) : CountUpdates :=
  match kind with
  | some .branch => { c with branches := c.branches + delta }
  | some .hybrid => { c with hybrids := c.hybrids + delta }
  | some .leaf => { c with leaves := c.leaves + delta }
  | _ => c

def applyUpdate (c : CountUpdates) (prev cur : Option TrieNodeKind) : CountUpdates :=
  (c.add prev (-1)).add cur 1

def fromUpdate (prev cur : Option TrieNodeKind) : CountUpdates := (⟨0, 0, 0⟩ : CountUpdates).applyUpdate prev cur

def isEmpty (c : CountUpdates) : Bool := c.branches = 0 && c.hybrids = 0 && c.leaves = 0

/-- `apply_difference` on a `u64` counter: below zero it wraps, as in the release
    build. An addition would need `2^64` nodes to overflow and is not bounded. -/
def applyDifference (data : Nat) (diff : Int) : Nat :=
  if 0 ≤ diff then data + diff.toNat
  else if diff.natAbs ≤ data then data - diff.natAbs
  else data + u64Bound - diff.natAbs

def updateRootData (c : CountUpdates) (rootData : RootData) : RootData :=
  ⟨applyDifference rootData.numBranches c.branches, applyDifference rootData.numHybrids c.hybrids,
    applyDifference rootData.numLeaves c.leaves⟩

/-- The counter of a kind; the root has none. -/
def get (c : CountUpdates) : TrieNodeKind → Int
  | .branch => c.branches
  | .hybrid => c.hybrids
  | .leaf => c.leaves
  | .root => 0

/-- The indicator of a node kind, as the counters count it. -/
def hit (kind : Option TrieNodeKind) (K : TrieNodeKind) : Int := if kind = some K then 1 else 0

@[simp] theorem hit_none (K : TrieNodeKind) : hit none K = 0 := rfl

theorem get_add (c : CountUpdates) (kind : Option TrieNodeKind) (delta : Int) {K : TrieNodeKind}
    (counted : K ≠ .root) : (c.add kind delta).get K = c.get K + hit kind K * delta := by
  cases K <;> rcases kind with _ | _ | _ | _ | _ <;> simp_all [add, get, hit]

theorem get_applyUpdate (c : CountUpdates) (prev cur : Option TrieNodeKind) {K : TrieNodeKind}
    (counted : K ≠ .root) : (c.applyUpdate prev cur).get K = c.get K - hit prev K + hit cur K := by
  simp only [applyUpdate, get_add _ _ _ counted, mul_neg, mul_one]
  omega

theorem get_mk (b h l : Int) {K : TrieNodeKind} (counted : K ≠ .root) :
    (⟨b, h, l⟩ : CountUpdates).get K = b * hit (some .branch) K + h * hit (some .hybrid) K + l * hit (some .leaf) K := by
  cases K <;> simp_all [get, hit]

theorem isEmpty_iff (c : CountUpdates) : c.isEmpty = true ↔ c.branches = 0 ∧ c.hybrids = 0 ∧ c.leaves = 0 := by
  simp [isEmpty, and_assoc]

theorem applyDifference_eq {data : Nat} {diff : Int} (fits : 0 ≤ (data : Int) + diff) :
    applyDifference data diff = ((data : Int) + diff).toNat := by
  unfold applyDifference
  split
  · omega
  · split <;> omega

theorem updateRootData_eq (c : CountUpdates) (before after : TrieNodeKind → Nat)
    (moved : ∀ K, K ≠ .root → (after K : Int) = before K + c.get K) :
    c.updateRootData ⟨before .branch, before .hybrid, before .leaf⟩ =
      ⟨after .branch, after .hybrid, after .leaf⟩ := by
  have branch := moved .branch (by decide)
  have hybrid := moved .hybrid (by decide)
  have leaf := moved .leaf (by decide)
  simp only [get] at branch hybrid leaf
  simp only [updateRootData, RootData.mk.injEq]
  refine ⟨?_, ?_, ?_⟩ <;> rw [applyDifference_eq (by omega)] <;> omega

end CountUpdates

inductive TrieOp (V : Type) where
  | put (key : KeyNibbles) (value : V)
  | remove (key : KeyNibbles)

namespace MerkleRadixTrie

variable {V H : Type}

/-- `get_node`: the key is not serialised with the node but set from the table key. -/
def getNode (store : NodeStore V H) (key : KeyNibbles) : Option (TrieNode V H) :=
  (store key).map fun node => { node with key := key }

def putNode (store : NodeStore V H) (node : TrieNode V H) : NodeStore V H :=
  Function.update store node.key (some node)

def removeNode (store : NodeStore V H) (key : KeyNibbles) : NodeStore V H :=
  Function.update store key none

/-- `new`: a table with only the complete, empty root. -/
def new : NodeStore V H := putNode (fun _ => none) TrieNode.newRoot

/-- `get` on a complete trie, which is `get_raw`. -/
def get (store : NodeStore V H) (key : KeyNibbles) : Option V := (getNode store key).bind (·.value)

section Store

variable {s : NodeStore V H} {k : KeyNibbles}

theorem getNode_of_keyed (keyed : ∀ n, s k = some n → n.key = k) : getNode s k = s k := by
  unfold getNode
  cases stored : s k with
  | none => rfl
  | some n =>
    obtain rfl := keyed n stored
    rfl

theorem putNode_apply (n : TrieNode V H) : putNode s n k = if k = n.key then some n else s k := by
  simp [putNode, Function.update_apply]

theorem removeNode_apply (key : KeyNibbles) : removeNode s key k = if k = key then none else s k := by
  simp [removeNode, Function.update_apply]

@[simp] theorem get_eq (s : NodeStore V H) (key : KeyNibbles) : get s key = (s key).bind (·.value) := by
  unfold get getNode
  cases s key <;> rfl

end Store

/-- Why the walk down to a key stopped. -/
inductive Descent (V H : Type) where
  | notPrefix (curNode : TrieNode V H)
  | found (curNode : TrieNode V H)
  | noChild (curNode : TrieNode V H)

/-- The loop of `put_raw` and `remove_raw`: from `curNode`, follow the child toward
    `key`, pushing each node left behind onto the root path. -/
def descend (store : NodeStore V H) (key : KeyNibbles) :
    Nat → TrieNode V H → List (TrieNode V H) → Option (Descent V H × List (TrieNode V H))
  | 0, _, _ => none
  | fuel + 1, curNode, rootPath =>
    if !curNode.key.isPrefixOf key then some (.notPrefix curNode, rootPath)
    else if curNode.key = key then some (.found curNode, rootPath)
    else match curNode.childKey key with
      | some (.error _) => some (.noChild curNode, rootPath)
      | some (.ok childKey) =>
        match getNode store childKey with
        | some child => descend store key fuel child (curNode :: rootPath)
        | none => none
      | none => none

/-- Add the counter updates to the root data of the root, the bottom of the stack. -/
def applyCounts (countUpdates : CountUpdates) : List (TrieNode V H) → Option (List (TrieNode V H))
  | [] => none
  | [root] => root.rootData.map fun rootData =>
    [{ root with rootData := some (countUpdates.updateRootData rootData) }]
  | node :: rest => (applyCounts countUpdates rest).map (node :: ·)

/-- The loop of `update_keys`: each parent marks the child above it dirty. -/
def updateKeysLoop [Inhabited H] (store : NodeStore V H) (childNode : TrieNode V H) :
    List (TrieNode V H) → Option (NodeStore V H)
  | [] => some store
  | parentNode :: rootPath => do
    let parentNode ← unwrapResult (parentNode.putChild childNode.key default)
    if rootPath.isEmpty ≠ parentNode.isRoot then none
    else updateKeysLoop (putNode store parentNode) parentNode rootPath

def updateKeys [Inhabited H] (store : NodeStore V H) (rootPath : List (TrieNode V H))
    (countUpdates : CountUpdates) : Option (NodeStore V H) := do
  let rootPath ← if countUpdates.isEmpty then some rootPath else applyCounts countUpdates rootPath
  match rootPath with
  | [] => none
  | childNode :: parents =>
    if !countUpdates.isEmpty && parents.isEmpty then some (putNode store childNode)
    else updateKeysLoop store childNode parents

def putRaw [DecidableEq H] [Inhabited H] (hasher : TrieHasher V H) (store : NodeStore V H)
    (key : KeyNibbles) (value : V) : Option (NodeStore V H) := do
  let root ← getNode store []
  let (exit, rootPath) ← descend store key (key.length + 1) root []
  match exit with
  | .notPrefix curNode =>
    if key.isPrefixOf curNode.key then
      -- the new node is the parent of `curNode`: a hybrid node
      let newNode ← unwrapResult ((TrieNode.newLeaf key value : TrieNode V H).putChild curNode.key default)
      updateKeys (putNode store newNode) (newNode :: rootPath) ⟨0, 1, 0⟩
    else
      -- a sibling of `curNode`, under a new branch node
      let newNode : TrieNode V H := TrieNode.newLeaf key value
      let store := putNode store newNode
      let newParent ← unwrapResult
        ((TrieNode.newEmpty (commonPrefix curNode.key key) : TrieNode V H).putChildNoHash curNode.key)
      let newHash ← newNode.hash hasher
      let newParent ← unwrapResult (newParent.putChild newNode.key newHash)
      updateKeys (putNode store newParent) (newParent :: rootPath) ⟨1, 0, 1⟩
  | .found curNode =>
    let prevKind := curNode.kind
    let (curNode, _) ← (curNode.putValue value).toOption
    updateKeys (putNode store curNode) (curNode :: rootPath) (CountUpdates.fromUpdate prevKind curNode.kind)
  | .noChild curNode =>
    let newNode : TrieNode V H := TrieNode.newLeaf key value
    let store := putNode store newNode
    let oldKind := curNode.kind
    let newHash ← newNode.hash hasher
    let curNode ← unwrapResult (curNode.putChild newNode.key newHash)
    updateKeys (putNode store curNode) (curNode :: rootPath)
      ((⟨0, 0, 1⟩ : CountUpdates).applyUpdate oldKind curNode.kind)

/-- The loop of `remove_raw` after a leaf is removed: walk up the root path. -/
def removeUp [Inhabited H] (store : NodeStore V H) (childKey : KeyNibbles) (countUpdates : CountUpdates) :
    List (TrieNode V H) → Option (NodeStore V H)
  | [] => some store
  | parentNode :: rootPath => do
    let prevParentKind := parentNode.kind
    let parentNode ← unwrapResult (parentNode.removeChild childKey)
    let countUpdates := countUpdates.applyUpdate prevParentKind parentNode.kind
    if parentNode.numChildren = 1 && !parentNode.isRoot && !parentNode.isHybrid then
      -- merge the node with its only child
      let store := removeNode store parentNode.key
      let countUpdates := countUpdates.applyUpdate parentNode.kind none
      let onlyChild ← parentNode.firstChild
      let onlyChild ← getNode store (onlyChild.key parentNode.key)
      updateKeys store (onlyChild :: rootPath) countUpdates
    else if !parentNode.isEmpty then
      updateKeys (putNode store parentNode) (parentNode :: rootPath) countUpdates
    else
      removeUp (removeNode store parentNode.key) parentNode.key
        (countUpdates.applyUpdate parentNode.kind none) rootPath

def removeRaw [Inhabited H] (store : NodeStore V H) (key : KeyNibbles) : Option (NodeStore V H) := do
  let root ← getNode store []
  let (exit, rootPath) ← descend store key (key.length + 1) root []
  match exit with
  | .notPrefix _ => some store
  | .noChild _ => some store
  | .found curNode =>
    let prevKind := curNode.kind
    let curNode := { curNode with value := none }
    if curNode.isRoot || curNode.hasChildren then
      if curNode.numChildren = 1 && !curNode.isRoot then
        -- a hybrid node with one child is merged with that child
        let store := removeNode store curNode.key
        let onlyChild ← curNode.firstChild
        let onlyChild ← getNode store (onlyChild.key curNode.key)
        updateKeys store (onlyChild :: rootPath) ⟨0, -1, 0⟩
      else
        updateKeys (putNode store curNode) (curNode :: rootPath) (CountUpdates.fromUpdate prevKind curNode.kind)
    else
      removeUp (removeNode store key) key ⟨0, 0, -1⟩ rootPath

/-- `put` and `remove` on a complete trie, where every key is in the complete part. -/
def apply [DecidableEq H] [Inhabited H] (hasher : TrieHasher V H) (store : NodeStore V H) :
    TrieOp V → Option (NodeStore V H)
  | .put key value => putRaw hasher store key value
  | .remove key => removeRaw store key

def applyAll [DecidableEq H] [Inhabited H] (hasher : TrieHasher V H) (store : NodeStore V H)
    (ops : List (TrieOp V)) : Option (NodeStore V H) :=
  ops.foldlM (apply hasher) store

/-- One round of the loop of `update_hashes` at `key`: an entry without a hash gets the
    hash that `update_hashes` returns for the node it names, when it returns one. -/
def hashChild [DecidableEq H] [Inhabited H]
    (updateBelow : NodeStore V H → KeyNibbles → Option (Option H × NodeStore V H)) (key : KeyNibbles) :
    (Fin 16 → Option (TrieNodeChild H)) × NodeStore V H → Fin 16 →
      Option ((Fin 16 → Option (TrieNodeChild H)) × NodeStore V H)
  | (children, store), i =>
    match children i with
    | some child =>
      if child.hasHash then some (children, store)
      else do
        let (result, store) ← updateBelow store (child.key key)
        match result with
        | some hash => some (Function.update children i (some { child with hash := hash }), store)
        | none => some (children, store)
    | none => some (children, store)

/-- `update_hashes`: recompute the missing hashes below `key`, one recursion per
    level of the trie. The result is the node's hash, `none` for `IncompleteTrie`. -/
def updateHashes [DecidableEq H] [Inhabited H] (hasher : TrieHasher V H) :
    Nat → NodeStore V H → KeyNibbles → Option (Option H × NodeStore V H)
  | 0, _, _ => none
  | fuel + 1, store, key => do
    let node ← getNode store key
    if !node.hasChildren then some (node.hash hasher, store)
    else
      let (children, store) ←
        List.foldlM (hashChild (updateHashes hasher fuel) key) (node.children, store) (List.finRange 16)
      let node := { node with children := children }
      some (node.hash hasher, putNode store node)

/-- `KeyNibbles::MAX_BYTES`: a key has at most twice as many nibbles. -/
def maxBytes : Nat := 63

/-- `update_root`. The recursion of `update_hashes` goes one level per nibble. -/
def updateRoot [DecidableEq H] [Inhabited H] (hasher : TrieHasher V H) (store : NodeStore V H) :
    Option (NodeStore V H × Except MerkleRadixTrieError Unit) :=
  (updateHashes hasher (2 * maxBytes + 1) store []).map fun (hash, store) =>
    (store, if hash.isSome then .ok () else .error .incompleteTrie)

/-- `root_hash` on a complete trie; its assert panics when the root cannot be hashed. -/
def rootHash [DecidableEq H] [Inhabited H] (hasher : TrieHasher V H) (store : NodeStore V H) :
    Option H := (getNode store []).bind (·.hash hasher)

end MerkleRadixTrie

namespace TrieOp

variable {V : Type}

/-- What an operation does to the map from keys to values. -/
def applyMap (m : KeyNibbles → Option V) : TrieOp V → KeyNibbles → Option V
  | .put key value => Function.update m key (some value)
  | .remove key => Function.update m key none

/-- The map a sequence of operations leaves: each key holds the value of its last
    put that no remove follows. -/
def lastWrites (ops : List (TrieOp V)) : KeyNibbles → Option V := ops.foldl applyMap fun _ => none

def key : TrieOp V → KeyNibbles
  | .put key _ => key
  | .remove key => key

end TrieOp

end Albatross
