import Albatross.Trie.Invariant

/- Inclusion and exclusion proofs of the trie (primitives/src/trie/trie_proof.rs,
   trie_proof_node.rs, and `post_order_cmp` of key_nibbles.rs). A proof node carries
   a key, its children's entries and as much of its value as the proof needs; its
   hash is computed as `TrieNode::hash` computes a node's. `verify` checks the
   post-order stack of nodes against the root hash, `verify_values` merges the
   requested keys, sorted by the nodes that prove them, with the nodes. Byte values
   are `V`, the `missing_proven_by` map is a function, the result map a function to
   `Option (Option V)`. A panic is `none`. -/
namespace Albatross

variable {V H : Type}

/-- `post_order_cmp`: a key comes after every key it prefixes. Two keys of which
    neither prefixes the other are compared by the derived order, which on the
    zero-padded nibbles is the lexicographic order of the nibble lists. -/
def postOrderCmp (a b : KeyNibbles) : Ordering :=
  match a.isPrefixOf b, b.isPrefixOf a with
  | true, true => .eq
  | true, false => .gt
  | false, true => .lt
  | false, false => compare a b

theorem postOrderCmp_self (k : KeyNibbles) : postOrderCmp k k = .eq := by
  have self : k.isPrefixOf k = true := List.isPrefixOf_iff_prefix.mpr (List.prefix_refl k)
  simp only [postOrderCmp, self]

theorem postOrderCmp_of_prefix {p k : KeyNibbles} (h : p <+: k) (ne : p ≠ k) : postOrderCmp k p = .lt := by
  have notBack : k.isPrefixOf p = false := Bool.eq_false_iff.mpr fun back =>
    ne (h.eq_of_length (le_antisymm h.length_le (List.isPrefixOf_iff_prefix.mp back).length_le))
  simp only [postOrderCmp, List.isPrefixOf_iff_prefix.mpr h, notBack]

inductive ProofValue (V H : Type) where
  | none
  | leafValue (value : V)
  | hybridHash (valueHash : H)
  | hybridValue (value : V)

/-- What `serialize_content` writes for the value, as `TrieNode::hash` writes it. -/
def ProofValue.part (hasher : TrieHasher V H) : ProofValue V H → ValuePart V H
  | .none => .none
  | .leafValue value => .leaf value
  | .hybridHash valueHash => .hybrid valueHash
  | .hybridValue value => .hybrid (hasher.hashValue value)

structure TrieProofNode (V H : Type) where
  key : KeyNibbles
  value : ProofValue V H
  children : Fin 16 → Option (TrieNodeChild H)

/-- `NodeValueMissing`: a hybrid node whose value the proof holds only hashed. -/
structure NodeValueMissing where
  deriving DecidableEq, Repr

namespace TrieProofNode

/-- `TrieProofNode::new`: the value of a node with children is hashed unless asked for. -/
def new (hasher : TrieHasher V H) (includeHybridValue : Bool) (node : TrieNode V H) : TrieProofNode V H :=
  let value := match node.hasChildren, node.value, includeHybridValue with
    | _, none, _ => ProofValue.none
    | false, some val, _ => .leafValue val
    | true, some val, false => .hybridHash (hasher.hashValue val)
    | true, some val, true => .hybridValue val
  ⟨node.key, value, node.children⟩

def intoValue (n : TrieProofNode V H) : Except NodeValueMissing (Option V) :=
  match n.value with
  | .none => .ok none
  | .leafValue value => .ok (some value)
  | .hybridHash _ => .error ⟨⟩
  | .hybridValue value => .ok (some value)

def hasChildren (n : TrieProofNode V H) : Bool := (List.finRange 16).any fun i => (n.children i).isSome

/-- `child_index`: the `unwrap` panics on a key no longer than the node's. -/
def childIndex (n : TrieProofNode V H) (childPrefix : KeyNibbles) :
    Option (Except MerkleRadixTrieError (Fin 16)) :=
  if n.key.isPrefixOf childPrefix then (childPrefix[n.key.length]?).map .ok
  else some (.error .wrongPrefix)

def child (n : TrieProofNode V H) (childPrefix : KeyNibbles) :
    Option (Except MerkleRadixTrieError (TrieNodeChild H)) :=
  (n.childIndex childPrefix).map fun index => index.bind fun i =>
    match n.children i with
    | some c => .ok c
    | none => .error .childDoesNotExist

def childKey (n : TrieProofNode V H) (childPrefix : KeyNibbles) :
    Option (Except MerkleRadixTrieError KeyNibbles) :=
  (n.child childPrefix).map (Except.map (·.key n.key))

def hash (hasher : TrieHasher V H) (n : TrieProofNode V H) : H :=
  hasher.hashNode ⟨n.key, n.value.part hasher, n.children⟩

section Lemmas

variable {n : TrieProofNode V H} {k : KeyNibbles} {i : Fin 16} {c : TrieNodeChild H}

@[simp] theorem new_key (hasher : TrieHasher V H) (b : Bool) (node : TrieNode V H) :
    (new hasher b node).key = node.key := rfl

@[simp] theorem new_children (hasher : TrieHasher V H) (b : Bool) (node : TrieNode V H) :
    (new hasher b node).children = node.children := rfl

theorem childIndex_of_concat (h : n.key ++ [i] <+: k) : n.childIndex k = some (.ok i) := by
  simp [childIndex, prefix_of_concat h, getElem?_of_concat h]

theorem child_of_entry (h : n.key ++ [i] <+: k) (entry : n.children i = some c) :
    n.child k = some (.ok c) := by
  simp [child, childIndex_of_concat h, entry, Except.bind]

theorem child_of_no_entry (h : n.key ++ [i] <+: k) (empty : n.children i = none) :
    n.child k = some (.error .childDoesNotExist) := by
  simp [child, childIndex_of_concat h, empty, Except.bind]

theorem childKey_of_child (h : n.child k = some (.ok c)) : n.childKey k = some (.ok (c.key n.key)) := by
  simp [childKey, h, Except.map]

theorem child_eq_ok (h : n.child k = some (.ok c)) : ∃ i, n.key ++ [i] <+: k ∧ n.children i = some c := by
  unfold child childIndex at h
  by_cases pre : n.key <+: k
  · cases get : k[n.key.length]? with
    | none => simp [List.isPrefixOf_iff_prefix.mpr pre, get] at h
    | some i =>
      refine ⟨i, concat_prefix_of_getElem? pre get, ?_⟩
      cases entry : n.children i <;> simp_all [Except.bind]
  · simp [pre, Except.bind] at h

end Lemmas

end TrieProofNode

/-- The texts of `trie_proof::Error`. -/
inductive ProofError where
  /-- "proof invalid" -/
  | proofInvalid
  /-- "not all requested proof values are present" -/
  | notAllPresent
  /-- "value present that wasn't requested" -/
  | unrequestedValue
  /-- "tried to prove key with non-parent" -/
  | nonParent
  /-- "requested hybrid node value missing" -/
  | hybridValueMissing
  /-- "negative proof for node missing" -/
  | negativeProofMissing
  deriving DecidableEq, Repr

structure TrieProof (V H : Type) where
  nodes : List (TrieProofNode V H)
  missingProvenBy : KeyNibbles → Option KeyNibbles

/-- What `verify_values` returns: each requested key with its value, `none` absent. -/
abbrev ProvenValues (V : Type) := KeyNibbles → Option (Option V)

section Verify

variable [DecidableEq H]

/-- The inner loop of `verify`: pop the nodes below `node` off the stack, each of
    which must be the child `node` names, with its hash. The result is `none` for a
    panic, `some none` for a rejected proof, or the rest of the stack. -/
def popChildren (hasher : TrieHasher V H) (node : TrieProofNode V H) :
    List (TrieProofNode V H) → Option (Option (List (TrieProofNode V H)))
  | [] => some (some [])
  | child :: children =>
    if node.key.isPrefixOf child.key then do
      let c ← node.child child.key
      let k ← node.childKey child.key
      match c, k with
      | .ok c, .ok k =>
        if c.hash ≠ child.hash hasher ∨ k ≠ child.key then some none
        else popChildren hasher node children
      | _, _ => some none
    else some (some (child :: children))

/-- The loop of `verify` over the nodes; the stack has its top at the head. -/
def verifyLoop (hasher : TrieHasher V H) :
    List (TrieProofNode V H) → List (TrieProofNode V H) → Option (Option (List (TrieProofNode V H)))
  | [], children => some (some children)
  | node :: nodes, children =>
    if node.hasChildren then
      match popChildren hasher node children with
      | none => none
      | some none => some none
      | some (some children) => verifyLoop hasher nodes (node :: children)
    else verifyLoop hasher nodes (node :: children)

/-- `TrieProof::verify`: one node is left on the stack, the root with the root hash. -/
def TrieProof.verify (hasher : TrieHasher V H) (p : TrieProof V H) (rootHash : H) : Option Bool :=
  if p.nodes.isEmpty then some false
  else match verifyLoop hasher p.nodes [] with
    | none => none
    | some none => some false
    | some (some [root]) => some (root.key = [] && root.hash hasher = rootHash)
    | some (some _) => some false

/-- The requested keys paired with the keys of the nodes that prove them, in the
    order of the stable `sort_by`. -/
def TrieProof.sortedKeys (p : TrieProof V H) (keys : List KeyNibbles) : List (KeyNibbles × KeyNibbles) :=
  (keys.map fun k => ((p.missingProvenBy k).getD k, k)).insertionSort
    fun a b => (postOrderCmp a.1 b.1).then (postOrderCmp a.2 b.2) ≠ .gt

omit [DecidableEq H] in
theorem TrieProof.sortedKeys_perm (p : TrieProof V H) (keys : List KeyNibbles) :
    (p.sortedKeys keys).Perm (keys.map fun k => ((p.missingProvenBy k).getD k, k)) :=
  List.perm_insertionSort _ _

/-- The merge loop of `verify_values`: a node equal to the next key's prover proves
    the key's value, or its absence if it is a proper prefix of the key; a node
    passed over must not carry a value. An `insert` that finds the key panics. -/
def verifyValuesLoop :
    List (KeyNibbles × KeyNibbles) → List (TrieProofNode V H) → ProvenValues V →
      Option (Except ProofError (ProvenValues V))
  | [], [], result => some (.ok result)
  | _ :: _, [], _ => some (.error .notAllPresent)
  | [], n :: nodes, result =>
    if (n.intoValue.toOption.bind id).isSome then some (.error .unrequestedValue)
    else verifyValuesLoop [] nodes result
  | (kp, k) :: keys, n :: nodes, result =>
    match postOrderCmp kp n.key with
    | .lt => some (.error .notAllPresent)
    | .gt =>
      if (n.intoValue.toOption.bind id).isSome then some (.error .unrequestedValue)
      else verifyValuesLoop ((kp, k) :: keys) nodes result
    | .eq =>
      if !n.key.isPrefixOf k then some (.error .nonParent)
      else if n.key = k then
        match n.intoValue with
        | .error _ => some (.error .hybridValueMissing)
        | .ok value =>
          if (result n.key).isSome then none
          else verifyValuesLoop keys nodes (Function.update result n.key (some value))
      else
        match n.childKey k with
        | none => none
        | some (.ok childKey) =>
          if childKey.isPrefixOf k then some (.error .negativeProofMissing)
          else if (result k).isSome then none
          else verifyValuesLoop keys (n :: nodes) (Function.update result k (some none))
        | some (.error _) =>
          if (result k).isSome then none
          else verifyValuesLoop keys (n :: nodes) (Function.update result k (some none))
termination_by keys nodes => keys.length + nodes.length

def TrieProof.verifyValues (hasher : TrieHasher V H) (p : TrieProof V H) (rootHash : H)
    (keys : List KeyNibbles) : Option (Except ProofError (ProvenValues V)) :=
  match p.verify hasher rootHash with
  | none => none
  | some false => some (.error .proofInvalid)
  | some true => verifyValuesLoop (p.sortedKeys keys) p.nodes fun _ => none

end Verify

end Albatross
