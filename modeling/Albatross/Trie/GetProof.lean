import Albatross.Trie.Proof
import Albatross.Trie.Runs

/- `MerkleRadixTrie::get_proof` (primitives/trie/src/trie.rs) on a complete trie:
   the keys are taken in reverse post-order, each reached by going up the root path
   from where the previous one left the pointer and then down toward the key; the
   nodes left behind become the proof, and a key whose walk stops short is proven
   absent by the last node reached. A complete trie has no missing range, so
   `IncompleteTrie` is never returned; the panics of `expect`, `unwrap` and `assert!`
   are `none`. -/
namespace Albatross

namespace MerkleRadixTrie

variable {V H : Type}

/-- `missing_proven_by.insert(cur_key, pointer_node.key)` under its `assert!`. -/
def recordAbsence (missing : KeyNibbles → Option KeyNibbles) (key prover : KeyNibbles) :
    Option (KeyNibbles → Option KeyNibbles) :=
  if (missing key).isSome then none else some (Function.update missing key (some prover))

/-- The walk down of `get_proof` toward `curKey`: follow the entry toward the key while
    its key prefixes `curKey`, pushing the pointer onto the root path, and stop at the
    key's node or record the pointer as the key's absence witness. The fuel bounds the
    number of nibbles of the key. -/
def proofDescend (store : NodeStore V H) (curKey : KeyNibbles) :
    Nat → TrieNode V H → List (TrieNode V H) → (KeyNibbles → Option KeyNibbles) →
      Option (TrieNode V H × List (TrieNode V H) × (KeyNibbles → Option KeyNibbles))
  | 0, _, _, _ => none
  | fuel + 1, pointer, rootPath, missing =>
    if pointer.key = curKey then some (pointer, rootPath, missing)
    else match pointer.childKey curKey with
      | some (.ok childKey) =>
        if childKey.isPrefixOf curKey then
          match getNode store childKey with
          | some child => proofDescend store curKey fuel child (pointer :: rootPath) missing
          | none => none
        else (recordAbsence missing curKey pointer.key).map fun missing => (pointer, rootPath, missing)
      | some (.error _) => (recordAbsence missing curKey pointer.key).map fun missing => (pointer, rootPath, missing)
      | none => none

/-- The walk up: pop the root path until the pointer prefixes the next key, adding
    each node left behind to the proof. -/
def climb (toProof : TrieNode V H → TrieProofNode V H) (curKey : KeyNibbles) :
    TrieNode V H → List (TrieNode V H) → List (TrieProofNode V H) →
      Option (TrieNode V H × List (TrieNode V H) × List (TrieProofNode V H))
  | pointer, [], proofNodes =>
    if pointer.key.isPrefixOf curKey then some (pointer, [], proofNodes) else none
  | pointer, parent :: rootPath, proofNodes =>
    if pointer.key.isPrefixOf curKey then some (pointer, parent :: rootPath, proofNodes)
    else climb toProof curKey parent rootPath (proofNodes ++ [toProof pointer])

/-- The loop of `get_proof` over the keys; after the last one the pointer and the
    root path, parent first, close the proof. -/
def proofLoop (store : NodeStore V H) (toProof : TrieNode V H → TrieProofNode V H) :
    List KeyNibbles → KeyNibbles → TrieNode V H → List (TrieNode V H) → List (TrieProofNode V H) →
      (KeyNibbles → Option KeyNibbles) → Option (List (TrieProofNode V H) × (KeyNibbles → Option KeyNibbles))
  | keys, curKey, pointer, rootPath, proofNodes, missing => do
    let (pointer, rootPath, missing) ← proofDescend store curKey (curKey.length + 1) pointer rootPath missing
    match keys with
    | [] => some (proofNodes ++ toProof pointer :: rootPath.map toProof, missing)
    | key :: keys =>
      let (pointer, rootPath, proofNodes) ← climb toProof key pointer rootPath proofNodes
      proofLoop store toProof keys key pointer rootPath proofNodes missing

/-- `get_proof`: a node's hybrid value is included when its key is requested; the
    proof's nodes are sorted in post-order by the stable `sort_by`. -/
def getProof (hasher : TrieHasher V H) (store : NodeStore V H) (keys : List KeyNibbles) :
    Option (TrieProof V H) := do
  let sorted := keys.insertionSort fun a b => postOrderCmp a b ≠ .gt
  let toProof := fun node : TrieNode V H => TrieProofNode.new hasher (decide (node.key ∈ keys)) node
  let root ← getNode store []
  match sorted.reverse with
  | [] => none
  | curKey :: rest =>
    let (proofNodes, missing) ← proofLoop store toProof rest curKey root [] [] fun _ => none
    some ⟨proofNodes.insertionSort fun n₁ n₂ => postOrderCmp n₁.key n₂.key ≠ .gt, missing⟩

section Leaf

variable {s : NodeStore V H} {l k : KeyNibbles} {leaf : TrieNode V H}

/-- The walk toward a key below a stored leaf ends at the leaf and records it as the
    key's absence witness; every node it leaves on the root path is a proper prefix
    of the leaf's key. -/
theorem proofDescend_to_leaf (inv : TrieInvariant s) (stored : s l = some leaf)
    (childless : ∀ i, leaf.children i = none) (below : l <+: k) (ne : l ≠ k)
    (missing : KeyNibbles → Option KeyNibbles) (fresh : missing k = none) :
    ∀ fuel (pointer : TrieNode V H) rootPath, s pointer.key = some pointer → pointer.key <+: l →
      k.length - pointer.key.length < fuel → (∀ q ∈ rootPath, q.key <+: l ∧ q.key ≠ l) →
      ∃ path, proofDescend s k fuel pointer rootPath missing =
          some (leaf, path, Function.update missing k (some l)) ∧ ∀ q ∈ path, q.key <+: l ∧ q.key ≠ l
  | 0, _, _, _, _, enough, _ => absurd enough (Nat.not_lt_zero _)
  | fuel + 1, pointer, rootPath, here, toward, enough, above => by
    by_cases atLeaf : pointer.key = l
    · -- the leaf has no entry toward the key: the walk stops there
      have same : pointer = leaf := by
        rw [atLeaf] at here
        exact Option.some.inj (here.symm.trans stored)
      subst same
      obtain ⟨i, ext⟩ := exists_concat_of_ne below ne
      refine ⟨rootPath, ?_, above⟩
      simp [proofDescend, atLeaf, ne, TrieNode.childKey_of_no_child (atLeaf ▸ ext) (childless i),
        recordAbsence, fresh]
    · -- the entry toward the leaf leads one node further down
      have ok := inv.nodes _ _ here
      obtain ⟨i, ext⟩ := exists_concat_of_ne toward atLeaf
      obtain ⟨t, target, tl⟩ := ok.complete i l ext (by simp [stored])
      have least := ok.sound i t target
      obtain ⟨child, hchild⟩ := Option.ne_none_iff_exists'.mp least.1
      have keyed : child.key = t := inv.keyed hchild
      have extk : pointer.key ++ [i] <+: k := ext.trans below
      have step : proofDescend s k (fuel + 1) pointer rootPath missing =
          proofDescend s k fuel child (pointer :: rootPath) missing := by
        simp [proofDescend, ne_of_concat extk, TrieNode.childKey_of_target extk target,
          List.isPrefixOf_iff_prefix.mpr (tl.trans below), inv.getNode_eq, hchild]
      rw [step]
      have deeper := length_lt_of_concat least.2.1
      have within := (tl.trans below).length_le
      apply proofDescend_to_leaf inv stored childless below ne missing fresh fuel child (pointer :: rootPath)
      · rw [keyed]
        exact hchild
      · rw [keyed]
        exact tl
      · rw [keyed]
        omega
      · intro q mem
        rcases List.mem_cons.mp mem with rfl | older
        · exact ⟨toward, atLeaf⟩
        · exact above q older

/-- `get_proof` for one key below a leaf: the leaf comes first in post-order, and it
    proves the key absent. -/
theorem getProof_below_leaf (hasher : TrieHasher V H) (inv : TrieInvariant s) (stored : s l = some leaf)
    (childless : ∀ i, leaf.children i = none) (below : l <+: k) (ne : l ≠ k) :
    ∃ rest, getProof hasher s [k] =
      some ⟨TrieProofNode.new hasher false leaf :: rest, Function.update (fun _ => none) k (some l)⟩ := by
  obtain ⟨r, root, -⟩ := inv.root
  have rootKey : r.key = [] := inv.keyed root
  obtain ⟨path, walk, above⟩ := proofDescend_to_leaf inv stored childless below ne (fun _ => none) rfl
    (k.length + 1) r [] (rootKey ▸ root) (rootKey ▸ List.nil_prefix) (by rw [rootKey]; omega) (by simp)
  have leafKey : leaf.key = l := inv.keyed stored
  -- every other node of the proof is a proper prefix of the leaf, so it comes later
  have first : ∀ y ∈ path.map (fun node => TrieProofNode.new hasher (decide (node.key = k)) node),
      postOrderCmp l y.key ≠ .gt := by
    intro y mem
    obtain ⟨q, inPath, rfl⟩ := List.mem_map.mp mem
    rw [TrieProofNode.new_key, postOrderCmp_of_prefix (above q inPath).1 (above q inPath).2]
    decide
  refine ⟨(path.map fun node => TrieProofNode.new hasher (decide (node.key = k)) node).insertionSort
    fun n₁ n₂ => postOrderCmp n₁.key n₂.key ≠ .gt, ?_⟩
  have single : ([k].insertionSort fun a b => postOrderCmp a b ≠ .gt) = [k] := rfl
  simp only [getProof, inv.getNode_eq, root, single, List.reverse_singleton, Option.bind_eq_bind, Option.bind_some]
  rw [proofLoop, walk]
  simp only [Option.bind_eq_bind, Option.bind_some, List.nil_append, List.mem_singleton, Option.some.injEq,
    TrieProof.mk.injEq, and_true]
  rw [List.insertionSort_cons_of_forall_rel, leafKey, decide_eq_false ne]
  simpa [leafKey] using first

/-- `verify_values` on nodes that start with a leaf proving the one requested key
    absent: the absence is accepted, the leaf stays the current node, and its own
    value is then found unrequested. -/
theorem verifyValuesLoop_leaf_first [DecidableEq H] (hasher : TrieHasher V H) (b : Bool) {v : V}
    (value : leaf.value = some v) (leafKey : leaf.key = l) (childless : ∀ i, leaf.children i = none)
    (below : l <+: k) (ne : l ≠ k) (rest : List (TrieProofNode V H)) :
    verifyValuesLoop [(l, k)] (TrieProofNode.new hasher b leaf :: rest) (fun _ => none) =
      some (.error .unrequestedValue) := by
  obtain ⟨i, ext⟩ := exists_concat_of_ne below ne
  have noEntry : (TrieProofNode.new hasher b leaf).childKey k = some (.error .childDoesNotExist) := by
    have empty := TrieProofNode.child_of_no_entry (n := TrieProofNode.new hasher b leaf)
      (by simpa [leafKey] using ext) (by simpa using childless i)
    simp [TrieProofNode.childKey, empty, Except.map]
  have leafValue : (TrieProofNode.new hasher b leaf).intoValue = .ok (some v) := by
    simp [TrieProofNode.new, TrieProofNode.intoValue, TrieNode.hasChildren, TrieNode.numChildren, childless,
      value]
  rw [verifyValuesLoop]
  simp only [TrieProofNode.new_key, leafKey, postOrderCmp_self, List.isPrefixOf_iff_prefix.mpr below,
    Bool.not_true, Bool.false_eq_true, if_false, ne, noEntry, Option.isSome_none]
  rw [verifyValuesLoop]
  simp [leafValue, Except.toOption]

end Leaf

/-- A key below a leaf that is not requested: `get_proof` returns a proof in which the
    leaf proves the key absent, and `verify_values` never accepts it, against any root
    hash; once the proof verifies, the leaf's value is reported as unrequested. -/
theorem get_proof_rejects_key_below_leaf [DecidableEq H] (hasher : TrieHasher V H) {s : NodeStore V H}
    (inv : TrieInvariant s) {l k : KeyNibbles} {leaf : TrieNode V H} (stored : s l = some leaf)
    (childless : ∀ i, leaf.children i = none) (nonroot : l ≠ []) (below : l <+: k) (ne : l ≠ k) :
    ∃ p, getProof hasher s [k] = some p ∧ p.missingProvenBy k = some l ∧
      (∀ h, p.verify hasher h = some true → p.verifyValues hasher h [k] = some (.error .unrequestedValue)) ∧
      ∀ h m, p.verifyValues hasher h [k] ≠ some (.ok m) := by
  -- a node off the root without children carries a value
  obtain ⟨v, value⟩ : ∃ v, leaf.value = some v := by
    have valued := ((inv.nodes l leaf stored).nonroot nonroot).2
    have zero : leaf.numChildren = 0 := by simp [TrieNode.numChildren, childless]
    rw [zero] at valued
    simpa [Option.isSome_iff_exists] using valued
  obtain ⟨rest, built⟩ := getProof_below_leaf hasher inv stored childless below ne
  have rejected := verifyValuesLoop_leaf_first hasher false value (inv.keyed stored) childless below ne rest
  set p : TrieProof V H :=
    ⟨TrieProofNode.new hasher false leaf :: rest, Function.update (fun _ => none) k (some l)⟩ with hp
  have sorted : p.sortedKeys [k] = [(l, k)] := by
    simp [hp, TrieProof.sortedKeys]
  have verified : ∀ h, p.verify hasher h = some true →
      p.verifyValues hasher h [k] = some (.error .unrequestedValue) := by
    intro h ok
    simp only [TrieProof.verifyValues, ok, sorted]
    exact rejected
  refine ⟨p, built, by simp [hp], verified, fun h m => ?_⟩
  -- a proof that does not verify is rejected before the values are read
  cases result : p.verify hasher h with
  | none => simp [TrieProof.verifyValues, result]
  | some ok =>
    cases ok with
    | false => simp [TrieProof.verifyValues, result]
    | true => simp [verified h result]

/-- The trie after putting a value under the key 1: the key 1,2 below that leaf. -/
theorem leaf_value_rejects_absent_child :
    ∃ s, applyAll (⟨id, fun _ => 1⟩ : TrieHasher Nat Nat) new [TrieOp.put [1] 5] = some s ∧
      ∃ p, getProof (⟨id, fun _ => 1⟩ : TrieHasher Nat Nat) s [[1, 2]] = some p ∧
        p.missingProvenBy [1, 2] = some [1] ∧
        (∀ h, p.verify ⟨id, fun _ => 1⟩ h = some true →
          p.verifyValues ⟨id, fun _ => 1⟩ h [[1, 2]] = some (.error .unrequestedValue)) ∧
        ∀ h m, p.verifyValues ⟨id, fun _ => 1⟩ h [[1, 2]] ≠ some (.ok m) := by
  obtain ⟨s, run, inv, -⟩ := applyAll_from_new (⟨id, fun _ => 1⟩ : TrieHasher Nat Nat) [TrieOp.put [1] 5] (by decide)
  -- the node under the key 1 is a leaf, as running the put shows
  have leafNode : (s [1]).map (fun n => (List.finRange 16).all fun i => (n.children i).isNone) = some true := by
    have ran : ((applyAll (⟨id, fun _ => 1⟩ : TrieHasher Nat Nat) new [TrieOp.put [1] 5]).bind fun s => s [1]).map
        (fun n => (List.finRange 16).all fun i => (n.children i).isNone) = some true := by decide
    rwa [run] at ran
  obtain ⟨leaf, stored, childless⟩ : ∃ leaf, s [1] = some leaf ∧ ∀ i, leaf.children i = none := by
    cases found : s [1] with
    | none => simp [found] at leafNode
    | some leaf =>
      refine ⟨leaf, rfl, fun i => ?_⟩
      simp only [found, Option.map_some, Option.some.injEq, List.all_eq_true, List.mem_finRange,
        Option.isNone_iff_eq_none, true_implies] at leafNode
      exact leafNode i
  exact ⟨s, run, get_proof_rejects_key_below_leaf _ inv stored childless (by decide) (by decide) (by decide)⟩

end MerkleRadixTrie

end Albatross
