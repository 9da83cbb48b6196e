import Albatross.Trie.Remove

/- Runs of `put` and `remove` on a complete trie created by `new`: every table a run
   reaches has the invariant of `TrieInvariant`, and `get` returns for each key the
   value of its last put that no remove follows. -/
namespace Albatross

namespace TrieOp

variable {V : Type}

/-- The value a run leaves at a key: the value of the last operation on that key,
    or what the map held before when there is none. -/
theorem foldl_applyMap (k : KeyNibbles) :
    ∀ (ops : List (TrieOp V)) (m : KeyNibbles → Option V),
      ops.foldl applyMap m k =
        match (ops.filter (·.key = k)).getLast? with
        | some (.put _ value) => some value
        | some (.remove _) => none
        | none => m k
  | [], m => rfl
  | op :: ops, m => by
    rw [List.foldl_cons, foldl_applyMap k ops]
    -- the operations after `op` decide, unless none of them is on the key
    cases later : (ops.filter (·.key = k)).getLast? with
    | some last =>
      have : ((op :: ops).filter (·.key = k)).getLast? = some last := by
        rw [List.filter_cons]
        split
        · rw [List.getLast?_cons, later]
          rfl
        · exact later
      rw [this]
      cases last <;> rfl
    | none =>
      have empty : ops.filter (·.key = k) = [] := List.getLast?_eq_none_iff.mp later
      rw [List.filter_cons, empty]
      cases op with
      | put key value =>
        by_cases here : key = k
        · subst here
          simp [applyMap, TrieOp.key]
        · simp [applyMap, TrieOp.key, here, Function.update_of_ne (Ne.symm here)]
      | remove key =>
        by_cases here : key = k
        · subst here
          simp [applyMap, TrieOp.key]
        · simp [applyMap, TrieOp.key, here, Function.update_of_ne (Ne.symm here)]

/-- `lastWrites` holds at each key the value of the last put on it that no remove
    follows, and nothing where there is none. -/
theorem lastWrites_eq (ops : List (TrieOp V)) (k : KeyNibbles) :
    lastWrites ops k =
      match (ops.filter (·.key = k)).getLast? with
      | some (.put _ value) => some value
      | _ => none := by
  rw [lastWrites, foldl_applyMap]
  cases (ops.filter (·.key = k)).getLast? with
  | none => rfl
  | some op => cases op <;> rfl

end TrieOp

namespace MerkleRadixTrie

variable {V H : Type}

theorem get_new : get (new : NodeStore V H) = fun _ => none := by
  funext k
  by_cases root : k = []
  · subst root
    simp [new, putNode_apply, TrieNode.newRoot]
  · simp [new, putNode_apply, TrieNode.newRoot, root]

variable [DecidableEq H] [Inhabited H]

/-- One operation keeps the invariant and writes the map: the step of a run. -/
theorem apply_spec (hasher : TrieHasher V H) {s : NodeStore V H} (inv : TrieInvariant s) (op : TrieOp V)
    (nonempty : op.key ≠ []) :
    ∃ s', apply hasher s op = some s' ∧ TrieInvariant s' ∧ get s' = TrieOp.applyMap (get s) op := by
  cases op with
  | put key value => exact putRaw_spec hasher inv nonempty value
  | remove key => exact removeRaw_spec inv nonempty

theorem applyAll_spec (hasher : TrieHasher V H) :
    ∀ (ops : List (TrieOp V)) {s : NodeStore V H}, TrieInvariant s → (∀ op ∈ ops, op.key ≠ []) →
      ∃ s', applyAll hasher s ops = some s' ∧ TrieInvariant s' ∧ get s' = ops.foldl TrieOp.applyMap (get s)
  | [], s, inv, _ => ⟨s, rfl, inv, rfl⟩
  | op :: ops, s, inv, keys => by
    obtain ⟨s₁, step, inv₁, written⟩ := apply_spec hasher inv op (keys op List.mem_cons_self)
    obtain ⟨s', run, inv', get'⟩ :=
      applyAll_spec hasher ops inv₁ fun op' mem => keys op' (List.mem_cons_of_mem _ mem)
    refine ⟨s', ?_, inv', ?_⟩
    · rw [applyAll, List.foldlM_cons, step]
      exact run
    · rw [get', written, List.foldl_cons]

theorem applyAll_from_new (hasher : TrieHasher V H) (ops : List (TrieOp V)) (keys : ∀ op ∈ ops, op.key ≠ []) :
    ∃ s, applyAll hasher new ops = some s ∧ TrieInvariant s ∧ ∀ k, get s k = TrieOp.lastWrites ops k := by
  obtain ⟨s, run, inv, written⟩ := applyAll_spec hasher ops new_invariant keys
  refine ⟨s, run, inv, fun k => ?_⟩
  rw [written, get_new]
  rfl

theorem applyAll_from_new_three_ops :
    (∀ op ∈ [TrieOp.put [1] 5, .put [1, 2] 6, .remove [1]], op.key ≠ []) ∧
      ∃ s, applyAll (⟨id, fun _ => 0⟩ : TrieHasher Nat Nat) new [TrieOp.put [1] 5, .put [1, 2] 6, .remove [1]] =
          some s ∧
        TrieInvariant s ∧ ∀ k, get s k = TrieOp.lastWrites [TrieOp.put [1] 5, .put [1, 2] 6, .remove [1]] k :=
  ⟨by decide, applyAll_from_new _ _ (by decide)⟩

end MerkleRadixTrie

end Albatross
