import Albatross.Trie.Diff
import Albatross.Trie.Runs

/- Change recording on a complete trie (trie/src/trie.rs with the proxy of
   trie/src/transaction.rs), and `apply_diff` where every key is in the complete
   part. Of the node writes of `put_raw` and `remove_raw`, one is labelled with the
   value it replaces, at the operation's key; the others are labelled `Unchanged` or
   are new branch nodes without a value, and record nothing. So over any run the
   recording holds the net change of each key, and the diffs built from it replay
   the run forward and back. -/
namespace Albatross

namespace MerkleRadixTrie

variable {V H : Type}

/-- The labelled writes of `put_raw`, in order, from the same walk as its writes:
    a new leaf or hybrid node at the key, labelled `OldValue::None`, with a new branch
    node above it, or the parent's update, labelled `Unchanged`; or the key's node,
    labelled with the value `put_value` replaced. `update_keys` writes `Unchanged`. -/
def putRawWrites (store : NodeStore V H) (key : KeyNibbles) (value : V) :
    Option (List (KeyNibbles × OldValue V × Option V)) := do
  let root ← getNode store []
  let (exit, _) ← descend store key (key.length + 1) root []
  match exit with
  | .notPrefix curNode =>
    if key.isPrefixOf curNode.key then some [(key, .none, some value)]
    else some [(key, .none, some value), (commonPrefix curNode.key key, .none, none)]
  | .found curNode => do
    let (curNode, oldValue) ← (curNode.putValue value).toOption
    some [(curNode.key, .ofOption oldValue, curNode.value)]
  | .noChild curNode => some [(key, .none, some value), (curNode.key, .unchanged, curNode.value)]

/-- The labelled writes of `remove_raw`: the key's node, removed or stored without
    its value, labelled with the value taken out. The walk up after a removed leaf
    and `update_keys` write `Unchanged`. -/
def removeRawWrites (store : NodeStore V H) (key : KeyNibbles) :
    Option (List (KeyNibbles × OldValue V × Option V)) := do
  let root ← getNode store []
  let (exit, _) ← descend store key (key.length + 1) root []
  match exit with
  | .notPrefix _ => some []
  | .noChild _ => some []
  | .found curNode =>
    let oldValue := curNode.value
    let curNode := { curNode with value := none }
    if curNode.isRoot || curNode.hasChildren then
      if curNode.numChildren = 1 && !curNode.isRoot then some [(curNode.key, .ofOption oldValue, none)]
      else some [(curNode.key, .ofOption oldValue, curNode.value)]
    else some [(key, .ofOption oldValue, none)]

def opWrites (store : NodeStore V H) : TrieOp V → Option (List (KeyNibbles × OldValue V × Option V))
  | .put key value => putRawWrites store key value
  | .remove key => removeRawWrites store key

section Writes

variable {s : NodeStore V H}

/-- `put_raw` labels one write with the value it replaces, at the key, and its other
    writes record nothing. -/
theorem putRawWrites_spec (inv : TrieInvariant s) {key : KeyNibbles} (nonempty : key ≠ []) (value : V) :
    ∃ rest, putRawWrites s key value = some ((key, .ofOption (get s key), some value) :: rest) ∧
      ∀ w ∈ rest, TrieDiffBuilder.Silent w := by
  obtain ⟨r, root, _, _⟩ := inv.root
  obtain ⟨exit, path, walk, ok⟩ := descend_root inv key r root
  cases exit with
  | found cur =>
    obtain ⟨stored, -⟩ := ok
    have keyed : cur.key = key := inv.keyed stored
    have noData : cur.rootData = none := ((inv.nodes key cur stored).nonroot nonempty).1
    refine ⟨[], ?_, by simp⟩
    simp [putRawWrites, inv.getNode_eq, root, walk, TrieNode.putValue, noData, Except.toOption, keyed, stored]
  | noChild cur =>
    have absent : s key = none := ok.not_found inv fun _ => by simp
    refine ⟨[(cur.key, .unchanged, cur.value)], ?_, by simp [TrieDiffBuilder.Silent]⟩
    simp [putRawWrites, inv.getNode_eq, root, walk, absent, OldValue.ofOption]
  | notPrefix cur =>
    have absent : s key = none := ok.not_found inv fun _ => by simp
    -- the new node heads `cur` as a hybrid node, or joins it under a new branch node
    by_cases above : key <+: cur.key
    · refine ⟨[], ?_, by simp⟩
      simp [putRawWrites, inv.getNode_eq, root, walk, absent, above, OldValue.ofOption]
    · refine ⟨[(commonPrefix cur.key key, .none, none)], ?_, by simp [TrieDiffBuilder.Silent]⟩
      simp [putRawWrites, inv.getNode_eq, root, walk, absent, above, OldValue.ofOption]

/-- `remove_raw` labels the write of the key's node with the value it takes out, or
    writes nothing where the key has no node. -/
theorem removeRawWrites_spec (inv : TrieInvariant s) (key : KeyNibbles) :
    (removeRawWrites s key = some [] ∧ get s key = none) ∨
      removeRawWrites s key = some [(key, .ofOption (get s key), none)] := by
  obtain ⟨r, root, _, _⟩ := inv.root
  obtain ⟨exit, path, walk, ok⟩ := descend_root inv key r root
  cases exit with
  | found cur =>
    obtain ⟨stored, -⟩ := ok
    have keyed : cur.key = key := inv.keyed stored
    right
    simp only [removeRawWrites, inv.getNode_eq, root, walk, Option.bind_eq_bind, Option.bind_some, get_eq, stored,
      Option.bind_some]
    split_ifs <;> simp [keyed]
  | noChild cur =>
    left
    simp [removeRawWrites, inv.getNode_eq, root, walk, ok.not_found inv fun _ => by simp]
  | notPrefix cur =>
    left
    simp [removeRawWrites, inv.getNode_eq, root, walk, ok.not_found inv fun _ => by simp]

/-- Removing the root key leaves the trie as it is: the root has no value. -/
theorem removeRaw_root [Inhabited H] (inv : TrieInvariant s) : removeRaw s [] = some s := by
  obtain ⟨r, root, noValue, rootData⟩ := inv.root
  have keyed : r.key = [] := inv.keyed root
  obtain ⟨key, data, value, children⟩ := r
  obtain rfl : key = [] := keyed
  obtain rfl : value = none := noValue
  obtain rfl : data = some (countsOf s) := rootData
  have stays : putNode s ⟨[], some (countsOf s), none, children⟩ = s := by
    funext k
    rw [putNode_apply]
    split
    · subst k
      exact root.symm
    · rfl
  simp [removeRaw, inv.getNode_eq, root, descend, TrieNode.isRoot, updateKeys, CountUpdates.fromUpdate,
    CountUpdates.applyUpdate, CountUpdates.add, CountUpdates.isEmpty, TrieNode.kind, updateKeysLoop, stays]

theorem get_root (inv : TrieInvariant s) : get s [] = none := by
  obtain ⟨r, root, noValue, -⟩ := inv.root
  simp [root, noValue]

end Writes

variable [DecidableEq V]

def recordWrites (diff : TrieDiffBuilder V) (writes : List (KeyNibbles × OldValue V × Option V)) :
    Option (TrieDiffBuilder V) :=
  writes.foldlM (fun diff w => diff.recordValueChange w.1 w.2.1 w.2.2) diff

variable [DecidableEq H] [Inhabited H]

/-- `put` or `remove` on a complete trie while a recording runs. -/
def applyRecorded (hasher : TrieHasher V H) (state : NodeStore V H × TrieDiffBuilder V) (op : TrieOp V) :
    Option (NodeStore V H × TrieDiffBuilder V) := do
  let writes ← opWrites state.1 op
  let diff ← recordWrites state.2 writes
  let store ← apply hasher state.1 op
  some (store, diff)

/-- The operations between `start_recording` and `stop_recording`, with the builder
    `stop_recording` returns. -/
def recordRun (hasher : TrieHasher V H) (store : NodeStore V H) (ops : List (TrieOp V)) :
    Option (NodeStore V H × TrieDiffBuilder V) :=
  ops.foldlM (applyRecorded hasher) (store, ⟨[]⟩)

/-- One entry of `apply_diff` in the complete part: the value is put or removed, and
    the value it replaced goes into the reverting diff. -/
def applyDiffEntry (hasher : TrieHasher V H) (state : NodeStore V H × List (KeyNibbles × RevertDiffValue V))
    (entry : KeyNibbles × Option V) : Option (NodeStore V H × List (KeyNibbles × RevertDiffValue V)) := do
  let oldValue := get state.1 entry.1
  let store ← match entry.2 with
    | some value => putRaw hasher state.1 entry.1 value
    | none => removeRaw state.1 entry.1
  -- the `assert` on the insertion into the result
  if (findKey entry.1 state.2).isSome then none
  else some (store, insertKey entry.1 (.knownValue oldValue) state.2)

/-- `apply_diff` on a complete trie, where every key is in the complete part. -/
def applyDiff (hasher : TrieHasher V H) (store : NodeStore V H) (diff : List (KeyNibbles × Option V)) :
    Option (NodeStore V H × List (KeyNibbles × RevertDiffValue V)) :=
  diff.foldlM (applyDiffEntry hasher) (store, [])


section Recording

variable {s : NodeStore V H}

theorem recordWrites_silent (diff : TrieDiffBuilder V) :
    ∀ writes : List (KeyNibbles × OldValue V × Option V), (∀ w ∈ writes, TrieDiffBuilder.Silent w) →
      recordWrites diff writes = some diff
  | [], _ => rfl
  | w :: rest, silent => by
    simp only [recordWrites, List.foldlM_cons,
      TrieDiffBuilder.recordValueChange_silent (silent w List.mem_cons_self), Option.bind_eq_bind, Option.bind_some]
    exact recordWrites_silent diff rest fun w' mem => silent w' (List.mem_cons_of_mem _ mem)

theorem recordWrites_net {b : TrieDiffBuilder V} {base current : KeyNibbles → Option V} (t : b.Tracks base current)
    (key : KeyNibbles) (new : Option V) (rest : List (KeyNibbles × OldValue V × Option V))
    (silent : ∀ w ∈ rest, TrieDiffBuilder.Silent w) :
    ∃ b', recordWrites b ((key, .ofOption (current key), new) :: rest) = some b' ∧
      b'.Tracks base (Function.update current key new) := by
  obtain ⟨b₁, recorded, t₁⟩ := t.record key new
  refine ⟨b₁, ?_, t₁⟩
  simp only [recordWrites, List.foldlM_cons, recorded, Option.bind_eq_bind, Option.bind_some]
  exact recordWrites_silent b₁ rest silent

omit [DecidableEq H] [Inhabited H] in
theorem recordWrites_opWrites {b : TrieDiffBuilder V} {base : KeyNibbles → Option V} (inv : TrieInvariant s)
    (t : b.Tracks base (get s)) (op : TrieOp V) (notRootPut : ∀ v, op ≠ .put [] v) :
    ∃ writes b', opWrites s op = some writes ∧ recordWrites b writes = some b' ∧
      b'.Tracks base (TrieOp.applyMap (get s) op) := by
  cases op with
  | put key value =>
    have nonempty : key ≠ [] := by
      rintro rfl
      exact notRootPut value rfl
    obtain ⟨rest, written, silent⟩ := putRawWrites_spec inv nonempty value
    obtain ⟨b', recorded, t'⟩ := recordWrites_net t key (some value) rest silent
    exact ⟨_, b', written, recorded, t'⟩
  | remove key =>
    rcases removeRawWrites_spec inv key with ⟨written, absent⟩ | written
    · refine ⟨[], b, written, rfl, ?_⟩
      rw [TrieOp.applyMap, Function.update_eq_self_iff.mpr absent.symm]
      exact t
    · obtain ⟨b', recorded, t'⟩ := recordWrites_net t key none [] (by simp)
      exact ⟨_, b', written, recorded, t'⟩

omit [DecidableEq V] in
/-- Every operation but a put at the root, which panics, keeps the invariant and
    writes the map. -/
theorem apply_spec_unless_root_put (hasher : TrieHasher V H) (inv : TrieInvariant s) (op : TrieOp V)
    (notRootPut : ∀ v, op ≠ .put [] v) :
    ∃ s', apply hasher s op = some s' ∧ TrieInvariant s' ∧ get s' = TrieOp.applyMap (get s) op := by
  by_cases atRoot : op.key = []
  · cases op with
    | put key value =>
      obtain rfl : key = [] := atRoot
      exact absurd rfl (notRootPut value)
    | remove key =>
      obtain rfl : key = [] := atRoot
      refine ⟨s, removeRaw_root inv, inv, ?_⟩
      rw [TrieOp.applyMap, Function.update_eq_self_iff.mpr (get_root inv).symm]
  · exact apply_spec hasher inv op atRoot

theorem applyRecorded_spec (hasher : TrieHasher V H) {b : TrieDiffBuilder V} {base : KeyNibbles → Option V}
    (inv : TrieInvariant s) (t : b.Tracks base (get s)) (op : TrieOp V) (notRootPut : ∀ v, op ≠ .put [] v) :
    ∃ s' b', applyRecorded hasher (s, b) op = some (s', b') ∧ apply hasher s op = some s' ∧
      TrieInvariant s' ∧ b'.Tracks base (get s') := by
  obtain ⟨writes, b', written, recorded, t'⟩ := recordWrites_opWrites inv t op notRootPut
  obtain ⟨s', applied, inv', get'⟩ := apply_spec_unless_root_put hasher inv op notRootPut
  refine ⟨s', b', ?_, applied, inv', get' ▸ t'⟩
  simp [applyRecorded, written, recorded, applied]

/-- A recorded run keeps the builder on the net change from the first map, by
    induction on the operations. -/
theorem foldlM_applyRecorded (hasher : TrieHasher V H) {base : KeyNibbles → Option V} :
    ∀ (ops : List (TrieOp V)) {s : NodeStore V H} {b : TrieDiffBuilder V}, TrieInvariant s →
      b.Tracks base (get s) → (∀ op ∈ ops, ∀ v, op ≠ .put [] v) →
      ∃ s' b', ops.foldlM (applyRecorded hasher) (s, b) = some (s', b') ∧ applyAll hasher s ops = some s' ∧
        TrieInvariant s' ∧ b'.Tracks base (get s')
  | [], s, b, inv, t, _ => ⟨s, b, rfl, rfl, inv, t⟩
  | op :: ops, s, b, inv, t, yields => by
    obtain ⟨s₁, b₁, step, applied, inv₁, t₁⟩ := applyRecorded_spec hasher inv t op (yields op List.mem_cons_self)
    obtain ⟨s', b', run, applied', inv', t'⟩ :=
      foldlM_applyRecorded hasher ops inv₁ t₁ fun op' mem => yields op' (List.mem_cons_of_mem _ mem)
    refine ⟨s', b', ?_, ?_, inv', t'⟩
    · rw [List.foldlM_cons, step]
      exact run
    · rw [applyAll, List.foldlM_cons, applied]
      exact applied'

omit [DecidableEq V] in
theorem applyDiffEntry_spec (hasher : TrieHasher V H) (inv : TrieInvariant s)
    {result : List (KeyNibbles × RevertDiffValue V)} (entry : KeyNibbles × Option V) (nonempty : entry.1 ≠ [])
    (fresh : findKey entry.1 result = none) :
    ∃ s', applyDiffEntry hasher (s, result) entry =
        some (s', insertKey entry.1 (.knownValue (get s entry.1)) result) ∧
      TrieInvariant s' ∧ get s' = Function.update (get s) entry.1 entry.2 := by
  obtain ⟨key, value⟩ := entry
  cases value with
  | some value =>
    obtain ⟨s', put, inv', get'⟩ := putRaw_spec hasher inv nonempty value
    exact ⟨s', by simp [applyDiffEntry, put, fresh], inv', get'⟩
  | none =>
    obtain ⟨s', removed, inv', get'⟩ := removeRaw_spec inv nonempty
    exact ⟨s', by simp [applyDiffEntry, removed, fresh], inv', get'⟩

omit [DecidableEq V] in
/-- A diff with distinct keys, none the root, applied in the complete part: each of
    its keys takes its value, by induction on the entries. -/
theorem foldlM_applyDiffEntry (hasher : TrieHasher V H) :
    ∀ (diff : List (KeyNibbles × Option V)) {s : NodeStore V H} {result : List (KeyNibbles × RevertDiffValue V)},
      TrieInvariant s → (diff.map Prod.fst).Nodup → (∀ e ∈ diff, e.1 ≠ [] ∧ findKey e.1 result = none) →
      ∃ s' result', diff.foldlM (applyDiffEntry hasher) (s, result) = some (s', result') ∧ TrieInvariant s' ∧
        ∀ k, get s' k = (findKey k diff).getD (get s k)
  | [], s, result, inv, _, _ => ⟨s, result, rfl, inv, fun _ => rfl⟩
  | (key, value) :: rest, s, result, inv, distinct, fresh => by
    simp only [List.map_cons, List.nodup_cons] at distinct
    obtain ⟨nonempty, absent⟩ := fresh (key, value) List.mem_cons_self
    obtain ⟨s₁, step, inv₁, get₁⟩ := applyDiffEntry_spec hasher inv (key, value) nonempty absent
    -- the later keys are not the one just inserted into the result
    have later : ∀ e ∈ rest, e.1 ≠ [] ∧ findKey e.1 (insertKey key (.knownValue (get s key)) result) = none := by
      intro e mem
      have other : key ≠ e.1 := by
        rintro same
        exact distinct.1 (same ▸ List.mem_map_of_mem mem)
      obtain ⟨nonempty', absent'⟩ := fresh e (List.mem_cons_of_mem _ mem)
      exact ⟨nonempty', by rw [findKey_insertKey_of_ne other, absent']⟩
    obtain ⟨s', result', run, inv', get'⟩ := foldlM_applyDiffEntry hasher rest inv₁ distinct.2 later
    refine ⟨s', result', by rw [List.foldlM_cons, step]; exact run, inv', fun k => ?_⟩
    rw [get' k, get₁, findKey_cons]
    by_cases here : key = k
    · subst here
      simp [findKey_eq_none_of_not_mem distinct.1]
    · simp [here, Function.update_of_ne (Ne.symm here)]

omit [DecidableEq H] [Inhabited H] in
/-- A diff read off a builder on the net change between two complete tries has no
    entry at the root, which holds no value in either. -/
theorem diff_entries_fresh {b : TrieDiffBuilder V} {s' : NodeStore V H} (inv : TrieInvariant s)
    (inv' : TrieInvariant s') (t : b.Tracks (get s) (get s')) {diff : List (KeyNibbles × Option V)}
    (keys : diff.map Prod.fst = b.changes.map Prod.fst) :
    ∀ e ∈ diff, e.1 ≠ [] ∧ findKey e.1 ([] : List (KeyNibbles × RevertDiffValue V)) = none := by
  intro e mem
  have inKeys : e.1 ∈ b.changes.map Prod.fst := by
    rw [← keys]
    exact List.mem_map_of_mem mem
  obtain ⟨c, changed, same⟩ := List.mem_map.mp inKeys
  refine ⟨fun atRoot => ?_, rfl⟩
  have found := findKey_of_mem t.distinct changed
  rw [t.net, same, atRoot, get_root inv, get_root inv', ValueChange.fromOldAndNew_self] at found
  cases found

/-- The forward diff of a builder on the net change from `s` to `s'` takes `s` to
    the values of `s'`. -/
theorem applyDiff_forward (hasher : TrieHasher V H) {b : TrieDiffBuilder V} {s' : NodeStore V H}
    (inv : TrieInvariant s) (inv' : TrieInvariant s') (t : b.Tracks (get s) (get s')) :
    ∃ forward reverting, applyDiff hasher s b.intoForwardDiff = some (forward, reverting) ∧ get forward = get s' := by
  obtain ⟨forward, reverting, run, -, get'⟩ :=
    foldlM_applyDiffEntry hasher b.intoForwardDiff inv (b.keys_intoForwardDiff ▸ t.distinct)
      (diff_entries_fresh inv inv' t b.keys_intoForwardDiff)
  refine ⟨forward, reverting, run, funext fun k => ?_⟩
  rw [get' k, b.findKey_intoForwardDiff, t.net, ValueChange.getD_new_fromOldAndNew]

theorem applyDiff_backward (hasher : TrieHasher V H) {b : TrieDiffBuilder V} {s' : NodeStore V H}
    (inv : TrieInvariant s) (inv' : TrieInvariant s') (t : b.Tracks (get s) (get s')) :
    ∃ backward reverting, applyDiff hasher s' b.intoBackwardDiff = some (backward, reverting) ∧
      get backward = get s := by
  obtain ⟨backward, reverting, run, -, get'⟩ :=
    foldlM_applyDiffEntry hasher b.intoBackwardDiff inv' (b.keys_intoBackwardDiff ▸ t.distinct)
      (diff_entries_fresh inv inv' t b.keys_intoBackwardDiff)
  refine ⟨backward, reverting, run, funext fun k => ?_⟩
  rw [get' k, b.findKey_intoBackwardDiff, t.net, ValueChange.getD_old_fromOldAndNew]

/-- Change recording is an exact net diff. Over any run of `put` and `remove` on a
    complete trie that yields a trie (a put at the root panics), the recording never
    fails an assertion, the builder holds exactly the keys whose value changed, each
    with its change from the first value to the last, and the forward diff applied
    to the first trie gives the last one's values, the backward diff applied to the
    last the first one's. -/
theorem recording_is_exact_net_diff (hasher : TrieHasher V H) (inv : TrieInvariant s) (ops : List (TrieOp V))
    (yields : ∀ op ∈ ops, ∀ v, op ≠ .put [] v) :
    ∃ s' diff, recordRun hasher s ops = some (s', diff) ∧ applyAll hasher s ops = some s' ∧
      (∀ k, findKey k diff.changes = ValueChange.fromOldAndNew (get s k) (get s' k)) ∧
      (∃ forward reverting, applyDiff hasher s diff.intoForwardDiff = some (forward, reverting) ∧
        get forward = get s') ∧
      ∃ backward reverting, applyDiff hasher s' diff.intoBackwardDiff = some (backward, reverting) ∧
        get backward = get s := by
  obtain ⟨s', diff, run, applied, inv', t⟩ :=
    foldlM_applyRecorded hasher ops inv (TrieDiffBuilder.tracks_start (get s)) yields
  exact ⟨s', diff, run, applied, t.net, applyDiff_forward hasher inv inv' t, applyDiff_backward hasher inv inv' t⟩

end Recording

theorem three_ops_recorded_from_new :
    (∀ op ∈ [TrieOp.put [1] 5, .put [1, 2] 6, .remove [1]], ∀ v, op ≠ .put [] v) ∧
      ∃ s' diff, recordRun (⟨id, fun _ => 0⟩ : TrieHasher Nat Nat) new
            [TrieOp.put [1] 5, .put [1, 2] 6, .remove [1]] = some (s', diff) ∧
          applyAll (⟨id, fun _ => 0⟩ : TrieHasher Nat Nat) new [TrieOp.put [1] 5, .put [1, 2] 6, .remove [1]] =
            some s' ∧
          (∀ k, findKey k diff.changes = ValueChange.fromOldAndNew (get (new : NodeStore Nat Nat) k) (get s' k)) ∧
          (∃ forward reverting, applyDiff (⟨id, fun _ => 0⟩ : TrieHasher Nat Nat) new diff.intoForwardDiff =
            some (forward, reverting) ∧ get forward = get s') ∧
          ∃ backward reverting, applyDiff (⟨id, fun _ => 0⟩ : TrieHasher Nat Nat) s' diff.intoBackwardDiff =
            some (backward, reverting) ∧ get backward = get (new : NodeStore Nat Nat) := by
  have yields : ∀ op ∈ [TrieOp.put [1] 5, .put [1, 2] 6, .remove [1]], ∀ v, op ≠ .put [] v := by simp
  exact ⟨yields, recording_is_exact_net_diff _ new_invariant _ yields⟩


end MerkleRadixTrie

end Albatross
