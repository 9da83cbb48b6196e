import Albatross.Trie.MerkleRadixTrie

/- The representation invariant of a complete trie. Every stored node sits under
   its own key; every node but the root has a value or two children; the entry of a
   node `p` at nibble `i` points to the least stored key below `p ++ [i]`, under which
   every other one lies; the root's counters are the numbers of
   branch, hybrid and leaf nodes. The frame lemma `NodeOk.transfer` carries the
   conditions of a node whose shape an operation keeps to the new table. -/
namespace Albatross

namespace MerkleRadixTrie

variable {V H : Type}

/-- `t` is the least stored key below `p ++ [i]`: every other one lies under it. -/
def LeastBelow (s : NodeStore V H) (p : KeyNibbles) (i : Fin 16) (t : KeyNibbles) : Prop :=
  s t ≠ none ∧ p ++ [i] <+: t ∧ ∀ k, s k ≠ none → p ++ [i] <+: k → t <+: k

/-- The entry of `n` at `i` points to the least stored key below `p ++ [i]`, and is
    empty when nothing is stored there. -/
def EntryOk (s : NodeStore V H) (p : KeyNibbles) (n : TrieNode V H) (i : Fin 16) : Prop :=
  match n.targetAt i with
  | some t => LeastBelow s p i t
  | none => ∀ k, s k ≠ none → ¬ p ++ [i] <+: k

noncomputable def kindCount (s : NodeStore V H) (K : TrieNodeKind) : Nat :=
  {k | (s k).bind TrieNode.kind = some K}.ncard

noncomputable def countsOf (s : NodeStore V H) : RootData :=
  ⟨kindCount s .branch, kindCount s .hybrid, kindCount s .leaf⟩

structure NodeOk (s : NodeStore V H) (p : KeyNibbles) (n : TrieNode V H) : Prop where
  keyed : n.key = p
  nonroot : p ≠ [] → n.rootData = none ∧ (n.value.isSome ∨ 2 ≤ n.numChildren)
  entries : ∀ i, EntryOk s p n i

structure TrieInvariant (s : NodeStore V H) : Prop where
  root : ∃ r, s [] = some r ∧ r.value = none ∧ r.rootData = some (countsOf s)
  nodes : ∀ p n, s p = some n → NodeOk s p n
  finite : {k | s k ≠ none}.Finite

/-- Two nodes alike in everything the invariant reads. -/
structure SameShape (n n' : TrieNode V H) : Prop where
  key : n'.key = n.key
  rootData : n'.rootData.isSome = n.rootData.isSome
  targets : ∀ i, n'.targetAt i = n.targetAt i

section Basics

variable {s : NodeStore V H} {p q k t : KeyNibbles} {n n' m : TrieNode V H} {i j : Fin 16}

theorem EntryOk.of_target (ok : EntryOk s p n i) (target : n.targetAt i = some t) : LeastBelow s p i t := by
  unfold EntryOk at ok
  rw [target] at ok
  exact ok

theorem EntryOk.of_empty (ok : EntryOk s p n i) (target : n.targetAt i = none) :
    ∀ k, s k ≠ none → ¬ p ++ [i] <+: k := by
  unfold EntryOk at ok
  rw [target] at ok
  exact ok

theorem EntryOk.of_least (target : n.targetAt i = some t) (least : LeastBelow s p i t) : EntryOk s p n i := by
  unfold EntryOk
  rw [target]
  exact least

theorem EntryOk.of_nothing (target : n.targetAt i = none) (nothing : ∀ k, s k ≠ none → ¬ p ++ [i] <+: k) :
    EntryOk s p n i := by
  unfold EntryOk
  rw [target]
  exact nothing

theorem NodeOk.sound (ok : NodeOk s p n) (i : Fin 16) (t : KeyNibbles) (target : n.targetAt i = some t) :
    LeastBelow s p i t :=
  (ok.entries i).of_target target

theorem NodeOk.complete (ok : NodeOk s p n) (i : Fin 16) (k : KeyNibbles) (ext : p ++ [i] <+: k)
    (stored : s k ≠ none) : ∃ t, n.targetAt i = some t ∧ t <+: k := by
  cases target : n.targetAt i with
  | none => exact absurd ext ((ok.entries i).of_empty target k stored)
  | some t => exact ⟨t, rfl, ((ok.entries i).of_target target).2.2 k stored ext⟩

theorem NodeOk.under (ok : NodeOk s p n) (stored : s k ≠ none) (below : p <+: k) (ne : k ≠ p) :
    ∃ j t, n.targetAt j = some t ∧ t <+: k := by
  obtain ⟨j, ext⟩ := exists_concat_of_ne below (Ne.symm ne)
  obtain ⟨t, target, tk⟩ := ok.complete j k ext stored
  exact ⟨j, t, target, tk⟩

theorem NodeOk.under_leaf (ok : NodeOk s p n) (noChildren : ∀ j, n.children j = none) (stored : s k ≠ none)
    (below : p <+: k) : k = p := by
  by_contra ne
  obtain ⟨j, t, target, _⟩ := ok.under stored below ne
  simp [TrieNode.targetAt, noChildren j] at target

theorem NodeOk.nothing_below (ok : NodeOk s p n) (empty : n.children i = none) (ext : p ++ [i] <+: k) :
    s k = none := by
  by_contra stored
  obtain ⟨t, target, _⟩ := ok.complete i k ext stored
  simp [TrieNode.targetAt, empty] at target

/-- A stored key has one parent: two entries pointing to it belong to the same node. -/
theorem parent_unique (okp : NodeOk s p n) (okq : NodeOk s q m) (hp : s p ≠ none) (hq : s q ≠ none)
    (tp : n.targetAt i = some t) (tq : m.targetAt j = some t) : p = q := by
  obtain ⟨_, extp, leastp⟩ := okp.sound i t tp
  obtain ⟨_, extq, leastq⟩ := okq.sound j t tq
  -- the deeper of the two would be stored strictly between the other one and `t`
  rcases List.prefix_or_prefix_of_prefix (prefix_of_concat extp) (prefix_of_concat extq) with pq | qp
  · by_contra ne
    have extpq := concat_prefix_of_between extp (prefix_of_concat extq) pq (Ne.symm ne)
    have := (leastp q hq extpq).length_le
    have := length_lt_of_concat extq
    omega
  · by_contra ne
    have extqp := concat_prefix_of_between extq (prefix_of_concat extp) qp ne
    have := (leastq p hp extqp).length_le
    have := length_lt_of_concat extp
    omega

/-- A node other than `anchor` covers every key hanging directly from `anchor`:
    its entry toward such a key stops at or above `anchor`. -/
theorem NodeOk.cover_of_anchor (ok : NodeOk s p n) {anchor x : KeyNibbles} (anchorStored : s anchor ≠ none)
    (below : anchor <+: x) (ne : anchor ≠ x)
    (between : ∀ m, s m ≠ none → anchor <+: m → m <+: x → m = anchor ∨ m = x)
    (stored : s p ≠ none) (other : p ≠ anchor) (ext : p ++ [i] <+: x) :
    ∃ t, n.targetAt i = some t ∧ t <+: x ∧ t ≠ x := by
  rcases List.prefix_or_prefix_of_prefix below (prefix_of_concat ext) with ap | pa
  · rcases between p stored ap (prefix_of_concat ext) with same | same
    · exact absurd same other
    · exact absurd same (ne_of_concat ext)
  · have extA := concat_prefix_of_between ext below pa (Ne.symm other)
    obtain ⟨t, target, ta⟩ := ok.complete i anchor extA anchorStored
    refine ⟨t, target, ta.trans below, ?_⟩
    rintro rfl
    exact ne (below.eq_of_length (Nat.le_antisymm below.length_le ta.length_le))

/-- Between `p` and a key below its entry `i` nothing is stored, when that entry's
    target is not a prefix of the key. -/
theorem NodeOk.between (ok : NodeOk s p n) {x : KeyNibbles} (ext : p ++ [i] <+: x)
    (free : ∀ t, n.targetAt i = some t → ¬ t <+: x) : ∀ m, s m ≠ none → p <+: m → m <+: x → m = p := by
  intro m stored pm mx
  by_contra ne
  obtain ⟨t, target, tm⟩ := ok.complete i m (concat_prefix_of_between ext mx pm ne) stored
  exact free t target (tm.trans mx)

theorem NodeOk.between_target (ok : NodeOk s p n) {x : KeyNibbles} (target : n.targetAt i = some x) :
    ∀ m, s m ≠ none → p <+: m → m <+: x → m = p ∨ m = x := by
  obtain ⟨_, ext, least⟩ := ok.sound i x target
  intro m stored pm mx
  by_cases same : m = p
  · exact .inl same
  · exact .inr (mx.eq_of_length (Nat.le_antisymm mx.length_le
      (least m stored (concat_prefix_of_between ext mx pm same)).length_le))

/-- The frame rule for one entry: an entry that an operation keeps stays right in the
    new table when every added or removed key below it hangs strictly under its target. -/
theorem EntryOk.transfer {s' : NodeStore V H} (ok : EntryOk s p n i)
    {X : KeyNibbles → Prop} (status : ∀ k, ¬ X k → (s' k = none ↔ s k = none))
    (same : n'.targetAt i = n.targetAt i)
    (cover : ∀ x, X x → p ++ [i] <+: x → ∃ t, n.targetAt i = some t ∧ t <+: x ∧ t ≠ x) :
    EntryOk s' p n' i := by
  have stays : ∀ k, ¬ X k → s' k ≠ none → s k ≠ none := fun k kept stored none =>
    stored ((status k kept).mpr none)
  cases target : n.targetAt i with
  | none =>
    refine .of_nothing (same.trans target) fun k stored ext => ?_
    by_cases changed : X k
    · obtain ⟨t, target', _⟩ := cover k changed ext
      simp [target] at target'
    · exact ok.of_empty target k (stays k changed stored) ext
  | some t =>
    obtain ⟨stored, ext, least⟩ := ok.of_target target
    have unchanged : ¬ X t := by
      intro changed
      obtain ⟨t', target', _, ne⟩ := cover t changed ext
      rw [target] at target'
      exact ne (Option.some.inj target').symm
    refine .of_least (same.trans target) ⟨fun none => stored ((status t unchanged).mp none), ext, ?_⟩
    intro k stored' extk
    by_cases changed : X k
    · obtain ⟨t', target', t'k, _⟩ := cover k changed extk
      rw [target] at target'
      cases target'
      exact t'k
    · exact least k (stays k changed stored') extk

/-- The frame rule: a node whose shape an operation keeps, and below whose entries
    every added or removed key hangs strictly under the entry's target, keeps its
    conditions in the new table, given a value or two children. -/
theorem NodeOk.transfer {s' : NodeStore V H} (ok : NodeOk s p n)
    {X : KeyNibbles → Prop} (status : ∀ k, ¬ X k → (s' k = none ↔ s k = none)) (shape : SameShape n n')
    (cover : ∀ i x, X x → p ++ [i] <+: x → ∃ t, n.targetAt i = some t ∧ t <+: x ∧ t ≠ x)
    (enough : p ≠ [] → n'.value.isSome ∨ 2 ≤ n.numChildren) :
    NodeOk s' p n' where
  keyed := by rw [shape.key, ok.keyed]
  nonroot := by
    intro nonempty
    refine ⟨?_, ?_⟩
    · have := shape.rootData
      rw [(ok.nonroot nonempty).1] at this
      simpa using this
    · rw [TrieNode.numChildren_eq_of_targetAt shape.targets]
      exact enough nonempty
  entries i := (ok.entries i).transfer status (shape.targets i) (cover i)

theorem SameShape.refl (n : TrieNode V H) : SameShape n n := ⟨rfl, rfl, fun _ => rfl⟩

theorem SameShape.trans {n'' : TrieNode V H} (first : SameShape n n') (second : SameShape n' n'') :
    SameShape n n'' :=
  ⟨second.key.trans first.key, second.rootData.trans first.rootData, fun i => (second.targets i).trans (first.targets i)⟩

theorem SameShape.kind_eq (shape : SameShape n n') (value : n'.value.isSome = n.value.isSome) : n'.kind = n.kind :=
  TrieNode.kind_eq_of (by simp [TrieNode.isRoot, shape.rootData]) (TrieNode.numChildren_eq_of_targetAt shape.targets)
    value

/-- A node that changes only its entry at `i`, in a table whose added or removed keys
    all lie below that entry, is right when that entry is. -/
theorem NodeOk.setEntry {s' : NodeStore V H} (ok : NodeOk s p n) (changed : List KeyNibbles)
    (status : ∀ k, k ∉ changed → (s' k = none ↔ s k = none)) (key : n'.key = n.key)
    (rootData : n'.rootData.isSome = n.rootData.isSome) (others : ∀ j, j ≠ i → n'.targetAt j = n.targetAt j)
    (inside : ∀ x ∈ changed, p ++ [i] <+: x) (entry : EntryOk s' p n' i)
    (enough : p ≠ [] → n'.value.isSome ∨ 2 ≤ n'.numChildren) : NodeOk s' p n' where
  keyed := by rw [key, ok.keyed]
  nonroot := by
    intro nonempty
    refine ⟨?_, enough nonempty⟩
    rw [(ok.nonroot nonempty).1] at rootData
    simpa using rootData
  entries j := by
    by_cases same : j = i
    · subst same
      exact entry
    · refine (ok.entries j).transfer (X := (· ∈ changed)) status (others j same) ?_
      intro x mem ext
      exact absurd (concat_prefix_inj ext (inside x mem)) same

theorem nodeOk_newLeaf (value : V) (nothing : ∀ j k, s k ≠ none → ¬ p ++ [j] <+: k) :
    NodeOk s p (TrieNode.newLeaf p value : TrieNode V H) where
  keyed := rfl
  nonroot _ := ⟨rfl, .inl rfl⟩
  entries j := .of_nothing rfl (nothing j)

/-- The nodes of a table after an operation that adds or removes the keys `changed`
    and rebuilds the nodes at `moved`: every other node keeps its shape, and each
    changed key hangs directly from a moved node. -/
theorem TrieInvariant.nodes_of_frame {s' : NodeStore V H} (inv : TrieInvariant s)
    (changed moved : List KeyNibbles) (status : ∀ k, k ∉ changed → (s' k = none ↔ s k = none))
    (kept : ∀ k n', s' k = some n' → k ∉ moved →
      ∃ n, s k = some n ∧ SameShape n n' ∧ (k ≠ [] → n'.value.isSome ∨ 2 ≤ n.numChildren))
    (anchored : ∀ x ∈ changed, ∃ a ∈ moved, s a ≠ none ∧ a <+: x ∧ a ≠ x ∧
      ∀ m, s m ≠ none → a <+: m → m <+: x → m = a ∨ m = x)
    (rebuilt : ∀ k n', s' k = some n' → k ∈ moved → NodeOk s' k n') :
    ∀ k n', s' k = some n' → NodeOk s' k n' := by
  intro k n' stored
  by_cases here : k ∈ moved
  · exact rebuilt k n' stored here
  obtain ⟨n, old, shape, enough⟩ := kept k n' stored here
  have ok := inv.nodes k n old
  refine ok.transfer (X := (· ∈ changed)) status shape ?_ enough
  intro i x mem ext
  obtain ⟨a, anchor, aStored, below, ne, between⟩ := anchored x mem
  exact ok.cover_of_anchor aStored below ne between (by simp [old]) (fun same => here (same ▸ anchor)) ext

theorem TrieInvariant.keyed (inv : TrieInvariant s) (stored : s k = some n) : n.key = k :=
  (inv.nodes k n stored).keyed

/-- A node an operation leaves as it is satisfies what `nodes_of_frame` asks of it. -/
theorem TrieInvariant.unchanged (inv : TrieInvariant s) (stored : s k = some n) :
    ∃ n₀, s k = some n₀ ∧ SameShape n₀ n ∧ (k ≠ [] → n.value.isSome ∨ 2 ≤ n₀.numChildren) :=
  ⟨n, stored, .refl n, fun nonempty => ((inv.nodes k n stored).nonroot nonempty).2⟩

/-- A node an operation rewrites with its shape and value satisfies what
    `nodes_of_frame` asks of it. -/
theorem TrieInvariant.kept_of_shape {s' : NodeStore V H} (inv : TrieInvariant s) (old : s k = some n)
    (shape : ∃ n', s' k = some n' ∧ SameShape n n' ∧ n'.value = n.value) (stored : s' k = some m) :
    ∃ n₀, s k = some n₀ ∧ SameShape n₀ m ∧ (k ≠ [] → m.value.isSome ∨ 2 ≤ n₀.numChildren) := by
  obtain ⟨n', stored', same, value⟩ := shape
  rw [stored] at stored'
  cases stored'
  refine ⟨n, old, same, fun nonempty => ?_⟩
  rw [value]
  exact ((inv.nodes k n old).nonroot nonempty).2

theorem TrieInvariant.getNode_eq (inv : TrieInvariant s) (k : KeyNibbles) : getNode s k = s k :=
  getNode_of_keyed fun _ stored => inv.keyed stored

/-- `get_node` on a table whose nodes are nodes of `s` returns them as they are. -/
theorem TrieInvariant.getNode_of_sub {s' : NodeStore V H} (inv : TrieInvariant s)
    (sub : ∀ k n, s' k = some n → s k = some n) (k : KeyNibbles) : getNode s' k = s' k :=
  getNode_of_keyed fun n stored => inv.keyed (sub k n stored)

theorem TrieInvariant.root_stored (inv : TrieInvariant s) : s [] ≠ none := by
  obtain ⟨r, stored, _⟩ := inv.root
  simp [stored]

end Basics

section Counting

variable {s : NodeStore V H}

theorem finite_update (fin : {k | s k ≠ none}.Finite) (a : KeyNibbles) (b : Option (TrieNode V H)) :
    {k | Function.update s a b k ≠ none}.Finite :=
  finite_setOf_update (P := (· ≠ none)) fin a b

theorem kindCount_update (fin : {k | s k ≠ none}.Finite) (a : KeyNibbles) (b : Option (TrieNode V H))
    (K : TrieNodeKind) :
    (kindCount (Function.update s a b) K : Int) =
      kindCount s K - CountUpdates.hit ((s a).bind TrieNode.kind) K + CountUpdates.hit (b.bind TrieNode.kind) K := by
  have fin' : {k | (s k).bind TrieNode.kind = some K}.Finite := by
    refine fin.subset ?_
    intro k hk
    cases stored : s k with
    | none => simp [stored] at hk
    | some n => simp [stored]
  exact ncard_setOf_update (P := fun o => o.bind TrieNode.kind = some K) fin' a b

theorem finite_of_status {s' : NodeStore V H} (fin : {k | s k ≠ none}.Finite) (changed : List KeyNibbles)
    (status : ∀ k, k ∉ changed → (s' k = none ↔ s k = none)) : {k | s' k ≠ none}.Finite := by
  refine (fin.union changed.finite_toSet).subset ?_
  intro k stored
  by_cases mem : k ∈ changed
  · exact .inr mem
  · exact .inl fun none => stored ((status k mem).mpr none)

theorem kindCount_congr {s' : NodeStore V H}
    (kinds : ∀ k, (s' k).bind TrieNode.kind = (s k).bind TrieNode.kind) (K : TrieNodeKind) :
    kindCount s' K = kindCount s K := by
  simp only [kindCount, kinds]

/-- Root data moved by counter updates that match the change of the counts is the
    new table's counts. -/
theorem countsOf_after {s' : NodeStore V H} (cu : CountUpdates)
    (moved : ∀ K, K ≠ .root → (kindCount s' K : Int) = kindCount s K + cu.get K) :
    (if cu.isEmpty then countsOf s else cu.updateRootData (countsOf s)) = countsOf s' := by
  by_cases empty : cu.isEmpty
  · obtain ⟨b, h, l⟩ := (CountUpdates.isEmpty_iff cu).mp empty
    have branch := moved .branch (by decide)
    have hybrid := moved .hybrid (by decide)
    have leaf := moved .leaf (by decide)
    simp only [CountUpdates.get] at branch hybrid leaf
    simp only [empty, if_true, countsOf, RootData.mk.injEq]
    omega
  · rw [if_neg empty]
    exact CountUpdates.updateRootData_eq cu (kindCount s) (kindCount s') moved

end Counting

theorem new_invariant : TrieInvariant (new : NodeStore V H) := by
  have only : ∀ k, (new : NodeStore V H) k = if k = [] then some TrieNode.newRoot else none := by
    intro k
    simp [new, putNode_apply, TrieNode.newRoot]
  have noCount : ∀ K, K ≠ .root → kindCount (new : NodeStore V H) K = 0 := by
    intro K counted
    have empty : {k | ((new : NodeStore V H) k).bind TrieNode.kind = some K} = ∅ := by
      ext k
      by_cases root : k = []
      · simp [only, root, TrieNode.newRoot, TrieNode.kind, TrieNode.isRoot, Ne.symm counted]
      · simp [only, root]
    rw [kindCount, empty, Set.ncard_empty]
  refine ⟨⟨TrieNode.newRoot, by simp [only], rfl, ?_⟩, ?_, ?_⟩
  · simp [TrieNode.newRoot, countsOf, noCount]
  · intro p n stored
    rw [only] at stored
    split at stored
    · rename_i root
      cases stored
      subst root
      refine ⟨rfl, fun h => absurd rfl h, fun i => .of_nothing rfl ?_⟩
      intro k stored' ext
      rw [only] at stored'
      split at stored'
      · rename_i root
        subst root
        simp at ext
      · exact absurd rfl stored'
    · cases stored
  · refine (Set.finite_singleton ([] : KeyNibbles)).subset ?_
    intro k stored
    rw [Set.mem_ofPred_eq, only] at stored
    split at stored
    · assumption
    · exact absurd rfl stored

end MerkleRadixTrie

end Albatross
