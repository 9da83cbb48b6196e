import Albatross.Trie.UpdateKeys

/- `put_raw` on a complete trie. The walk down to the key ends in one of four ways:
   at the key's node, at a node with no entry toward the key, or at an entry that
   leaves the key, which the new node then either heads (a hybrid node) or joins
   under a new branch node. Each is proved to keep `TrieInvariant` and to write the
   value, and `putRaw_spec` puts them together. -/
namespace Albatross

namespace MerkleRadixTrie

variable {V H : Type} [Inhabited H]

section Found

variable {s : NodeStore V H} {key : KeyNibbles} {cur : TrieNode V H} {path : List (TrieNode V H)}

/-- The walk found the key: its node takes the new value, or loses its value when it
    keeps two children, and keeps its shape. `put_raw` and `remove_raw` share this case. -/
theorem found_setValue (inv : TrieInvariant s) (nonempty : key ≠ []) (stored : s key = some cur)
    (chain : RootPath s cur path) (v : Option V) (enough : v.isSome ∨ 2 ≤ cur.numChildren) :
    ∃ s', updateKeys (putNode s { cur with value := v }) ({ cur with value := v } :: path)
        (CountUpdates.fromUpdate cur.kind { cur with value := v }.kind) = some s' ∧
      TrieInvariant s' ∧ get s' = Function.update (get s) key v := by
  set cur' : TrieNode V H := { cur with value := v }
  have keyed : cur.key = key := inv.keyed stored
  have pathNonempty : path ≠ [] := by
    rintro rfl
    exact nonempty (keyed ▸ chain.key_eq_nil inv)
  have shape : SameShape cur cur' := ⟨rfl, rfl, fun _ => rfl⟩
  have store : putNode s cur' = Function.update s key (some cur') := by
    rw [putNode, show cur'.key = key from keyed]
  have offPath : ∀ q ∈ path, q.key ≠ key := by
    intro q mem same
    have := chain.length_lt inv q mem
    rw [same, keyed] at this
    exact Nat.lt_irrefl _ this
  obtain ⟨s', run, upd⟩ := updateKeys_after inv chain pathNonempty (putNode s cur') cur'
    (CountUpdates.fromUpdate cur.kind cur'.kind)
    (fun q mem => by rw [store, Function.update_of_ne (offPath q mem)]; exact chain.path_stored inv q mem)
    (by rw [store, show cur'.key = key from keyed]; simp)
    (chain.toward inv)
  have status : ∀ k, s' k = none ↔ s k = none := by
    intro k
    rw [upd.status, store]
    by_cases here : k = key
    · rw [here]
      simp [stored]
    · simp [here]
  have kept := upd.kept inv chain [key]
    (fun k other _ => by rw [store, Function.update_of_ne (by simpa using other)]) (.inl rfl)
    (fun empty => absurd empty pathNonempty)
  have rebuilt : ∀ k n', s' k = some n' → k ∈ [key] → NodeOk s' k n' := by
    intro k n' stored' mem
    rw [List.mem_singleton] at mem
    rw [mem] at stored' ⊢
    obtain ⟨t, placed, shape', value'⟩ := upd.placed
    obtain rfl : n' = t := Option.some.inj (stored'.symm.trans (by rw [← keyed]; exact placed))
    refine (inv.nodes _ _ stored).transfer (X := (· ∈ ([] : List KeyNibbles))) (fun k _ => status k)
      (shape.trans shape') (by simp) fun _ => ?_
    rw [value']
    exact enough
  refine ⟨s', run, ⟨?_, ?_, ?_⟩, ?_⟩
  · obtain ⟨r, rd, r', rootStore, rootData, rootStored, rootValue, rootData'⟩ := upd.root
    obtain ⟨r₀, root₀, value₀, data₀⟩ := inv.root
    rw [store, Function.update_of_ne (Ne.symm nonempty), root₀] at rootStore
    cases rootStore
    rw [rootData] at data₀
    cases data₀
    refine ⟨r', rootStored, by rw [rootValue, value₀], ?_⟩
    rw [rootData', countsOf_after]
    intro K counted
    rw [kindCount_congr upd.kinds, store, kindCount_update inv.finite, stored, CountUpdates.fromUpdate,
      CountUpdates.get_applyUpdate _ _ _ counted]
    have zero : (⟨0, 0, 0⟩ : CountUpdates).get K = 0 := by cases K <;> rfl
    simp only [Option.bind_some, zero]
    omega
  · exact inv.nodes_of_frame [] [key] (fun k _ => status k) kept (by simp) rebuilt
  · exact finite_of_status inv.finite [] fun k _ => status k
  · funext k
    rw [get_eq, upd.values, store]
    by_cases here : k = key
    · subst here
      simp [cur']
    · simp [here]

end Found

section NoChild

variable {s : NodeStore V H} {key : KeyNibbles} {cur : TrieNode V H} {path : List (TrieNode V H)} {i : Fin 16}

/-- The walk stopped at a node with no entry toward the key: a new leaf hangs from it. -/
theorem put_noChild (inv : TrieInvariant s) (chain : RootPath s cur path) (ext : cur.key ++ [i] <+: key)
    (empty : cur.children i = none) (value : V) (h : H) :
    ∃ s', updateKeys (putNode (putNode s (.newLeaf key value)) (cur.setChild i (some ⟨key.drop cur.key.length, h⟩)))
        (cur.setChild i (some ⟨key.drop cur.key.length, h⟩) :: path)
        ((⟨0, 0, 1⟩ : CountUpdates).applyUpdate cur.kind (cur.setChild i (some ⟨key.drop cur.key.length, h⟩)).kind) =
        some s' ∧
      TrieInvariant s' ∧ get s' = Function.update (get s) key (some value) := by
  set leaf : TrieNode V H := .newLeaf key value
  set cur' := cur.setChild i (some ⟨key.drop cur.key.length, h⟩)
  set cu := (⟨0, 0, 1⟩ : CountUpdates).applyUpdate cur.kind cur'.kind
  set store := putNode (putNode s leaf) cur'
  have storedCur := chain.stored inv
  have ok := inv.nodes _ _ storedCur
  have fresh : s key = none := ok.nothing_below empty ext
  have nothingBelow : ∀ k, s k ≠ none → ¬ cur.key ++ [i] <+: k := fun k stored below =>
    stored (ok.nothing_below empty below)
  have ne : cur.key ≠ key := ne_of_concat ext
  have keyNonempty : key ≠ [] := by
    rintro rfl
    simp at ext
  have lookup : ∀ k, store k = if k = cur.key then some cur' else if k = key then some leaf else s k := by
    intro k
    simp only [store, putNode_apply]
    rfl
  have longer : ∀ q ∈ path, q.key.length < key.length := fun q mem =>
    Nat.lt_trans (chain.length_lt inv q mem) (length_lt_of_concat ext)
  obtain ⟨s', run, upd⟩ : ∃ s', updateKeys store (cur' :: path) cu = some s' ∧
      PathUpdate s store s' cur cur' path cu := by
    cases path with
    | nil =>
      have rootKey := chain.key_eq_nil inv
      obtain ⟨r, root, _, data⟩ := inv.root
      rw [← rootKey, storedCur] at root
      cases root
      exact updateKeys_root store cur' cu (by simp [lookup, cur']) rootKey data
    | cons p rest =>
      refine updateKeys_after inv chain (List.cons_ne_nil p rest) store cur' cu (fun q mem => ?_)
        (by simp [lookup, cur']) (chain.toward inv)
      have shorter := chain.length_lt inv q mem
      have longer := longer q mem
      rw [lookup, if_neg (by rintro same; rw [same] at shorter; omega),
        if_neg (by rintro same; rw [same] at longer; omega)]
      exact chain.path_stored inv q mem
  have status : ∀ k, k ∉ [key] → (s' k = none ↔ s k = none) := by
    intro k other
    rw [upd.status, lookup]
    by_cases here : k = cur.key
    · simp [here, storedCur]
    · simp_all
  have storedNew : ∀ k, s' k ≠ none → k = key ∨ s k ≠ none := by
    intro k stored
    by_cases here : k = key
    · exact .inl here
    · exact .inr fun none => stored ((status k (by simpa using here)).mpr none)
  have leafStored : s' key = some leaf := by
    rw [upd.frame key keyNonempty fun q mem same => by have := longer q mem; rw [same] at this; omega,
      lookup, if_neg (Ne.symm ne), if_pos rfl]
  have kept := upd.kept inv chain [cur.key, key]
    (fun k other _ => by
      simp only [List.mem_cons, List.not_mem_nil, or_false, not_or] at other
      rw [lookup, if_neg other.1, if_neg other.2])
    (.inl rfl) (by rintro rfl; simp [chain.key_eq_nil inv])
  have anchored : ∀ x ∈ [key], ∃ a ∈ [cur.key, key], s a ≠ none ∧ a <+: x ∧ a ≠ x ∧
      ∀ m, s m ≠ none → a <+: m → m <+: x → m = a ∨ m = x := by
    intro x mem
    rw [List.mem_singleton] at mem
    subst mem
    refine ⟨cur.key, by simp, by simp [storedCur], prefix_of_concat ext, ne, fun m stored pm mx => .inl ?_⟩
    exact ok.between ext (fun t target => by simp [TrieNode.targetAt, empty] at target) m stored pm mx
  have rebuilt : ∀ k n', s' k = some n' → k ∈ [cur.key, key] → NodeOk s' k n' := by
    intro k n' stored' mem
    simp only [List.mem_cons, List.not_mem_nil, or_false] at mem
    rcases mem with rfl | rfl
    · -- the node the walk stopped at, with its new entry toward the leaf
      obtain ⟨t, placed, shape, value'⟩ := upd.placed
      obtain rfl : n' = t := Option.some.inj (stored'.symm.trans placed)
      refine ok.setEntry [key] status shape.key shape.rootData
        (fun j other => (shape.targets j).trans (TrieNode.targetAt_setChild_ne _ other)) (by simpa using ext) ?_ ?_
      · refine .of_least ((shape.targets i).trans (TrieNode.targetAt_setChild_drop (prefix_of_concat ext) h))
          ⟨by simp [leafStored], ext, fun k stored below => ?_⟩
        rcases storedNew k stored with rfl | old
        · exact List.prefix_refl _
        · exact absurd below (nothingBelow k old)
      · intro nonempty
        have grown := TrieNode.numChildren_setChild (n := cur) (i := i) (some ⟨key.drop cur.key.length, h⟩)
        simp only [empty, Option.isSome_none, Option.isSome_some, if_true] at grown
        rw [value', TrieNode.numChildren_eq_of_targetAt shape.targets]
        rcases (ok.nonroot nonempty).2 with valued | two
        · exact .inl valued
        · exact .inr (by simp only [cur'] at grown ⊢; omega)
    · -- the new leaf: below it nothing is stored
      obtain rfl : n' = leaf := Option.some.inj (stored'.symm.trans leafStored)
      refine nodeOk_newLeaf value fun j k stored below => ?_
      rcases storedNew k stored with rfl | old
      · exact ne_of_concat below rfl
      · exact nothingBelow k old (ext.trans (prefix_of_concat below))
  have rootOld : ∃ r, store [] = some r ∧ r.value = none ∧ r.rootData = some (countsOf s) := by
    obtain ⟨r, root, value₀, data⟩ := inv.root
    by_cases atCur : cur.key = []
    · rw [lookup, if_pos atCur.symm]
      rw [atCur, root] at storedCur
      cases storedCur
      exact ⟨cur', rfl, value₀, data⟩
    · rw [lookup, if_neg (Ne.symm atCur), if_neg (Ne.symm keyNonempty)]
      exact ⟨r, root, value₀, data⟩
  refine ⟨s', run, ⟨?_, inv.nodes_of_frame [key] [cur.key, key] status kept anchored rebuilt, ?_⟩, ?_⟩
  · obtain ⟨r, rd, r', rootStore, rootData, rootStored, rootValue, rootData'⟩ := upd.root
    obtain ⟨r₀, root₀, value₀, data₀⟩ := rootOld
    rw [root₀] at rootStore
    cases rootStore
    rw [rootData] at data₀
    cases data₀
    refine ⟨r', rootStored, by rw [rootValue, value₀], ?_⟩
    rw [rootData', countsOf_after]
    intro K counted
    have storeEq : store = Function.update (Function.update s key (some leaf)) cur.key (some cur') := rfl
    rw [kindCount_congr upd.kinds, storeEq, kindCount_update (finite_update inv.finite _ _),
      kindCount_update inv.finite, Function.update_of_ne ne, storedCur, fresh,
      CountUpdates.get_applyUpdate _ _ _ counted, CountUpdates.get_mk _ _ _ counted]
    simp only [Option.bind_some, Option.bind_none, CountUpdates.hit_none, leaf, TrieNode.newLeaf_kind]
    omega
  · exact finite_of_status inv.finite [key] status
  · funext k
    rw [get_eq, upd.values, lookup]
    by_cases atCur : k = cur.key
    · rw [if_pos atCur, Function.update_of_ne (atCur ▸ ne), get_eq, atCur, storedCur]
      rfl
    · by_cases atKey : k = key
      · subst atKey
        simp [atCur, leaf]
      · simp [atCur, atKey]

end NoChild

section Hybrid

variable {s : NodeStore V H} {key : KeyNibbles} {cur p : TrieNode V H} {rest : List (TrieNode V H)} {i a : Fin 16}

/-- The walk left the key at an entry whose target lies below the key: the new node
    takes that target as its only child, a hybrid node. -/
theorem put_hybrid (inv : TrieInvariant s) (chain : RootPath s cur (p :: rest)) (notPre : ¬ cur.key <+: key)
    (ext : p.key ++ [i] <+: key) (target : p.targetAt i = some cur.key) (extA : key ++ [a] <+: cur.key)
    (value : V) :
    ∃ s', updateKeys (putNode s ((TrieNode.newLeaf key value).setChild a (some ⟨cur.key.drop key.length, default⟩)))
        ((TrieNode.newLeaf key value).setChild a (some ⟨cur.key.drop key.length, default⟩) :: p :: rest)
        ⟨0, 1, 0⟩ = some s' ∧
      TrieInvariant s' ∧ get s' = Function.update (get s) key (some value) := by
  set node : TrieNode V H := (TrieNode.newLeaf key value).setChild a (some ⟨cur.key.drop key.length, default⟩)
  set store := putNode s node
  have chainP : RootPath s p rest := by cases chain with | child _ chainP _ _ => exact chainP
  have storedP := chain.path_stored inv p List.mem_cons_self
  have okP := inv.nodes _ _ storedP
  have underP : ∀ k, s k ≠ none → p.key ++ [i] <+: k → cur.key <+: k := (okP.sound i _ target).2.2
  have storedCur : s cur.key = some cur := chain.stored inv
  have fresh : s key = none := by
    by_contra stored
    exact notPre (underP key stored ext)
  have keyNonempty : key ≠ [] := by
    rintro rfl
    simp at ext
  have keyNe : key ≠ cur.key := fun same => notPre (same ▸ List.prefix_refl _)
  have lookup : ∀ k, store k = if k = key then some node else s k := by
    intro k
    simp only [store, putNode_apply]
    rfl
  have longer : ∀ q ∈ p :: rest, q.key.length < key.length := by
    intro q mem
    rcases List.mem_cons.mp mem with rfl | older
    · exact length_lt_of_concat ext
    · exact Nat.lt_trans (chainP.length_lt inv q older) (length_lt_of_concat ext)
  obtain ⟨s', run, upd⟩ := updateKeys_after inv chain (List.cons_ne_nil p rest) store node ⟨0, 1, 0⟩
    (fun q mem => by
      rw [lookup, if_neg (by rintro same; have := longer q mem; rw [same] at this; omega)]
      exact chain.path_stored inv q mem)
    (by simp [lookup, node]) (by rintro _ _ ⟨⟩; exact ⟨i, target, ext⟩)
  have status : ∀ k, k ∉ [key] → (s' k = none ↔ s k = none) := by
    intro k other
    rw [upd.status, lookup, if_neg (by simpa using other)]
  have storedNew : ∀ k, s' k ≠ none → k = key ∨ s k ≠ none := by
    intro k stored
    by_cases here : k = key
    · exact .inl here
    · exact .inr fun none => stored ((status k (by simpa using here)).mpr none)
  obtain ⟨t, placed, shape, value'⟩ := upd.placed
  have nodeStored : s' key ≠ none := by
    rw [show key = node.key from rfl, placed]
    simp
  -- everything stored below the new node lies under the node it took as its child
  have belowKey : ∀ k, s' k ≠ none → key <+: k → k ≠ key → cur.key <+: k := by
    intro k stored below other
    rcases storedNew k stored with same | old
    · exact absurd same other
    · exact underP k old (ext.trans below)
  have kept := upd.kept inv chain [p.key, key]
    (fun k other _ => by rw [lookup, if_neg (by simp_all)])
    (.inr fun _ _ same => by cases same; simp) (fun empty => absurd empty (List.cons_ne_nil p rest))
  have anchored : ∀ x ∈ [key], ∃ a ∈ [p.key, key], s a ≠ none ∧ a <+: x ∧ a ≠ x ∧
      ∀ m, s m ≠ none → a <+: m → m <+: x → m = a ∨ m = x := by
    intro x mem
    rw [List.mem_singleton] at mem
    subst mem
    refine ⟨p.key, by simp, by simp [storedP], prefix_of_concat ext, ne_of_concat ext,
      fun m stored pm mx => .inl ?_⟩
    refine okP.between ext (fun t' target' => ?_) m stored pm mx
    rw [target] at target'
    cases target'
    exact notPre
  have targets : ∀ j, t.targetAt j = if j = a then some cur.key else none := by
    intro j
    rw [shape.targets j, TrieNode.targetAt_setChild]
    split
    · simp [TrieNodeChild.key, TrieNode.key_append_drop (prefix_of_concat extA)]
    · rfl
  have rebuilt : ∀ k n', s' k = some n' → k ∈ [p.key, key] → NodeOk s' k n' := by
    intro k n' stored' mem
    simp only [List.mem_cons, List.not_mem_nil, or_false] at mem
    rcases mem with rfl | rfl
    · -- the parent's entry now names the new node
      refine upd.first_nodeOk inv chain [key] status ext (by simpa using ext) nodeStored
        (fun k stored below => ?_) stored'
      rcases storedNew k stored with rfl | old
      · exact List.prefix_refl _
      · exact (prefix_of_concat extA).trans (underP k old below)
    · -- the new hybrid node
      obtain rfl : n' = t := Option.some.inj (stored'.symm.trans placed)
      refine ⟨shape.key, fun _ => ⟨by simpa [node, TrieNode.newLeaf] using shape.rootData, .inl ?_⟩, fun j => ?_⟩
      · rw [value']
        rfl
      by_cases here : j = a
      · subst here
        refine .of_least (by rw [targets, if_pos rfl]) ⟨?_, extA, fun k stored below => ?_⟩
        · rw [Ne, status cur.key (by simpa using keyNe.symm), storedCur]
          simp
        · exact belowKey k stored (prefix_of_concat below) (ne_of_concat below).symm
      · refine .of_nothing (by rw [targets, if_neg here]) fun k stored below => here ?_
        exact concat_prefix_inj below (extA.trans (belowKey k stored (prefix_of_concat below) (ne_of_concat below).symm))
  refine ⟨s', run, ⟨?_, inv.nodes_of_frame [key] [p.key, key] status kept anchored rebuilt, ?_⟩, ?_⟩
  · obtain ⟨r, rd, r', rootStore, rootData, rootStored, rootValue, rootData'⟩ := upd.root
    obtain ⟨r₀, root₀, value₀, data₀⟩ := inv.root
    rw [lookup, if_neg (Ne.symm keyNonempty), root₀] at rootStore
    cases rootStore
    rw [rootData] at data₀
    cases data₀
    refine ⟨r', rootStored, by rw [rootValue, value₀], ?_⟩
    rw [rootData', countsOf_after]
    intro K counted
    have hybrid : node.kind = some .hybrid :=
      TrieNode.kind_eq_hybrid rfl rfl (by rw [TrieNode.numChildren_setChild_of_none (fun _ => rfl)]; omega)
    rw [kindCount_congr upd.kinds, show store = Function.update s key (some node) from rfl,
      kindCount_update inv.finite, fresh, CountUpdates.get_mk _ _ _ counted]
    simp only [Option.bind_some, Option.bind_none, CountUpdates.hit_none, hybrid]
    omega
  · exact finite_of_status inv.finite [key] status
  · funext k
    rw [get_eq, upd.values, lookup]
    by_cases here : k = key
    · subst here
      simp [node]
    · simp [here]

end Hybrid

section Sibling

variable {s : NodeStore V H} {key L : KeyNibbles} {cur p : TrieNode V H} {rest : List (TrieNode V H)} {i a b : Fin 16}

/-- The walk left the key at an entry whose target forks from it at `L`: a new branch
    node at `L` takes the target and the new leaf as its two children. -/
theorem put_sibling (inv : TrieInvariant s) (chain : RootPath s cur (p :: rest)) (notPre : ¬ cur.key <+: key)
    (notPre' : ¬ key <+: cur.key) (ext : p.key ++ [i] <+: key) (target : p.targetAt i = some cur.key)
    (extL : p.key ++ [i] <+: L) (forkA : L ++ [a] <+: cur.key) (forkB : L ++ [b] <+: key) (ab : a ≠ b)
    (value : V) (h : H) :
    ∃ s', updateKeys (putNode (putNode s (.newLeaf key value))
          (((TrieNode.newEmpty L).setChild a (some ⟨cur.key.drop L.length, default⟩)).setChild b
            (some ⟨key.drop L.length, h⟩)))
        (((TrieNode.newEmpty L).setChild a (some ⟨cur.key.drop L.length, default⟩)).setChild b
            (some ⟨key.drop L.length, h⟩) :: p :: rest) ⟨1, 0, 1⟩ = some s' ∧
      TrieInvariant s' ∧ get s' = Function.update (get s) key (some value) := by
  set leaf : TrieNode V H := .newLeaf key value
  set parent₀ : TrieNode V H := (TrieNode.newEmpty L).setChild a (some ⟨cur.key.drop L.length, default⟩)
  set parent := parent₀.setChild b (some ⟨key.drop L.length, h⟩)
  set store := putNode (putNode s leaf) parent
  have chainP : RootPath s p rest := by cases chain with | child _ chainP _ _ => exact chainP
  have storedP := chain.path_stored inv p List.mem_cons_self
  have okP := inv.nodes _ _ storedP
  have underP : ∀ k, s k ≠ none → p.key ++ [i] <+: k → cur.key <+: k := (okP.sound i _ target).2.2
  have storedCur : s cur.key = some cur := chain.stored inv
  have fresh : s key = none := by
    by_contra stored
    exact notPre (underP key stored ext)
  have freshL : s L = none := by
    by_contra stored
    exact notPre ((underP L stored extL).trans (prefix_of_concat forkB))
  have shorterL := length_lt_of_concat forkB
  have keyNonempty : key ≠ [] := by
    rintro rfl
    simp at ext
  have LKey : L ≠ key := by
    rintro rfl
    omega
  have LCur : L ≠ cur.key := fun same => notPre (same ▸ prefix_of_concat forkB)
  have keyCur : key ≠ cur.key := fun same => notPre (same ▸ List.prefix_refl _)
  have lookup : ∀ k, store k = if k = L then some parent else if k = key then some leaf else s k := by
    intro k
    simp only [store, putNode_apply]
    rfl
  have longer : ∀ q ∈ p :: rest, q.key.length < L.length := by
    intro q mem
    rcases List.mem_cons.mp mem with rfl | older
    · exact length_lt_of_concat extL
    · exact Nat.lt_trans (chainP.length_lt inv q older) (length_lt_of_concat extL)
  obtain ⟨s', run, upd⟩ := updateKeys_after inv chain (List.cons_ne_nil p rest) store parent ⟨1, 0, 1⟩
    (fun q mem => by
      have := longer q mem
      rw [lookup, if_neg (by rintro same; rw [same] at this; omega),
        if_neg (by rintro same; rw [same] at this; omega)]
      exact chain.path_stored inv q mem)
    (by simp [lookup, parent, parent₀, TrieNode.newEmpty]) (by rintro _ _ ⟨⟩; exact ⟨i, target, extL⟩)
  have status : ∀ k, k ∉ [L, key] → (s' k = none ↔ s k = none) := by
    intro k other
    simp only [List.mem_cons, List.not_mem_nil, or_false, not_or] at other
    rw [upd.status, lookup, if_neg other.1, if_neg other.2]
  have storedNew : ∀ k, s' k ≠ none → k = L ∨ k = key ∨ s k ≠ none := by
    intro k stored
    by_cases atL : k = L
    · exact .inl atL
    by_cases atKey : k = key
    · exact .inr (.inl atKey)
    exact .inr (.inr fun none => stored ((status k (by simp [atL, atKey])).mpr none))
  obtain ⟨t, placed, shape, value'⟩ := upd.placed
  have LStored : s' L ≠ none := by
    rw [show L = parent.key from rfl, placed]
    simp
  have leafStored : s' key = some leaf := by
    rw [upd.frame key keyNonempty fun q mem same => by have := longer q mem; rw [same] at this; omega,
      lookup, if_neg (Ne.symm LKey), if_pos rfl]
  -- below the new branch node lie the new leaf and what lay under the old target
  have belowL : ∀ k, s' k ≠ none → L <+: k → k ≠ L → k = key ∨ cur.key <+: k := by
    intro k stored below other
    rcases storedNew k stored with same | same | old
    · exact absurd same other
    · exact .inl same
    · exact .inr (underP k old (extL.trans below))
  have kept := upd.kept inv chain [p.key, L, key]
    (fun k other _ => by
      simp only [List.mem_cons, List.not_mem_nil, or_false, not_or] at other
      rw [lookup, if_neg other.2.1, if_neg other.2.2])
    (.inr fun _ _ same => by cases same; simp) (fun empty => absurd empty (List.cons_ne_nil p rest))
  have anchored : ∀ x ∈ [L, key], ∃ a ∈ [p.key, L, key], s a ≠ none ∧ a <+: x ∧ a ≠ x ∧
      ∀ m, s m ≠ none → a <+: m → m <+: x → m = a ∨ m = x := by
    have anchor : ∀ x, p.key ++ [i] <+: x → x <+: key → ∃ a ∈ [p.key, L, key], s a ≠ none ∧ a <+: x ∧ a ≠ x ∧
        ∀ m, s m ≠ none → a <+: m → m <+: x → m = a ∨ m = x := by
      intro x extX xKey
      refine ⟨p.key, by simp, by simp [storedP], prefix_of_concat extX, ne_of_concat extX,
        fun m stored pm mx => .inl ?_⟩
      refine okP.between extX (fun t' target' below => ?_) m stored pm mx
      rw [target] at target'
      cases target'
      exact notPre (below.trans xKey)
    intro x mem
    simp only [List.mem_cons, List.not_mem_nil, or_false] at mem
    rcases mem with rfl | rfl
    · exact anchor x extL (prefix_of_concat forkB)
    · exact anchor x ext (List.prefix_refl _)
  have targets : ∀ j, t.targetAt j = if j = b then some key else if j = a then some cur.key else none := by
    intro j
    rw [shape.targets j, TrieNode.targetAt_setChild, TrieNode.targetAt_setChild]
    split
    · simp [parent₀, TrieNode.newEmpty, TrieNodeChild.key, TrieNode.key_append_drop (prefix_of_concat forkB)]
    · split
      · simp [TrieNode.newEmpty, TrieNodeChild.key, TrieNode.key_append_drop (prefix_of_concat forkA)]
      · rfl
  have two : parent.numChildren = 2 := by
    have grown := TrieNode.numChildren_setChild (n := parent₀) (i := b) (some ⟨key.drop L.length, h⟩)
    have one : parent₀.numChildren = 1 := TrieNode.numChildren_setChild_of_none (fun _ => rfl) _
    have emptyB : parent₀.children b = none := by
      rw [TrieNode.setChild_children, if_neg (Ne.symm ab)]
      rfl
    simp only [one, emptyB, Option.isSome_none, Option.isSome_some, Bool.false_eq_true, if_false,
      if_true] at grown
    show (parent₀.setChild b (some ⟨key.drop L.length, h⟩)).numChildren = 2
    omega
  have rebuilt : ∀ k n', s' k = some n' → k ∈ [p.key, L, key] → NodeOk s' k n' := by
    intro k n' stored' mem
    simp only [List.mem_cons, List.not_mem_nil, or_false] at mem
    rcases mem with rfl | rfl | rfl
    · -- the parent's entry now names the new branch node
      refine upd.first_nodeOk inv chain [L, key] status extL (by simp [extL, ext]) LStored
        (fun k stored below => ?_) stored'
      rcases storedNew k stored with rfl | rfl | old
      · exact List.prefix_refl _
      · exact prefix_of_concat forkB
      · exact (prefix_of_concat forkA).trans (underP k old below)
    · -- the new branch node
      obtain rfl : n' = t := Option.some.inj (stored'.symm.trans placed)
      refine ⟨shape.key, fun _ => ⟨by simpa [parent, parent₀, TrieNode.newEmpty] using shape.rootData, .inr ?_⟩,
        fun j => ?_⟩
      · rw [TrieNode.numChildren_eq_of_targetAt shape.targets, two]
      by_cases atB : j = b
      · subst atB
        refine .of_least (by rw [targets, if_pos rfl]) ⟨by simp [leafStored], forkB, fun k stored below => ?_⟩
        rcases belowL k stored (prefix_of_concat below) (ne_of_concat below).symm with rfl | curBelow
        · exact List.prefix_refl _
        · exact absurd (concat_prefix_inj (forkA.trans curBelow) below) ab
      by_cases atA : j = a
      · subst atA
        refine .of_least (by rw [targets, if_neg atB, if_pos rfl]) ⟨?_, forkA, fun k stored below => ?_⟩
        · rw [Ne, status cur.key (by simp [Ne.symm LCur, Ne.symm keyCur]), storedCur]
          simp
        · rcases belowL k stored (prefix_of_concat below) (ne_of_concat below).symm with rfl | curBelow
          · exact absurd (concat_prefix_inj below forkB) atB
          · exact curBelow
      · refine .of_nothing (by rw [targets, if_neg atB, if_neg atA]) fun k stored below => ?_
        rcases belowL k stored (prefix_of_concat below) (ne_of_concat below).symm with rfl | curBelow
        · exact atB (concat_prefix_inj below forkB)
        · exact atA (concat_prefix_inj below (forkA.trans curBelow))
    · -- the new leaf: below it nothing is stored
      obtain rfl : n' = leaf := Option.some.inj (stored'.symm.trans leafStored)
      refine nodeOk_newLeaf value fun j k stored below => ?_
      rcases storedNew k stored with rfl | rfl | old
      · have := length_lt_of_concat below
        omega
      · exact ne_of_concat below rfl
      · rcases List.prefix_or_prefix_of_prefix (underP k old (ext.trans (prefix_of_concat below)))
          (prefix_of_concat below) with curKey | keyCur'
        · exact notPre curKey
        · exact notPre' keyCur'
  refine ⟨s', run, ⟨?_, inv.nodes_of_frame [L, key] [p.key, L, key] status kept anchored rebuilt, ?_⟩, ?_⟩
  · obtain ⟨r, rd, r', rootStore, rootData, rootStored, rootValue, rootData'⟩ := upd.root
    obtain ⟨r₀, root₀, value₀, data₀⟩ := inv.root
    have LNonempty : L ≠ [] := by
      rintro rfl
      simp at extL
    rw [lookup, if_neg (Ne.symm LNonempty), if_neg (Ne.symm keyNonempty), root₀] at rootStore
    cases rootStore
    rw [rootData] at data₀
    cases data₀
    refine ⟨r', rootStored, by rw [rootValue, value₀], ?_⟩
    rw [rootData', countsOf_after]
    intro K counted
    have branch : parent.kind = some .branch := TrieNode.kind_eq_branch rfl rfl (by omega)
    rw [kindCount_congr upd.kinds,
      show store = Function.update (Function.update s key (some leaf)) L (some parent) from rfl,
      kindCount_update (finite_update inv.finite _ _), kindCount_update inv.finite, Function.update_of_ne LKey,
      freshL, fresh, CountUpdates.get_mk _ _ _ counted]
    simp only [Option.bind_some, Option.bind_none, CountUpdates.hit_none, branch, leaf, TrieNode.newLeaf_kind]
    omega
  · exact finite_of_status inv.finite [L, key] status
  · funext k
    rw [get_eq, upd.values, lookup]
    by_cases atL : k = L
    · subst atL
      simp [Function.update_of_ne LKey, freshL, parent, parent₀, TrieNode.newEmpty]
    · by_cases atKey : k = key
      · subst atKey
        simp [atL, leaf]
      · simp [atL, atKey]

end Sibling

section PutRaw

variable [DecidableEq H] {s : NodeStore V H} {key : KeyNibbles}

/-- `put_raw` on a table with the invariant, at a key other than the root's, keeps the
    invariant and writes the value: the exit of the walk decides which case applies. -/
theorem putRaw_spec (hasher : TrieHasher V H) (inv : TrieInvariant s) (nonempty : key ≠ []) (value : V) :
    ∃ s', putRaw hasher s key value = some s' ∧ TrieInvariant s' ∧
      get s' = Function.update (get s) key (some value) := by
  obtain ⟨r, root, _, _⟩ := inv.root
  obtain ⟨exit, path, walk, ok⟩ := descend_root inv key r root
  cases exit with
  | found cur =>
    obtain ⟨stored, chain⟩ := ok
    have noData : cur.rootData = none := ((inv.nodes key cur stored).nonroot nonempty).1
    have put : cur.putValue value = .ok ({ cur with value := some value }, cur.value) := by
      simp [TrieNode.putValue, noData]
    simp only [putRaw, inv.getNode_eq, root, walk, Option.bind_eq_bind, Option.bind_some, put, Except.toOption]
    exact found_setValue inv nonempty stored chain (some value) (.inl rfl)
  | noChild cur =>
    obtain ⟨chain, i, ext, empty⟩ := ok
    simp only [putRaw, inv.getNode_eq, root, walk, Option.bind_eq_bind, Option.bind_some, TrieNode.hash_newLeaf,
      TrieNode.newLeaf_key, TrieNode.putChild_of_concat ext, unwrapResult_some_ok]
    exact put_noChild inv chain ext empty value _
  | notPrefix cur =>
    obtain ⟨chain, notPre, p, rest, i, rfl, ext, target⟩ := ok
    have okP := inv.nodes _ _ (chain.path_stored inv p List.mem_cons_self)
    have extCur := (okP.sound i _ target).2.1
    by_cases pre : key <+: cur.key
    · -- the key lies above the target: a hybrid node
      obtain ⟨a, extA⟩ := exists_concat_of_ne pre fun same => notPre (same ▸ List.prefix_refl _)
      have isPre : key.isPrefixOf cur.key = true := List.isPrefixOf_iff_prefix.mpr pre
      simp only [putRaw, inv.getNode_eq, root, walk, Option.bind_eq_bind, Option.bind_some, isPre, if_true,
        TrieNode.putChild_of_concat (n := TrieNode.newLeaf key value) extA, TrieNode.newLeaf_key,
        unwrapResult_some_ok]
      exact put_hybrid inv chain notPre ext target extA value
    · -- the key forks from the target: a branch node at their common prefix
      obtain ⟨a, b, ab, forkA, forkB⟩ := commonPrefix_fork notPre pre
      have isPre : key.isPrefixOf cur.key = false := by
        rw [Bool.eq_false_iff, Ne, List.isPrefixOf_iff_prefix]
        exact pre
      simp only [putRaw, inv.getNode_eq, root, walk, Option.bind_eq_bind, Option.bind_some, isPre,
        Bool.false_eq_true, if_false, TrieNode.putChildNoHash,
        TrieNode.putChild_of_concat (n := TrieNode.newEmpty (commonPrefix cur.key key)) forkA,
        TrieNode.newEmpty_key, unwrapResult_some_ok, TrieNode.hash_newLeaf, TrieNode.newLeaf_key]
      rw [TrieNode.putChild_of_concat (by simpa using forkB)]
      simp only [unwrapResult_some_ok, Option.bind_some, TrieNode.setChild_key, TrieNode.newEmpty_key]
      exact put_sibling inv chain notPre pre ext target (prefix_commonPrefix extCur ext) forkA forkB ab value _

end PutRaw

end MerkleRadixTrie

end Albatross
