import Albatross.Trie.Put

/- `remove_raw` on a complete trie. When the walk finds the key, its node loses its
   value: with two children it stays as a branch node (the case `found_setValue`
   shares with `put_raw`), with one child it is merged into that child, and a leaf is
   removed, after which its parent either stays or, a branch node left with one
   child, is merged into that child too. Each is proved to keep `TrieInvariant` and
   to remove the value, and `removeRaw_spec` puts them together. -/
namespace Albatross

namespace MerkleRadixTrie

variable {V H : Type} [Inhabited H]

section Hybrid

variable {s : NodeStore V H} {key : KeyNibbles} {cur P : TrieNode V H} {rest : List (TrieNode V H)}

/-- A hybrid node with one child loses its value: the child takes its place. -/
theorem remove_hybrid (inv : TrieInvariant s) (stored : s key = some cur) (chain : RootPath s cur (P :: rest))
    (one : cur.numChildren = 1) {j : Fin 16} {c : TrieNodeChild H} {child : TrieNode V H}
    (entry : cur.children j = some c) (childStored : s (c.key cur.key) = some child) :
    ∃ s', updateKeys (removeNode s key) (child :: P :: rest) ⟨0, -1, 0⟩ = some s' ∧
      TrieInvariant s' ∧ get s' = Function.update (get s) key none := by
  have keyed : cur.key = key := inv.keyed stored
  subst keyed
  set store := removeNode s cur.key
  set t := c.key cur.key
  have okCur := inv.nodes _ cur stored
  have nonempty : cur.key ≠ [] := chain.key_ne_nil inv
  have valued : cur.value.isSome := by
    rcases (okCur.nonroot nonempty).2 with valued | two
    · exact valued
    · omega
  obtain ⟨j₀, c₀, entry₀, _, others⟩ := TrieNode.firstChild_of_numChildren_one one
  have same : j = j₀ := by
    by_contra ne
    simp [others j ne] at entry
  subst same
  have targetC : cur.targetAt j = some t := by simp [t, TrieNode.targetAt, entry]
  have childKey : child.key = t := inv.keyed childStored
  have extC := (okCur.sound j _ targetC).2.1
  -- everything stored strictly below the key lies under its only child
  have underCur : ∀ k, s k ≠ none → cur.key <+: k → k ≠ cur.key → t <+: k := by
    intro k stored' below ne
    obtain ⟨j', t', target, tk⟩ := okCur.under stored' below ne
    by_cases here : j' = j
    · subst here
      rw [targetC] at target
      cases target
      exact tk
    · simp [TrieNode.targetAt, others j' here] at target
  obtain ⟨i, targetP, extP⟩ := chain.toward inv P rest rfl
  have extChild : P.key ++ [i] <+: child.key := by
    rw [childKey]
    exact extP.trans (prefix_of_concat extC)
  have storedP := chain.path_stored inv P List.mem_cons_self
  have okP := inv.nodes _ _ storedP
  have leastP := okP.sound i _ targetP
  have lookup : ∀ k, store k = if k = cur.key then none else s k := fun k => removeNode_apply cur.key
  obtain ⟨s', run, upd⟩ := updateKeys_after inv chain (List.cons_ne_nil P rest) store child ⟨0, -1, 0⟩
    (fun q mem => by
      have := chain.length_lt inv q mem
      rw [lookup, if_neg (by rintro same; rw [same] at this; omega)]
      exact chain.path_stored inv q mem)
    (by rw [lookup, childKey, if_neg (ne_of_concat extC).symm, childStored])
    (by rintro _ _ ⟨⟩; exact ⟨i, targetP, extChild⟩)
  have status : ∀ k, k ∉ [cur.key] → (s' k = none ↔ s k = none) := by
    intro k other
    rw [upd.status, lookup, if_neg (by simpa using other)]
  have removed : s' cur.key = none := by
    rw [upd.status, lookup, if_pos rfl]
  have storedOld : ∀ k, s' k ≠ none → s k ≠ none ∧ k ≠ cur.key := by
    intro k stored'
    have other : k ≠ cur.key := by
      rintro rfl
      exact stored' removed
    exact ⟨fun none => stored' ((status k (by simpa using other)).mpr none), other⟩
  have kept := upd.kept inv chain [P.key, cur.key]
    (fun k other _ => by rw [lookup, if_neg (by simp_all)])
    (.inr fun _ _ same => by cases same; simp) (fun empty => absurd empty (List.cons_ne_nil P rest))
  have anchored : ∀ x ∈ [cur.key], ∃ a ∈ [P.key, cur.key], s a ≠ none ∧ a <+: x ∧ a ≠ x ∧
      ∀ m, s m ≠ none → a <+: m → m <+: x → m = a ∨ m = x := by
    intro x mem
    rw [List.mem_singleton] at mem
    subst mem
    exact ⟨P.key, by simp, by simp [storedP], prefix_of_concat extP, ne_of_concat extP, okP.between_target targetP⟩
  have rebuilt : ∀ k n', s' k = some n' → k ∈ [P.key, cur.key] → NodeOk s' k n' := by
    intro k n' stored' mem
    simp only [List.mem_cons, List.not_mem_nil, or_false] at mem
    rcases mem with rfl | rfl
    · -- the parent's entry now names the child
      obtain ⟨t', placed, _⟩ := upd.placed
      refine upd.first_nodeOk inv chain [cur.key] status extChild (by simpa using extP) (by simp [placed])
        (fun k stored'' below => ?_) stored'
      obtain ⟨old, other⟩ := storedOld k stored''
      rw [childKey]
      exact underCur k old (leastP.2.2 k old below) other
    · simp [removed] at stored'
  refine ⟨s', run, ⟨?_, inv.nodes_of_frame [cur.key] [P.key, cur.key] status kept anchored rebuilt, ?_⟩, ?_⟩
  · obtain ⟨r, rd, r', rootStore, rootData, rootStored, rootValue, rootData'⟩ := upd.root
    obtain ⟨r₀, root₀, value₀, data₀⟩ := inv.root
    rw [lookup, if_neg (Ne.symm nonempty), root₀] at rootStore
    cases rootStore
    rw [rootData] at data₀
    cases data₀
    refine ⟨r', rootStored, by rw [rootValue, value₀], ?_⟩
    rw [rootData', countsOf_after]
    intro K counted
    have hybrid : cur.kind = some .hybrid :=
      TrieNode.kind_eq_hybrid ((okCur.nonroot nonempty).1) valued (by omega)
    rw [kindCount_congr upd.kinds, show store = Function.update s cur.key none from rfl,
      kindCount_update inv.finite, stored, CountUpdates.get_mk _ _ _ counted]
    simp only [Option.bind_some, Option.bind_none, CountUpdates.hit_none, hybrid]
    omega
  · exact finite_of_status inv.finite [cur.key] status
  · funext k
    rw [get_eq, upd.values, lookup]
    by_cases here : k = cur.key
    · subst here
      simp
    · simp [here]

end Hybrid

section Leaf

variable {s : NodeStore V H} {key : KeyNibbles} {cur P : TrieNode V H} {rest : List (TrieNode V H)} {i : Fin 16}

omit [Inhabited H] in
theorem leaf_kind (inv : TrieInvariant s) (stored : s cur.key = some cur) (nonempty : cur.key ≠ [])
    (noChildren : ∀ j, cur.children j = none) : cur.kind = some .leaf := by
  have ok := inv.nodes _ cur stored
  have zero : cur.numChildren = 0 := by simp [TrieNode.numChildren, noChildren]
  have valued : cur.value.isSome := by
    rcases (ok.nonroot nonempty).2 with valued | two
    · exact valued
    · omega
  simp [TrieNode.kind, TrieNode.isRoot, TrieNode.hasChildren, (ok.nonroot nonempty).1, valued, zero]

/-- A leaf is removed and its parent, which keeps a value or two children, stays. -/
theorem remove_leaf (inv : TrieInvariant s) (stored : s key = some cur) (chain : RootPath s cur (P :: rest))
    (noChildren : ∀ j, cur.children j = none) (ext : P.key ++ [i] <+: key)
    (enough : P.key ≠ [] → P.value.isSome ∨ 2 ≤ (P.setChild i none).numChildren) :
    ∃ s', updateKeys (putNode (removeNode s key) (P.setChild i none)) (P.setChild i none :: rest)
        ((⟨0, 0, -1⟩ : CountUpdates).applyUpdate P.kind (P.setChild i none).kind) = some s' ∧
      TrieInvariant s' ∧ get s' = Function.update (get s) key none := by
  have keyed : cur.key = key := inv.keyed stored
  subst keyed
  set P' := P.setChild i none
  set cu := (⟨0, 0, -1⟩ : CountUpdates).applyUpdate P.kind P'.kind
  set store := putNode (removeNode s cur.key) P'
  have okCur := inv.nodes _ cur stored
  have nonempty : cur.key ≠ [] := chain.key_ne_nil inv
  have chainP : RootPath s P rest := by cases chain with | child _ chainP _ _ => exact chainP
  have storedP := chain.path_stored inv P List.mem_cons_self
  have okP := inv.nodes _ _ storedP
  have targetP : P.targetAt i = some cur.key := by
    obtain ⟨i', target, ext'⟩ := chain.toward inv P rest rfl
    obtain rfl := concat_prefix_inj ext ext'
    exact target
  have leastP := okP.sound i _ targetP
  have ne : P.key ≠ cur.key := ne_of_concat ext
  have lookup : ∀ k, store k = if k = P.key then some P' else if k = cur.key then none else s k := by
    intro k
    simp only [store, putNode_apply, removeNode_apply]
    rfl
  obtain ⟨s', run, upd⟩ : ∃ s', updateKeys store (P' :: rest) cu = some s' ∧ PathUpdate s store s' P P' rest cu := by
    cases rest with
    | nil =>
      have rootKey := chainP.key_eq_nil inv
      obtain ⟨r, root, _, data⟩ := inv.root
      rw [← rootKey, storedP] at root
      cases root
      exact updateKeys_root store P' cu (by simp [lookup, P']) rootKey data
    | cons G rest' =>
      refine updateKeys_after inv chainP (List.cons_ne_nil G rest') store P' cu (fun q mem => ?_)
        (by simp [lookup, P']) (chainP.toward inv)
      have shorter := chainP.length_lt inv q mem
      have longer := length_lt_of_concat ext
      rw [lookup, if_neg (by rintro same; rw [same] at shorter; omega),
        if_neg (by rintro same; rw [same] at shorter; omega)]
      exact chainP.path_stored inv q mem
  have status : ∀ k, k ∉ [cur.key] → (s' k = none ↔ s k = none) := by
    intro k other
    rw [upd.status, lookup]
    by_cases here : k = P.key
    · simp [here, storedP]
    · simp_all
  have removed : s' cur.key = none := by
    rw [upd.status, lookup, if_neg (Ne.symm ne), if_pos rfl]
  have storedOld : ∀ k, s' k ≠ none → s k ≠ none ∧ k ≠ cur.key := by
    intro k stored'
    have other : k ≠ cur.key := by
      rintro rfl
      exact stored' removed
    exact ⟨fun none => stored' ((status k (by simpa using other)).mpr none), other⟩
  have kept := upd.kept inv chainP [P.key, cur.key]
    (fun k other _ => by
      simp only [List.mem_cons, List.not_mem_nil, or_false, not_or] at other
      rw [lookup, if_neg other.1, if_neg other.2])
    (.inl rfl) (by rintro rfl; simp [chainP.key_eq_nil inv])
  have anchored : ∀ x ∈ [cur.key], ∃ a ∈ [P.key, cur.key], s a ≠ none ∧ a <+: x ∧ a ≠ x ∧
      ∀ m, s m ≠ none → a <+: m → m <+: x → m = a ∨ m = x := by
    intro x mem
    rw [List.mem_singleton] at mem
    subst mem
    exact ⟨P.key, by simp, by simp [storedP], prefix_of_concat ext, ne, okP.between_target targetP⟩
  have rebuilt : ∀ k n', s' k = some n' → k ∈ [P.key, cur.key] → NodeOk s' k n' := by
    intro k n' stored' mem
    simp only [List.mem_cons, List.not_mem_nil, or_false] at mem
    rcases mem with rfl | rfl
    · -- the parent without its entry toward the leaf
      obtain ⟨t, placed, shape, value'⟩ := upd.placed
      obtain rfl : n' = t := Option.some.inj (stored'.symm.trans placed)
      refine okP.setEntry [cur.key] status shape.key shape.rootData
        (fun j other => (shape.targets j).trans (TrieNode.targetAt_setChild_ne _ other)) (by simpa using ext) ?_ ?_
      · refine .of_nothing ((shape.targets i).trans (by simp [P', TrieNode.targetAt_setChild])) fun k stored'' below => ?_
        obtain ⟨old, other⟩ := storedOld k stored''
        exact other (okCur.under_leaf noChildren old (leastP.2.2 k old below))
      · intro nonempty'
        rw [value', TrieNode.numChildren_eq_of_targetAt shape.targets]
        exact enough nonempty'
    · simp [removed] at stored'
  have rootOld : ∃ r, store [] = some r ∧ r.value = none ∧ r.rootData = some (countsOf s) := by
    obtain ⟨r, root, value₀, data⟩ := inv.root
    by_cases atP : P.key = []
    · rw [lookup, if_pos atP.symm]
      rw [atP, root] at storedP
      cases storedP
      exact ⟨P', rfl, value₀, data⟩
    · rw [lookup, if_neg (Ne.symm atP), if_neg (Ne.symm nonempty)]
      exact ⟨r, root, value₀, data⟩
  refine ⟨s', run, ⟨?_, inv.nodes_of_frame [cur.key] [P.key, cur.key] status kept anchored rebuilt, ?_⟩, ?_⟩
  · obtain ⟨r, rd, r', rootStore, rootData, rootStored, rootValue, rootData'⟩ := upd.root
    obtain ⟨r₀, root₀, value₀, data₀⟩ := rootOld
    rw [root₀] at rootStore
    cases rootStore
    rw [rootData] at data₀
    cases data₀
    refine ⟨r', rootStored, by rw [rootValue, value₀], ?_⟩
    rw [rootData', countsOf_after]
    intro K counted
    rw [kindCount_congr upd.kinds,
      show store = Function.update (Function.update s cur.key none) P.key (some P') from rfl,
      kindCount_update (finite_update inv.finite _ _), kindCount_update inv.finite, Function.update_of_ne ne,
      stored, storedP, CountUpdates.get_applyUpdate _ _ _ counted, CountUpdates.get_mk _ _ _ counted]
    simp only [Option.bind_some, Option.bind_none, CountUpdates.hit_none,
      leaf_kind inv stored nonempty noChildren]
    omega
  · exact finite_of_status inv.finite [cur.key] status
  · funext k
    rw [get_eq, upd.values, lookup]
    by_cases atP : k = P.key
    · rw [if_pos atP, Function.update_of_ne (atP ▸ ne), get_eq, atP, storedP]
      rfl
    · by_cases atKey : k = cur.key
      · subst atKey
        simp [atP]
      · simp [atP, atKey]

/-- A leaf is removed and its parent, a branch node left with one child, is merged into
    that child: the grandparent's entry names the child. -/
theorem remove_leaf_merge (inv : TrieInvariant s) (stored : s key = some cur) (chain : RootPath s cur (P :: rest))
    (noChildren : ∀ j, cur.children j = none) (ext : P.key ++ [i] <+: key)
    (one : (P.setChild i none).numChildren = 1) (noData : P.rootData = none) (valueless : P.value = none)
    {j : Fin 16} {c : TrieNodeChild H} {sib : TrieNode V H} (entry : (P.setChild i none).children j = some c)
    (sibStored : s (c.key P.key) = some sib) :
    ∃ s', updateKeys (removeNode (removeNode s key) P.key) (sib :: rest)
        (((⟨0, 0, -1⟩ : CountUpdates).applyUpdate P.kind (P.setChild i none).kind).applyUpdate
          (P.setChild i none).kind none) = some s' ∧
      TrieInvariant s' ∧ get s' = Function.update (get s) key none := by
  have keyed : cur.key = key := inv.keyed stored
  subst keyed
  set P' := P.setChild i none
  set cu := ((⟨0, 0, -1⟩ : CountUpdates).applyUpdate P.kind P'.kind).applyUpdate P'.kind none
  set store := removeNode (removeNode s cur.key) P.key
  set t := c.key P.key
  have okCur := inv.nodes _ cur stored
  have nonempty : cur.key ≠ [] := chain.key_ne_nil inv
  have chainP : RootPath s P rest := by cases chain with | child _ chainP _ _ => exact chainP
  have storedP := chain.path_stored inv P List.mem_cons_self
  have okP := inv.nodes _ _ storedP
  have targetP : P.targetAt i = some cur.key := by
    obtain ⟨i', target, ext'⟩ := chain.toward inv P rest rfl
    obtain rfl := concat_prefix_inj ext ext'
    exact target
  have leastP := okP.sound i _ targetP
  have ne : P.key ≠ cur.key := ne_of_concat ext
  -- the parent's entries: the leaf at `i`, the sibling at `j`, nothing else
  obtain ⟨j₀, c₀, entry₀, _, others⟩ := TrieNode.firstChild_of_numChildren_one one
  have same : j = j₀ := by
    by_contra other
    simp [others j other] at entry
  subst same
  have ji : j ≠ i := by
    rintro rfl
    simp [P', TrieNode.setChild_children] at entry
  have entryP : P.children j = some c := by
    rw [TrieNode.setChild_children, if_neg ji] at entry
    exact entry
  have othersP : ∀ j', j' ≠ i → j' ≠ j → P.children j' = none := by
    intro j' notI notJ
    have := others j' notJ
    rwa [TrieNode.setChild_children, if_neg notI] at this
  have targetJ : P.targetAt j = some t := by simp [t, TrieNode.targetAt, entryP]
  have extJ := (okP.sound j _ targetJ).2.1
  have sibKey : sib.key = t := inv.keyed sibStored
  have tCur : t ≠ cur.key := fun same => ji (concat_prefix_inj (same ▸ extJ) ext)
  -- everything stored strictly below the parent, other than the leaf, lies under the sibling
  have underP : ∀ k, s k ≠ none → P.key <+: k → k ≠ P.key → k ≠ cur.key → t <+: k := by
    intro k stored' below other notLeaf
    obtain ⟨j', t', target, tk⟩ := okP.under stored' below other
    by_cases atI : j' = i
    · subst atI
      rw [targetP] at target
      cases target
      exact absurd (okCur.under_leaf noChildren stored' tk) notLeaf
    by_cases atJ : j' = j
    · subst atJ
      rw [targetJ] at target
      cases target
      exact tk
    · simp [TrieNode.targetAt, othersP j' atI atJ] at target
  -- the parent is not the root, so the path goes on to the grandparent
  obtain ⟨G, rest', rfl⟩ : ∃ G rest', rest = G :: rest' := by
    cases rest with
    | nil =>
      obtain ⟨r, root, _, data⟩ := inv.root
      rw [← chainP.key_eq_nil inv, storedP] at root
      cases root
      simp [noData] at data
    | cons G rest' => exact ⟨G, rest', rfl⟩
  obtain ⟨g, targetG, extG⟩ := chainP.toward inv G rest' rfl
  have storedG := chainP.path_stored inv G List.mem_cons_self
  have okG := inv.nodes _ _ storedG
  have leastG := okG.sound g _ targetG
  have extSib : G.key ++ [g] <+: sib.key := by
    rw [sibKey]
    exact extG.trans (prefix_of_concat extJ)
  have lookup : ∀ k, store k = if k = P.key then none else if k = cur.key then none else s k := by
    intro k
    simp only [store, removeNode_apply]
  have nonemptyP : P.key ≠ [] := chainP.key_ne_nil inv
  obtain ⟨s', run, upd⟩ := updateKeys_after inv chainP (List.cons_ne_nil G rest') store sib cu
    (fun q mem => by
      have shorter := chainP.length_lt inv q mem
      have longer := length_lt_of_concat ext
      rw [lookup, if_neg (by rintro same; rw [same] at shorter; omega),
        if_neg (by rintro same; rw [same] at shorter; omega)]
      exact chainP.path_stored inv q mem)
    (by rw [lookup, sibKey, if_neg (ne_of_concat extJ).symm, if_neg tCur, sibStored])
    (by rintro _ _ ⟨⟩; exact ⟨g, targetG, extSib⟩)
  have status : ∀ k, k ∉ [cur.key, P.key] → (s' k = none ↔ s k = none) := by
    intro k other
    simp only [List.mem_cons, List.not_mem_nil, or_false, not_or] at other
    rw [upd.status, lookup, if_neg other.2, if_neg other.1]
  have storedOld : ∀ k, s' k ≠ none → s k ≠ none ∧ k ≠ cur.key ∧ k ≠ P.key := by
    intro k stored'
    have gone : ∀ x ∈ [cur.key, P.key], s' x = none := by
      intro x mem
      rw [upd.status, lookup]
      simp only [List.mem_cons, List.not_mem_nil, or_false] at mem
      rcases mem with rfl | rfl
      · simp [Ne.symm ne]
      · simp
    have notCur : k ≠ cur.key := fun same => stored' (same ▸ gone cur.key (by simp))
    have notP : k ≠ P.key := fun same => stored' (same ▸ gone P.key (by simp))
    exact ⟨fun none => stored' ((status k (by simp [notCur, notP])).mpr none), notCur, notP⟩
  have kept := upd.kept inv chainP [G.key, P.key, cur.key]
    (fun k other _ => by
      simp only [List.mem_cons, List.not_mem_nil, or_false, not_or] at other
      rw [lookup, if_neg other.2.1, if_neg other.2.2])
    (.inr fun _ _ same => by cases same; simp) (fun empty => absurd empty (List.cons_ne_nil G rest'))
  have anchored : ∀ x ∈ [cur.key, P.key], ∃ a ∈ [G.key, P.key, cur.key], s a ≠ none ∧ a <+: x ∧ a ≠ x ∧
      ∀ m, s m ≠ none → a <+: m → m <+: x → m = a ∨ m = x := by
    intro x mem
    simp only [List.mem_cons, List.not_mem_nil, or_false] at mem
    rcases mem with rfl | rfl
    · exact ⟨P.key, by simp, by simp [storedP], prefix_of_concat ext, ne, okP.between_target targetP⟩
    · exact ⟨G.key, by simp, by simp [storedG], prefix_of_concat extG, ne_of_concat extG,
        okG.between_target targetG⟩
  have rebuilt : ∀ k n', s' k = some n' → k ∈ [G.key, P.key, cur.key] → NodeOk s' k n' := by
    intro k n' stored' mem
    simp only [List.mem_cons, List.not_mem_nil, or_false] at mem
    rcases mem with rfl | rfl | rfl
    · -- the grandparent's entry now names the sibling
      obtain ⟨t', placed, _⟩ := upd.placed
      refine upd.first_nodeOk inv chainP [cur.key, P.key] status extSib
        (by simp [extG, extG.trans (prefix_of_concat ext)]) (by simp [placed]) (fun k stored'' below => ?_) stored'
      obtain ⟨old, notCur, notP⟩ := storedOld k stored''
      rw [sibKey]
      exact underP k old (leastG.2.2 k old below) notP notCur
    · exact absurd rfl (storedOld _ (by simp [stored'])).2.2
    · exact absurd rfl (storedOld _ (by simp [stored'])).2.1
  refine ⟨s', run, ⟨?_, inv.nodes_of_frame [cur.key, P.key] [G.key, P.key, cur.key] status kept anchored rebuilt,
    ?_⟩, ?_⟩
  · obtain ⟨r, rd, r', rootStore, rootData, rootStored, rootValue, rootData'⟩ := upd.root
    obtain ⟨r₀, root₀, value₀, data₀⟩ := inv.root
    rw [lookup, if_neg (Ne.symm nonemptyP), if_neg (Ne.symm nonempty), root₀] at rootStore
    cases rootStore
    rw [rootData] at data₀
    cases data₀
    refine ⟨r', rootStored, by rw [rootValue, value₀], ?_⟩
    rw [rootData', countsOf_after]
    intro K counted
    rw [kindCount_congr upd.kinds,
      show store = Function.update (Function.update s cur.key none) P.key none from rfl,
      kindCount_update (finite_update inv.finite _ _), kindCount_update inv.finite, Function.update_of_ne ne,
      stored, storedP, CountUpdates.get_applyUpdate _ _ _ counted, CountUpdates.get_applyUpdate _ _ _ counted,
      CountUpdates.get_mk _ _ _ counted]
    simp only [Option.bind_some, Option.bind_none, CountUpdates.hit_none,
      leaf_kind inv stored nonempty noChildren]
    omega
  · exact finite_of_status inv.finite [cur.key, P.key] status
  · funext k
    rw [get_eq, upd.values, lookup]
    by_cases atP : k = P.key
    · subst atP
      simp [Function.update_of_ne ne, storedP, valueless]
    · by_cases atKey : k = cur.key
      · subst atKey
        simp [atP]
      · simp [atP, atKey]

end Leaf

section RemoveRaw

variable {s : NodeStore V H} {key : KeyNibbles}

omit [Inhabited H] in
/-- The parent of a removed leaf is not left empty: it is the root, or it had a value
    or two children. -/
theorem parent_not_empty (inv : TrieInvariant s) {P : TrieNode V H} {i : Fin 16} (storedP : s P.key = some P)
    (occupied : P.children i ≠ none) : (P.setChild i none).isEmpty = false := by
  by_cases root : P.key = []
  · obtain ⟨r, rootStored, _, data⟩ := inv.root
    rw [← root, storedP] at rootStored
    cases rootStored
    simp [TrieNode.isEmpty, TrieNode.isRoot, data]
  · obtain ⟨_, enough⟩ := (inv.nodes _ _ storedP).nonroot root
    have shrunk := TrieNode.numChildren_setChild (n := P) (i := i) none
    have full : (P.children i).isSome = true := Option.isSome_iff_ne_none.mpr occupied
    simp only [full, if_true, Option.isSome_none, Bool.false_eq_true, if_false] at shrunk
    rcases enough with valued | two
    · simp [TrieNode.isEmpty, Option.isNone_iff_eq_none, Option.ne_none_iff_isSome.mpr valued]
    · have left : (P.setChild i none).numChildren ≠ 0 := by omega
      simp [TrieNode.isEmpty, TrieNode.hasChildren, left]

/-- `remove_raw` on a table with the invariant, at a key other than the root's, keeps
    the invariant and removes the value: the exit of the walk and the number of
    children of the nodes it meets decide which case applies. -/
theorem removeRaw_spec (inv : TrieInvariant s) (nonempty : key ≠ []) :
    ∃ s', removeRaw s key = some s' ∧ TrieInvariant s' ∧ get s' = Function.update (get s) key none := by
  obtain ⟨r, root, _, _⟩ := inv.root
  obtain ⟨exit, path, walk, ok⟩ := descend_root inv key r root
  -- a key the walk does not find is left as it is
  have unchanged : (∀ cur, exit ≠ .found cur) → get s = Function.update (get s) key none := by
    intro missed
    funext k
    by_cases here : k = key
    · subst here
      simp [ok.not_found inv missed]
    · simp [here]
  cases exit with
  | notPrefix cur =>
    simp only [removeRaw, inv.getNode_eq, root, walk, Option.bind_eq_bind, Option.bind_some]
    exact ⟨s, rfl, inv, unchanged fun _ => by simp⟩
  | noChild cur =>
    simp only [removeRaw, inv.getNode_eq, root, walk, Option.bind_eq_bind, Option.bind_some]
    exact ⟨s, rfl, inv, unchanged fun _ => by simp⟩
  | found cur =>
    obtain ⟨stored, chain⟩ := ok
    have keyed : cur.key = key := inv.keyed stored
    subst keyed
    have okCur := inv.nodes _ _ stored
    have noData : cur.rootData = none := (okCur.nonroot nonempty).1
    have notRoot : ({ cur with value := none } : TrieNode V H).isRoot = false := by simp [TrieNode.isRoot, noData]
    have sameCount : ({ cur with value := none } : TrieNode V H).numChildren = cur.numChildren := rfl
    have sameFirst : ({ cur with value := none } : TrieNode V H).firstChild = cur.firstChild := rfl
    simp only [removeRaw, inv.getNode_eq, root, walk, Option.bind_eq_bind, Option.bind_some, notRoot, sameCount,
      sameFirst, TrieNode.hasChildren, Bool.false_or, Bool.not_false, Bool.and_true, decide_eq_true_eq]
    rcases (by omega : cur.numChildren = 0 ∨ cur.numChildren = 1 ∨ 2 ≤ cur.numChildren) with zero | one | two
    · -- a leaf: remove it and walk up to its parent
      have noChildren : ∀ j, cur.children j = none := by
        intro j
        by_contra occupied
        have := TrieNode.hasChildren_iff.mpr ⟨j, Option.isSome_iff_ne_none.mpr occupied⟩
        simp [TrieNode.hasChildren, zero] at this
      obtain ⟨P, rest, rfl⟩ := List.exists_cons_of_ne_nil (fun empty : path = [] =>
        nonempty (by subst empty; exact chain.key_eq_nil inv))
      obtain ⟨i, targetP, extP⟩ := chain.toward inv P rest rfl
      have storedP := chain.path_stored inv P List.mem_cons_self
      have okP := inv.nodes _ _ storedP
      have occupied := occupied_of_targetAt targetP
      simp only [zero, ne_eq, not_true_eq_false, if_false, removeUp, TrieNode.removeChild_of_concat extP,
        unwrapResult_some_ok, Option.bind_eq_bind, Option.bind_some, TrieNode.setChild_key]
      have shrunk := TrieNode.numChildren_setChild (n := P) (i := i) none
      simp only [Option.isSome_iff_ne_none.mpr occupied, if_true, Option.isSome_none, Bool.false_eq_true,
        if_false] at shrunk
      set P' := P.setChild i none
      by_cases merge : P'.numChildren = 1 ∧ P.rootData = none ∧ P.value = none
      · -- the parent is a branch node left with one child: merge it too
        obtain ⟨single, noDataP, valueless⟩ := merge
        have cond : (decide (P'.numChildren = 1) && !P'.isRoot && !P'.isHybrid) = true := by
          simp [P', TrieNode.isRoot, TrieNode.isHybrid, single, noDataP, valueless]
        obtain ⟨j, c, entry, first, _⟩ := TrieNode.firstChild_of_numChildren_one single
        have ji : j ≠ i := by
          rintro rfl
          simp [P', TrieNode.setChild_children] at entry
        have entryP : P.children j = some c := by
          rw [TrieNode.setChild_children, if_neg ji] at entry
          exact entry
        have target : P.targetAt j = some (c.key P.key) := by simp [TrieNode.targetAt, entryP]
        obtain ⟨sib, sibStored⟩ := Option.ne_none_iff_exists'.mp ((okP.sound j _ target).1)
        have extJ := (okP.sound j _ target).2.1
        have fetched : getNode (removeNode (removeNode s cur.key) P.key) (c.key P.key) = some sib := by
          rw [inv.getNode_of_sub (fun k n h => by
              simp only [removeNode_apply] at h
              split at h
              · cases h
              · split at h
                · cases h
                · exact h),
            removeNode_apply, removeNode_apply, if_neg (ne_of_concat extJ).symm,
            if_neg fun same : c.key P.key = cur.key => ji (concat_prefix_inj (same ▸ extJ) extP), sibStored]
        rw [if_pos cond]
        simp only [first, fetched, Option.bind_some]
        exact remove_leaf_merge inv stored chain noChildren extP single noDataP valueless entry sibStored
      · -- the parent keeps a value or two children, or is the root: it stays
        have cond : (decide (P'.numChildren = 1) && !P'.isRoot && !P'.isHybrid) = false := by
          by_cases single : P'.numChildren = 1
          · have valued : P.rootData = none → P.value ≠ none := fun noDataP valueless =>
              merge ⟨single, noDataP, valueless⟩
            cases hData : P.rootData <;> cases hValue : P.value <;>
              simp_all [P', TrieNode.isRoot, TrieNode.isHybrid, TrieNode.hasChildren]
          · simp [single]
        rw [if_neg (by simp [cond]), parent_not_empty inv storedP occupied]
        refine remove_leaf inv stored chain noChildren extP fun nonemptyP => ?_
        obtain ⟨noDataP, enough⟩ := okP.nonroot nonemptyP
        by_cases valued : P.value.isSome
        · exact .inl valued
        · refine .inr ?_
          have two : 2 ≤ P.numChildren := enough.resolve_left valued
          have notOne : P'.numChildren ≠ 1 := fun single =>
            merge ⟨single, noDataP, by simpa using valued⟩
          show 2 ≤ P'.numChildren
          omega
    · -- a hybrid node with one child: merge it into the child
      obtain ⟨j, c, entry, first, _⟩ := TrieNode.firstChild_of_numChildren_one one
      have target : cur.targetAt j = some (c.key cur.key) := by simp [TrieNode.targetAt, entry]
      obtain ⟨child, childStored⟩ := Option.ne_none_iff_exists'.mp ((okCur.sound j _ target).1)
      have fetched : getNode (removeNode s cur.key) (c.key cur.key) = some child := by
        rw [inv.getNode_of_sub (fun k n h => by rw [removeNode_apply] at h; split at h; cases h; exact h),
          removeNode_apply, if_neg (ne_of_concat (okCur.sound j _ target).2.1).symm, childStored]
      simp only [one, first, fetched, Option.bind_some, if_true]
      obtain ⟨P, rest, rfl⟩ := List.exists_cons_of_ne_nil (fun empty : path = [] =>
        nonempty (by subst empty; exact chain.key_eq_nil inv))
      rw [if_pos one_ne_zero]
      exact remove_hybrid inv stored chain one entry childStored
    · -- a node with two children loses its value and stays as a branch node
      simp only [show cur.numChildren ≠ 1 by omega]
      rw [if_pos (by omega), if_false]
      exact found_setValue inv nonempty stored chain none (.inr two)

end RemoveRaw

end MerkleRadixTrie

end Albatross
