import Albatross.Trie.Descend

/- What `update_keys` writes: each node of the root path again, with its entry toward
   the node above it naming that node's key and marked dirty, and the counter
   updates added to the root's data. Nothing else in the table changes. -/
namespace Albatross

namespace MerkleRadixTrie

variable {V H : Type}

/-- Each node of the stack lies one nibble or more above the node on top of it. -/
def Links : KeyNibbles → List (TrieNode V H) → Prop
  | _, [] => True
  | childKey, p :: rest => (∃ i, p.key ++ [i] <+: childKey) ∧ Links p.key rest

/-- Only the bottom of the stack is the root. -/
def RootLast : List (TrieNode V H) → Prop
  | [] => True
  | p :: rest => p.isRoot = rest.isEmpty ∧ RootLast rest

/-- The node `update_keys` writes for `p`: its entry at `i` names `childKey`, dirty. -/
def marked [Inhabited H] (p : TrieNode V H) (i : Fin 16) (childKey : KeyNibbles) : TrieNode V H :=
  p.setChild i (some ⟨childKey.drop p.key.length, default⟩)

section Marked

variable [Inhabited H] {p : TrieNode V H} {i : Fin 16} {childKey : KeyNibbles}

@[simp] theorem marked_key : (marked p i childKey).key = p.key := rfl
@[simp] theorem marked_value : (marked p i childKey).value = p.value := rfl
@[simp] theorem marked_rootData : (marked p i childKey).rootData = p.rootData := rfl

theorem marked_children (j : Fin 16) :
    (marked p i childKey).children j = if j = i then some ⟨childKey.drop p.key.length, default⟩ else p.children j :=
  TrieNode.setChild_children _ j

/-- The marked entry names `childKey`; the others keep their targets. -/
theorem marked_targetAt (below : p.key <+: childKey) (j : Fin 16) :
    (marked p i childKey).targetAt j = if j = i then some childKey else p.targetAt j := by
  unfold marked
  rw [TrieNode.targetAt_setChild]
  split
  · simp [TrieNodeChild.key, TrieNode.key_append_drop below]
  · rfl

end Marked

/-- `q'` is what `update_keys` writes for `q`: `q` with its entry at `i` naming
    `childKey`, dirty. Only the root data may differ. -/
structure Rewritten [Inhabited H] (q q' : TrieNode V H) (i : Fin 16) (childKey : KeyNibbles) : Prop where
  key : q'.key = q.key
  value : q'.value = q.value
  rootSome : q'.rootData.isSome = q.rootData.isSome
  children : q'.children = (marked q i childKey).children

/-- The table holds each node of the stack rewritten toward the node above it. -/
def Written [Inhabited H] (s : NodeStore V H) : KeyNibbles → List (TrieNode V H) → Prop
  | _, [] => True
  | childKey, p :: rest =>
    (∃ i p', p.key ++ [i] <+: childKey ∧ s p.key = some p' ∧ Rewritten p p' i childKey) ∧ Written s p.key rest

section Loop

theorem Links.length_lt : ∀ {childKey : KeyNibbles} {ps : List (TrieNode V H)}, Links childKey ps →
    ∀ q ∈ ps, q.key.length < childKey.length
  | _, [], _ => by simp
  | _, p :: rest, ⟨⟨i, ext⟩, links⟩ => by
    intro q mem
    have here := length_lt_of_concat ext
    rcases List.mem_cons.mp mem with rfl | older
    · exact here
    · exact Nat.lt_trans (links.length_lt q older) here

theorem links_congr_last {childKey : KeyNibbles} {r r' : TrieNode V H} (key : r'.key = r.key) :
    ∀ {xs : List (TrieNode V H)}, Links childKey (xs ++ [r]) → Links childKey (xs ++ [r'])
  | [], ⟨ext, _⟩ => ⟨by rw [key]; exact ext, trivial⟩
  | _ :: _, ⟨ext, links⟩ => ⟨ext, links_congr_last key links⟩

theorem rootLast_congr_last {r r' : TrieNode V H} (root : r'.isRoot = r.isRoot) :
    ∀ {xs : List (TrieNode V H)}, RootLast (xs ++ [r]) → RootLast (xs ++ [r'])
  | [], ⟨here, _⟩ => ⟨by rw [root]; exact here, trivial⟩
  | _ :: xs, ⟨here, rest⟩ => ⟨by cases xs <;> simpa using here, rootLast_congr_last root rest⟩

variable [Inhabited H]

theorem rewritten_marked (q : TrieNode V H) (i : Fin 16) (childKey : KeyNibbles) :
    Rewritten q (marked q i childKey) i childKey := ⟨rfl, rfl, rfl, rfl⟩

theorem updateKeysLoop_spec :
    ∀ (store : NodeStore V H) (child : TrieNode V H) (ps : List (TrieNode V H)),
      Links child.key ps → RootLast ps →
      ∃ s', updateKeysLoop store child ps = some s' ∧ (∀ k, (∀ q ∈ ps, q.key ≠ k) → s' k = store k) ∧
        Written s' child.key ps ∧ ∀ q ∈ ps, ∃ i c, s' q.key = some (marked q i c)
  | store, _, [], _, _ => ⟨store, rfl, fun _ _ => rfl, trivial, by simp⟩
  | store, child, p :: rest, ⟨⟨i, ext⟩, links⟩, ⟨root, roots⟩ => by
    have step : updateKeysLoop store child (p :: rest) =
        updateKeysLoop (putNode store (marked p i child.key)) (marked p i child.key) rest := by
      simp [updateKeysLoop, TrieNode.putChild_of_concat ext, marked, TrieNode.isRoot, ← root,
        TrieNode.setChild_rootData]
    obtain ⟨s', loop, frame, written, exact⟩ :=
      updateKeysLoop_spec (putNode store (marked p i child.key)) (marked p i child.key) rest links roots
    have above : ∀ q ∈ rest, q.key ≠ p.key := fun q mem same =>
      absurd (links.length_lt q mem) (by simp [same])
    have here : s' p.key = some (marked p i child.key) := by
      rw [frame p.key above, putNode_apply, marked_key, if_pos rfl]
    refine ⟨s', step ▸ loop, ?_, ⟨⟨i, _, ext, here, rewritten_marked p i child.key⟩, written⟩, ?_⟩
    · intro k outside
      rw [frame k (fun q mem => outside q (List.mem_cons_of_mem p mem)), putNode_apply, marked_key,
        if_neg (Ne.symm (outside p List.mem_cons_self))]
    · intro q mem
      rcases List.mem_cons.mp mem with rfl | older
      · exact ⟨i, child.key, here⟩
      · exact exact q older

theorem written_congr_last {s : NodeStore V H} {r r' : TrieNode V H} (key : r'.key = r.key)
    (value : r'.value = r.value) (children : r'.children = r.children)
    (rootSome : r'.rootData.isSome = r.rootData.isSome) :
    ∀ {childKey : KeyNibbles} {xs : List (TrieNode V H)}, Written s childKey (xs ++ [r']) →
      Written s childKey (xs ++ [r])
  | _, [], ⟨⟨i, q, ext, stored, re⟩, _⟩ => by
    refine ⟨⟨i, q, key ▸ ext, key ▸ stored, ?_⟩, trivial⟩
    exact ⟨by rw [re.key, key], by rw [re.value, value], by rw [re.rootSome, rootSome],
      by rw [re.children]; simp [marked, TrieNode.setChild, key, children]⟩
  | _, _ :: _, ⟨here, rest⟩ => ⟨here, written_congr_last key value children rootSome rest⟩

omit [Inhabited H] in
theorem applyCounts_append (cu : CountUpdates) {r : TrieNode V H} {rd : RootData} (rootData : r.rootData = some rd) :
    ∀ xs : List (TrieNode V H),
      applyCounts cu (xs ++ [r]) = some (xs ++ [{ r with rootData := some (cu.updateRootData rd) }])
  | [] => by simp [applyCounts, rootData]
  | [x] => by simp [applyCounts, rootData]
  | x :: y :: xs => by
    have ih := applyCounts_append cu rootData (y :: xs)
    simp only [List.cons_append] at ih ⊢
    simp only [applyCounts, ih, Option.map_some]

end Loop

section Spec

variable [Inhabited H]

theorem updateKeys_single (store : NodeStore V H) (top : TrieNode V H) (cu : CountUpdates) {rd : RootData}
    (rootData : top.rootData = some rd) :
    updateKeys store [top] cu =
      some (if cu.isEmpty then store else putNode store { top with rootData := some (cu.updateRootData rd) }) := by
  by_cases empty : cu.isEmpty
  · simp [updateKeys, empty, updateKeysLoop]
  · simp [updateKeys, empty, applyCounts, rootData]

/-- `update_keys` on a stack above a root path: it writes the nodes of the path
    rewritten, the root with the counter updates, and nothing else. -/
theorem updateKeys_path (store : NodeStore V H) (top : TrieNode V H) (xs : List (TrieNode V H))
    (r : TrieNode V H) (cu : CountUpdates) {rd : RootData} (rootData : r.rootData = some rd)
    (links : Links top.key (xs ++ [r])) (roots : RootLast (xs ++ [r])) :
    ∃ s', updateKeys store (top :: (xs ++ [r])) cu = some s' ∧
      (∀ k, (∀ q ∈ xs ++ [r], q.key ≠ k) → s' k = store k) ∧
      Written s' top.key (xs ++ [r]) ∧
      ∃ r', s' r.key = some r' ∧ r'.rootData = some (if cu.isEmpty then rd else cu.updateRootData rd) := by
  by_cases empty : cu.isEmpty
  · obtain ⟨s', loop, frame, written, exact⟩ := updateKeysLoop_spec store top (xs ++ [r]) links roots
    have nonempty : (xs ++ [r]).isEmpty = false := by simp
    refine ⟨s', ?_, frame, written, ?_⟩
    · simp [updateKeys, empty, loop]
    · obtain ⟨i, c, stored⟩ := exact r (by simp)
      exact ⟨_, stored, by simp [empty, rootData]⟩
  · let r' : TrieNode V H := { r with rootData := some (cu.updateRootData rd) }
    obtain ⟨s', loop, frame, written, exact⟩ := updateKeysLoop_spec store top (xs ++ [r'])
      (links_congr_last (show r'.key = r.key from rfl) links)
      (rootLast_congr_last (show r'.isRoot = r.isRoot by simp [r', TrieNode.isRoot, rootData]) roots)
    have counted : applyCounts cu (top :: (xs ++ [r])) = some (top :: (xs ++ [r'])) := by
      simpa using applyCounts_append cu rootData (top :: xs)
    have sameKeys : ∀ k, (∀ q ∈ xs ++ [r], q.key ≠ k) → ∀ q ∈ xs ++ [r'], q.key ≠ k := by
      intro k outside q mem
      rcases List.mem_append.mp mem with old | last
      · exact outside q (List.mem_append_left _ old)
      · rw [List.mem_singleton.mp last]
        exact outside r (by simp)
    refine ⟨s', ?_, fun k outside => frame k (sameKeys k outside),
      written_congr_last (show r'.key = r.key from rfl) rfl rfl (by simp [r', rootData]) written, ?_⟩
    · simp [updateKeys, empty, counted, loop]
    · obtain ⟨i, c, stored⟩ := exact r' (by simp)
      exact ⟨_, stored, by simp [r', empty]⟩

end Spec

section Rewrites

variable [Inhabited H] {q q' : TrieNode V H} {i : Fin 16} {c : KeyNibbles}

theorem Rewritten.targetAt (re : Rewritten q q' i c) (below : q.key <+: c) (j : Fin 16) :
    q'.targetAt j = if j = i then some c else q.targetAt j := by
  rw [← marked_targetAt below j]
  simp [TrieNode.targetAt, re.children, re.key]

theorem Rewritten.sameShape (re : Rewritten q q' i c) (target : q.targetAt i = some c) : SameShape q q' := by
  have below : q.key <+: c := by
    simp only [TrieNode.targetAt, Option.map_eq_some_iff] at target
    obtain ⟨child, _, rfl⟩ := target
    exact List.prefix_append _ _
  refine ⟨re.key, re.rootSome, fun j => ?_⟩
  rw [re.targetAt below]
  split
  · rename_i same
    rw [same, target]
  · rfl

theorem Rewritten.numChildren_eq (re : Rewritten q q' i c) (occupied : q.children i ≠ none) :
    q'.numChildren = q.numChildren := by
  have same : q'.numChildren = (marked q i c).numChildren := by
    simp only [TrieNode.numChildren, re.children]
  have moved := TrieNode.numChildren_setChild (n := q) (i := i) (some ⟨c.drop q.key.length, default⟩)
  have full : (q.children i).isSome = true := Option.isSome_iff_ne_none.mpr occupied
  simp only [full, if_true, Option.isSome_some] at moved
  unfold marked at same
  omega

theorem Rewritten.kind_eq (re : Rewritten q q' i c) (occupied : q.children i ≠ none) : q'.kind = q.kind :=
  TrieNode.kind_eq_of (by simp [TrieNode.isRoot, re.rootSome]) (re.numChildren_eq occupied) (by rw [re.value])

theorem Rewritten.children_of_hasHash [DecidableEq H] (re : Rewritten q q' i c) {j : Fin 16}
    {child : TrieNodeChild H} (entry : q'.children j = some child) (hashed : child.hasHash = true) :
    q.children j = some child := by
  rw [re.children, marked_children] at entry
  split at entry
  · cases entry
    simp [TrieNodeChild.hasHash] at hashed
  · exact entry

end Rewrites

section FromRootPath

variable {s : NodeStore V H} {top : TrieNode V H} {path : List (TrieNode V H)}

theorem RootPath.links (inv : TrieInvariant s) (chain : RootPath s top path) : Links top.key path := by
  induction chain with
  | root _ => trivial
  | child i chain target _ ih =>
    exact ⟨⟨i, ((inv.nodes _ _ (chain.stored inv)).sound i _ target).2.1⟩, ih⟩

theorem RootPath.rootLast (inv : TrieInvariant s) (chain : RootPath s top path) : RootLast path := by
  induction chain with
  | root _ => trivial
  | child i chain target _ ih =>
    refine ⟨?_, ih⟩
    cases chain with
    | root stored =>
      obtain ⟨r, root, _, data⟩ := inv.root
      rw [stored] at root
      cases root
      simp [TrieNode.isRoot, data]
    | child j older _ stored =>
      have nonempty := RootPath.key_ne_nil inv (.child j older (by assumption) stored)
      have noData := ((inv.nodes _ _ stored).nonroot nonempty).1
      simp [TrieNode.isRoot, noData]

theorem RootPath.bottom (inv : TrieInvariant s) (chain : RootPath s top path) :
    path = [] ∨ ∃ xs r, path = xs ++ [r] ∧ s [] = some r ∧ r.key = [] := by
  induction chain with
  | root _ => exact .inl rfl
  | child i chain _ _ ih =>
    rcases ih with rfl | ⟨xs, r, rfl, root, key⟩
    · cases chain with
      | root stored => exact .inr ⟨[], _, rfl, stored, inv.keyed stored⟩
    · exact .inr ⟨_ :: xs, r, rfl, root, key⟩

variable [Inhabited H] {s' : NodeStore V H}

/-- Along a root path, `Written` rewrites each node at the entry that names the node
    above it. -/
theorem Written.of_rootPath (inv : TrieInvariant s) (chain : RootPath s top path)
    (written : Written s' top.key path) :
    ∀ q ∈ path, ∃ i c q', q.targetAt i = some c ∧ s' q.key = some q' ∧ Rewritten q q' i c := by
  induction chain with
  | root _ => simp
  | child i chain target _ ih =>
    obtain ⟨⟨i', p', ext', stored', re⟩, rest⟩ := written
    have ext := ((inv.nodes _ _ (chain.stored inv)).sound i _ target).2.1
    obtain rfl := concat_prefix_inj ext ext'
    intro q mem
    rcases List.mem_cons.mp mem with rfl | older
    · exact ⟨i, _, p', target, stored', re⟩
    · exact ih rest q older

end FromRootPath

theorem occupied_of_targetAt {q : TrieNode V H} {i : Fin 16} {c : KeyNibbles} (target : q.targetAt i = some c) :
    q.children i ≠ none := by
  intro empty
  simp [TrieNode.targetAt, empty] at target

/-- A table that agrees with `store` off a set of keys, and holds there nodes of the
    same value and kind, has the same values, kinds and stored keys. -/
theorem similar_of_frame {store s' : NodeStore V H} {Q : KeyNibbles → Prop}
    (frame : ∀ k, ¬ Q k → s' k = store k)
    (each : ∀ k, Q k → ∃ n n', store k = some n ∧ s' k = some n' ∧ n'.value = n.value ∧ n'.kind = n.kind) :
    (∀ k, (s' k).bind (·.value) = (store k).bind (·.value)) ∧
      (∀ k, (s' k).bind TrieNode.kind = (store k).bind TrieNode.kind) ∧
      (∀ k, s' k = none ↔ store k = none) := by
  refine ⟨fun k => ?_, fun k => ?_, fun k => ?_⟩ <;> by_cases on : Q k
  all_goals first
    | rw [frame k on]
    | obtain ⟨n, n', old, new, value, kind⟩ := each k on
      simp [old, new, value, kind]

section Root

variable {s : NodeStore V H} {top : TrieNode V H} {path : List (TrieNode V H)}

theorem RootPath.root_mem (inv : TrieInvariant s) (chain : RootPath s top path) (nonempty : path ≠ []) :
    ∃ r ∈ path, r.key = [] := by
  rcases chain.bottom inv with empty | ⟨xs, r, rfl, _, rootKey⟩
  · exact absurd empty nonempty
  · exact ⟨r, by simp, rootKey⟩

end Root

section After

variable [Inhabited H]

/-- What `update_keys` does to `store`, a table written over `s` that holds the new
    top `top'`, along a root path `path` of `s` whose old top is `top`. -/
structure PathUpdate (s store s' : NodeStore V H) (top top' : TrieNode V H) (path : List (TrieNode V H))
    (cu : CountUpdates) : Prop where
  frame : ∀ k, k ≠ [] → (∀ q ∈ path, q.key ≠ k) → s' k = store k
  values : ∀ k, (s' k).bind (·.value) = (store k).bind (·.value)
  kinds : ∀ k, (s' k).bind TrieNode.kind = (store k).bind TrieNode.kind
  status : ∀ k, s' k = none ↔ store k = none
  placed : ∃ t, s' top'.key = some t ∧ SameShape top' t ∧ t.value = top'.value
  first : ∀ p rest, path = p :: rest → ∃ i p', p.targetAt i = some top.key ∧ p.key ++ [i] <+: top'.key ∧
    s' p.key = some p' ∧ Rewritten p p' i top'.key
  ancestors : ∀ p rest, path = p :: rest → ∀ q ∈ rest,
    ∃ q', s' q.key = some q' ∧ SameShape q q' ∧ q'.value = q.value
  root : ∃ r rd r', store [] = some r ∧ r.rootData = some rd ∧ s' [] = some r' ∧ r'.value = r.value ∧
    r'.rootData = some (if cu.isEmpty then rd else cu.updateRootData rd)

variable {s : NodeStore V H} {top : TrieNode V H} {path : List (TrieNode V H)}

theorem updateKeys_root (store : NodeStore V H) (top' : TrieNode V H) (cu : CountUpdates) {rd : RootData}
    (onTop : store top'.key = some top') (rootKey : top'.key = []) (rootData : top'.rootData = some rd) :
    ∃ s', updateKeys store [top'] cu = some s' ∧ PathUpdate s store s' top top' [] cu := by
  rw [updateKeys_single store top' cu rootData]
  let r' : TrieNode V H := { top' with rootData := some (cu.updateRootData rd) }
  let t := if cu.isEmpty then top' else r'
  have written : (if cu.isEmpty then store else putNode store r') = putNode store t := by
    by_cases empty : cu.isEmpty
    · simp only [empty, if_true, t]
      funext k
      rw [putNode_apply]
      split
      · rename_i here
        rw [here, onTop]
      · rfl
    · simp [empty, t]
  rw [written]
  have tKey : t.key = [] := by by_cases empty : cu.isEmpty <;> simp [t, r', empty, rootKey]
  have shape : SameShape top' t := by
    by_cases empty : cu.isEmpty
    · simp only [t, empty, if_true]
      exact .refl _
    · simp only [t, empty]
      exact ⟨rfl, by simp [r', rootData], fun _ => rfl⟩
  have tValue : t.value = top'.value := by by_cases empty : cu.isEmpty <;> simp [t, r', empty]
  have kind : t.kind = top'.kind := shape.kind_eq (by rw [tValue])
  have frame : ∀ k, k ≠ [] → putNode store t k = store k := by
    intro k nonempty
    simp [putNode_apply, tKey, nonempty]
  obtain ⟨values, kinds, status⟩ := similar_of_frame (Q := (· = [])) (fun k => frame k)
    (fun k here => ⟨top', t, by rw [here, ← rootKey]; exact onTop, by simp [putNode_apply, tKey, here], tValue, kind⟩)
  refine ⟨_, rfl, ⟨fun k nonempty _ => frame k nonempty, values, kinds, status, ?_, by simp, by simp, ?_⟩⟩
  · exact ⟨t, by simp [putNode_apply, tKey, rootKey], shape, tValue⟩
  · refine ⟨top', rd, t, rootKey ▸ onTop, rootData, by simp [putNode_apply, tKey], tValue, ?_⟩
    by_cases empty : cu.isEmpty <;> simp [t, r', empty, rootData]

theorem updateKeys_after (inv : TrieInvariant s) (chain : RootPath s top path) (nonempty : path ≠ [])
    (store : NodeStore V H) (top' : TrieNode V H) (cu : CountUpdates)
    (onPath : ∀ q ∈ path, store q.key = some q) (onTop : store top'.key = some top')
    (toward : ∀ p rest, path = p :: rest → ∃ i, p.targetAt i = some top.key ∧ p.key ++ [i] <+: top'.key) :
    ∃ s', updateKeys store (top' :: path) cu = some s' ∧ PathUpdate s store s' top top' path cu := by
  obtain ⟨p, rest, rfl⟩ := List.exists_cons_of_ne_nil nonempty
  obtain ⟨i, target, ext'⟩ := toward p rest rfl
  have chainP : RootPath s p rest := by cases chain with | child _ chainP _ _ => exact chainP
  have links : Links top'.key (p :: rest) := ⟨⟨i, ext'⟩, chainP.links inv⟩
  rcases chain.bottom inv with empty | ⟨xs, r, split, rootStored, rootKey⟩
  · exact absurd empty (by simp)
  obtain ⟨r₀, root₀, _, data⟩ := inv.root
  rw [rootStored] at root₀
  cases root₀
  have linksR := links
  rw [split] at linksR
  obtain ⟨s', run, frame, written, r', rootStored', rootData'⟩ :=
    updateKeys_path store top' xs r cu data linksR (split ▸ chain.rootLast inv)
  rw [← split] at run frame written
  obtain ⟨⟨i', p', ext, stored', re⟩, writtenRest⟩ := written
  obtain rfl := concat_prefix_inj ext' ext
  have ancestors := Written.of_rootPath inv chainP writtenRest
  -- every node of the path keeps its value and kind; the ancestors keep their shape
  have shapes : ∀ q ∈ rest, ∃ q', s' q.key = some q' ∧ SameShape q q' ∧ q'.value = q.value := by
    intro q older
    obtain ⟨j, c, q', targetQ, storedQ, reQ⟩ := ancestors q older
    exact ⟨q', storedQ, reQ.sameShape targetQ, reQ.value⟩
  have each : ∀ q ∈ p :: rest, ∃ q', s' q.key = some q' ∧ q'.value = q.value ∧ q'.kind = q.kind := by
    intro q mem
    rcases List.mem_cons.mp mem with rfl | older
    · exact ⟨p', stored', re.value, re.kind_eq (occupied_of_targetAt target)⟩
    · obtain ⟨q', storedQ, shape, value⟩ := shapes q older
      exact ⟨q', storedQ, value, shape.kind_eq (by rw [value])⟩
  obtain ⟨values, kinds, status⟩ := similar_of_frame (Q := fun k => ∃ q ∈ p :: rest, q.key = k)
    (fun k off => frame k fun q mem same => off ⟨q, mem, same⟩)
    (by
      rintro k ⟨q, mem, rfl⟩
      obtain ⟨q', stored, value, kind⟩ := each q mem
      exact ⟨q, q', onPath q mem, stored, value, kind⟩)
  have topOff : ∀ q ∈ p :: rest, q.key ≠ top'.key := by
    intro q mem same
    have := links.length_lt q mem
    rw [same] at this
    exact Nat.lt_irrefl _ this
  refine ⟨s', run, ⟨fun k _ off => frame k off, values, kinds, status, ?_, ?_, ?_, ?_⟩⟩
  · exact ⟨top', by rw [frame _ topOff, onTop], .refl _, rfl⟩
  · rintro _ _ ⟨⟩
    exact ⟨i, p', target, ext', stored', re⟩
  · rintro _ _ ⟨⟩
    exact shapes
  · have rootMem : r ∈ p :: rest := by rw [split]; simp
    obtain ⟨q', stored, value, _⟩ := each r rootMem
    rw [rootKey] at stored rootStored'
    obtain rfl : q' = r' := Option.some.inj (stored.symm.trans rootStored')
    exact ⟨r, _, q', rootKey ▸ onPath r rootMem, data, stored, value, rootData'⟩

variable {store s' : NodeStore V H} {top' : TrieNode V H} {cu : CountUpdates}

theorem PathUpdate.path_shape (upd : PathUpdate s store s' top top' path cu) (same : top'.key = top.key) :
    ∀ q ∈ path, ∃ q', s' q.key = some q' ∧ SameShape q q' ∧ q'.value = q.value := by
  intro q mem
  cases path with
  | nil => simp at mem
  | cons p rest =>
    rcases List.mem_cons.mp mem with rfl | older
    · obtain ⟨i, p', target, _, stored, re⟩ := upd.first _ rest rfl
      rw [← same] at target
      exact ⟨p', stored, re.sameShape target, re.value⟩
    · exact upd.ancestors p rest rfl q older

/-- Every node an update leaves out of `moved` keeps its shape: the nodes of the path
    are rewritten, and off the path the table is `store`, which agrees with `s` there.
    The first node of the path is moved when the new top has another key, and the
    root when it is the top. -/
theorem PathUpdate.kept (upd : PathUpdate s store s' top top' path cu) (inv : TrieInvariant s)
    (chain : RootPath s top path) (moved : List KeyNibbles)
    (storeFrame : ∀ k, k ∉ moved → (∀ q ∈ path, q.key ≠ k) → store k = s k)
    (firstMoved : top'.key = top.key ∨ ∀ p rest, path = p :: rest → p.key ∈ moved)
    (rootMoved : path = [] → [] ∈ moved) :
    ∀ k n', s' k = some n' → k ∉ moved →
      ∃ n, s k = some n ∧ SameShape n n' ∧ (k ≠ [] → n'.value.isSome ∨ 2 ≤ n.numChildren) := by
  intro k n' stored' other
  by_cases onPath : ∃ q ∈ path, q.key = k
  · obtain ⟨q, mem, rfl⟩ := onPath
    refine inv.kept_of_shape (chain.path_stored inv q mem) ?_ stored'
    cases path with
    | nil => simp at mem
    | cons p rest =>
      rcases List.mem_cons.mp mem with rfl | older
      · rcases firstMoved with same | firstIn
        · exact upd.path_shape same q mem
        · exact absurd (firstIn q rest rfl) other
      · exact upd.ancestors p rest rfl q older
  have off : ∀ q ∈ path, q.key ≠ k := fun q mem same => onPath ⟨q, mem, same⟩
  have root : k ≠ [] := by
    rintro rfl
    cases path with
    | nil => exact other (rootMoved rfl)
    | cons p rest =>
      obtain ⟨r, mem, rootKey⟩ := chain.root_mem inv (List.cons_ne_nil p rest)
      exact off r mem rootKey
  rw [upd.frame k root off, storeFrame k other off] at stored'
  exact inv.unchanged stored'

/-- The first node of the path, whose entry now names the new top, is right when the
    new top is the least stored key below that entry. -/
theorem PathUpdate.first_nodeOk {p : TrieNode V H} {rest : List (TrieNode V H)}
    (upd : PathUpdate s store s' top top' (p :: rest) cu) (inv : TrieInvariant s)
    (chain : RootPath s top (p :: rest)) (changed : List KeyNibbles)
    (status : ∀ k, k ∉ changed → (s' k = none ↔ s k = none)) {i : Fin 16} (ext : p.key ++ [i] <+: top'.key)
    (inside : ∀ x ∈ changed, p.key ++ [i] <+: x) (placed : s' top'.key ≠ none)
    (least : ∀ k, s' k ≠ none → p.key ++ [i] <+: k → top'.key <+: k) {n' : TrieNode V H}
    (stored : s' p.key = some n') : NodeOk s' p.key n' := by
  obtain ⟨i', p', target, ext', storedP, re⟩ := upd.first p rest rfl
  obtain rfl := concat_prefix_inj ext ext'
  rw [stored] at storedP
  cases storedP
  have old := chain.path_stored inv p List.mem_cons_self
  have ok := inv.nodes _ _ old
  have below := prefix_of_concat ext
  refine ok.setEntry changed status re.key re.rootSome (fun j other => ?_) inside ?_ ?_
  · rw [re.targetAt below j, if_neg other]
  · exact .of_least (by rw [re.targetAt below i, if_pos rfl]) ⟨placed, ext, least⟩
  · intro nonempty
    rw [re.value, re.numChildren_eq (occupied_of_targetAt target)]
    exact (ok.nonroot nonempty).2

end After

end MerkleRadixTrie

end Albatross
