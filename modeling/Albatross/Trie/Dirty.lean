import Albatross.Trie.Hashes
import Albatross.Trie.Runs

/- The other half of the hash bookkeeping of `put` and `remove`
   (primitives/trie/src/trie.rs): every entry a write leaves with a hash holds the hash
   of the node it names. `update_keys` marks dirty each entry on the way from the root
   to the written node; off that way an entry with a hash names a node the write left
   as it was, or a new leaf whose hash `put_raw` computes. With `update_hashes`
   (Trie/Hashes.lean) this gives the root hash of every trie built by puts and removes. -/
namespace Albatross

namespace MerkleRadixTrie

variable {V H : Type} [DecidableEq H] [Inhabited H]

/-- Every entry with a hash holds the hash of the node it names, except the entries
    naming `x` or a key above it, which `update_keys` is about to mark dirty. -/
def CleanOff (hasher : TrieHasher V H) (s : NodeStore V H) (x : KeyNibbles) : Prop :=
  ∀ p n i c, s p = some n → n.children i = some c → c.hasHash = true → ¬ c.key p <+: x →
    ∃ m, s (c.key p) = some m ∧ m.hash hasher = some c.hash

section Path

omit [DecidableEq H] [Inhabited H]

variable {s : NodeStore V H} {top : TrieNode V H} {path : List (TrieNode V H)}

theorem RootPath.covered (inv : TrieInvariant s) (chain : RootPath s top path) :
    ∀ p, s p ≠ none → p <+: top.key → p ≠ top.key → ∃ q ∈ path, q.key = p := by
  induction chain with
  | root stored =>
    intro p _ above ne
    rw [inv.keyed stored] at above ne
    exact absurd (List.prefix_nil.mp above) ne
  | @child P n rest i chainP target storedN ih =>
    intro p stored above ne
    have least := (inv.nodes _ _ (chainP.stored inv)).sound i _ target
    rcases List.prefix_or_prefix_of_prefix above (prefix_of_concat least.2.1) with pP | Pp
    · by_cases atP : p = P.key
      · exact ⟨P, List.mem_cons_self, atP.symm⟩
      · obtain ⟨q, mem, key⟩ := ih p stored pP atP
        exact ⟨q, List.mem_cons_of_mem P mem, key⟩
    · -- a stored key strictly between `P` and `n` would lie below the entry toward `n`
      by_cases atP : P.key = p
      · exact ⟨P, List.mem_cons_self, atP⟩
      obtain ⟨j, extJ⟩ := exists_concat_of_ne Pp atP
      obtain rfl := concat_prefix_inj (extJ.trans above) least.2.1
      have below := least.2.2 p stored extJ
      exact absurd (below.eq_of_length (Nat.le_antisymm below.length_le above.length_le)).symm ne

theorem RootPath.key_ne_of_le (inv : TrieInvariant s) (chain : RootPath s top path) {q : TrieNode V H}
    (mem : q ∈ path) {k : KeyNibbles} (long : top.key.length ≤ k.length) : q.key ≠ k := fun same => by
  have := chain.length_lt inv q mem
  rw [same] at this
  omega

theorem TrieInvariant.parent_eq (inv : TrieInvariant s) {P n : TrieNode V H} {k t : KeyNibbles} {i j : Fin 16}
    {c : TrieNodeChild H} (storedP : s P.key = some P) (targetP : P.targetAt i = some t) (storedK : s k = some n)
    (entry : n.children j = some c) (named : c.key k = t) : k = P.key :=
  parent_unique (inv.nodes _ _ storedK) (inv.nodes _ _ storedP) (by simp [storedK]) (by simp [storedP])
    (show n.targetAt j = some t by simp [TrieNode.targetAt, entry, inv.keyed storedK, named]) targetP

theorem Links.above : ∀ {x : KeyNibbles} {ps : List (TrieNode V H)}, Links x ps → ∀ q ∈ ps, q.key <+: x
  | _, [], _ => by simp
  | _, _ :: _, ⟨⟨_, ext⟩, links⟩ => by
    intro q mem
    rcases List.mem_cons.mp mem with rfl | older
    · exact prefix_of_concat ext
    · exact (Links.above links q older).trans (prefix_of_concat ext)

end Path

section Written

omit [DecidableEq H]

variable {s' : NodeStore V H}

theorem Written.mem : ∀ {x : KeyNibbles} {ps : List (TrieNode V H)}, Written s' x ps →
    ∀ q ∈ ps, ∃ i c q', q.key ++ [i] <+: c ∧ c <+: x ∧ s' q.key = some q' ∧ Rewritten q q' i c
  | _, [], _ => by simp
  | x, _ :: _, ⟨⟨i, p', ext, stored, re⟩, written⟩ => by
    intro q mem
    rcases List.mem_cons.mp mem with rfl | older
    · exact ⟨i, x, p', ext, List.prefix_refl x, stored, re⟩
    · obtain ⟨j, c, q', extQ, cp, storedQ, reQ⟩ := Written.mem written q older
      exact ⟨j, c, q', extQ, cp.trans (prefix_of_concat ext), storedQ, reQ⟩

end Written

section UpdateKeys

variable {hasher : TrieHasher V H} {s store s' : NodeStore V H} {top top' : TrieNode V H}
  {path : List (TrieNode V H)} {cu : CountUpdates}

/-- What `update_keys` writes, as far as the hashes go: off the way from the root to the
    written node the table is as before, and every entry with a hash on that way is an
    entry of the old node that does not lead toward the written node. -/
theorem updateKeys_entries (run : updateKeys store (top' :: path) cu = some s') (links : Links top'.key path)
    (roots : RootLast path)
    (bottom : (path = [] ∧ store [] = some top' ∧ top'.key = [] ∧ top'.rootData ≠ none) ∨
      ∃ xs r rd, path = xs ++ [r] ∧ r.rootData = some rd)
    (onPath : ∀ q ∈ path, store q.key = some q)
    (covered : ∀ p, store p ≠ none → p <+: top'.key → p ≠ top'.key → ∃ q ∈ path, q.key = p) :
    (∀ k, ¬ k <+: top'.key → s' k = store k) ∧
      ∀ k n' j c, k <+: top'.key → s' k = some n' → n'.children j = some c → c.hasHash = true →
        ∃ n, store k = some n ∧ n.children j = some c ∧ ¬ k ++ [j] <+: top'.key := by
  rcases bottom with ⟨rfl, onRoot, rootKey, data⟩ | ⟨xs, r, rd, rfl, data⟩
  · -- the written node is the root: at most its root data changes
    obtain ⟨rd, data⟩ := Option.ne_none_iff_exists'.mp data
    rw [updateKeys_single store top' cu data, Option.some.injEq] at run
    subst run
    refine ⟨fun k off => ?_, fun k n' j c above stored entry _ => ?_⟩
    · have nonempty : k ≠ [] := fun same => off (by rw [same, rootKey])
      by_cases empty : cu.isEmpty <;> simp [empty, putNode_apply, rootKey, nonempty]
    · rw [rootKey, List.prefix_nil] at above
      subst above
      have top : n'.children = top'.children := by
        by_cases empty : cu.isEmpty <;> simp [empty, putNode_apply, rootKey, onRoot] at stored <;> rw [← stored]
      refine ⟨top', onRoot, top ▸ entry, fun toward => ?_⟩
      simpa [rootKey] using toward.length_le
  · obtain ⟨s'', run', frame, written, -⟩ := updateKeys_path store top' xs r cu data links roots
    rw [run, Option.some.injEq] at run'
    subst run'
    have aboveTop := Links.above links
    refine ⟨fun k off => frame k fun q mem same => off (same ▸ aboveTop q mem), ?_⟩
    intro k n' j c above stored entry hashed
    by_cases onWay : ∃ q ∈ xs ++ [r], q.key = k
    · -- a node on the way keeps its entries but the one it marks dirty
      obtain ⟨q, mem, rfl⟩ := onWay
      obtain ⟨i, c₀, q', extI, c₀x, storedQ, re⟩ := Written.mem written q mem
      rw [storedQ, Option.some.injEq] at stored
      subst stored
      have ne : j ≠ i := by
        rintro rfl
        rw [re.children, marked_children, if_pos rfl, Option.some.injEq] at entry
        subst entry
        simp [TrieNodeChild.hasHash] at hashed
      exact ⟨q, onPath q mem, re.children_of_hasHash entry hashed,
        fun toward => ne (concat_prefix_inj toward (extI.trans c₀x))⟩
    · rw [frame k fun q mem key => onWay ⟨q, mem, key⟩] at stored
      by_cases atTop : k = top'.key
      · refine ⟨n', stored, entry, fun toward => ?_⟩
        have longer := toward.length_le
        rw [atTop, List.length_append] at longer
        simp at longer
      · obtain ⟨q, mem, key⟩ := covered k (by simp [stored]) above atTop
        exact absurd ⟨q, mem, key⟩ onWay

/-- After `update_keys` every entry with a hash holds the hash of the node it names,
    given that this held before of every entry off the way to the written node: the
    entries on that way are the ones it marks dirty. -/
theorem updateKeys_clean (inv' : TrieInvariant s') (run : updateKeys store (top' :: path) cu = some s')
    (links : Links top'.key path) (roots : RootLast path)
    (bottom : (path = [] ∧ store [] = some top' ∧ top'.key = [] ∧ top'.rootData ≠ none) ∨
      ∃ xs r rd, path = xs ++ [r] ∧ r.rootData = some rd)
    (onPath : ∀ q ∈ path, store q.key = some q)
    (covered : ∀ p, store p ≠ none → p <+: top'.key → p ≠ top'.key → ∃ q ∈ path, q.key = p)
    (cleanOff : CleanOff hasher store top'.key) : CleanBelow hasher s' [] := by
  obtain ⟨frame, onWay⟩ := updateKeys_entries run links roots bottom onPath covered
  intro p n' j c _ stored entry hashed
  have extJ := (inv'.entry_least stored entry).2.1
  obtain ⟨n, old, oldEntry, off⟩ : ∃ n, store p = some n ∧ n.children j = some c ∧ ¬ c.key p <+: top'.key := by
    by_cases above : p <+: top'.key
    · obtain ⟨n, old, oldEntry, away⟩ := onWay p n' j c above stored entry hashed
      exact ⟨n, old, oldEntry, fun toward => away (extJ.trans toward)⟩
    · rw [frame p above] at stored
      exact ⟨n', stored, entry, fun toward => above ((prefix_childKey c p).trans toward)⟩
  obtain ⟨m, child, hash⟩ := cleanOff p n j c old oldEntry hashed off
  exact ⟨m, by rw [frame _ off, child], hash⟩

/-- The same along a root path of the old table, as the writes of `put_raw` and
    `remove_raw` call it. -/
theorem updateKeys_clean_of_chain (inv : TrieInvariant s) (inv' : TrieInvariant s') (chain : RootPath s top path)
    (run : updateKeys store (top' :: path) cu = some s')
    (toward : ∀ p rest, path = p :: rest → ∃ i, p.key ++ [i] <+: top'.key)
    (onPath : ∀ q ∈ path, store q.key = some q) (onTop : store top'.key = some top')
    (rootTop : path = [] → top'.key = [] ∧ top'.rootData ≠ none)
    (covered : ∀ p, store p ≠ none → p <+: top'.key → p ≠ top'.key → ∃ q ∈ path, q.key = p)
    (cleanOff : CleanOff hasher store top'.key) : CleanBelow hasher s' [] := by
  have links : Links top'.key path := by
    cases chain with
    | root _ => trivial
    | child i chainP _ _ => exact ⟨toward _ _ rfl, chainP.links inv⟩
  refine updateKeys_clean inv' run links (chain.rootLast inv) ?_ onPath covered cleanOff
  rcases chain.bottom inv with rfl | ⟨xs, r, split, rootStored, _⟩
  · obtain ⟨key, data⟩ := rootTop rfl
    exact .inl ⟨rfl, by rw [← key]; exact onTop, key, data⟩
  · obtain ⟨r₀, root, _, data⟩ := inv.root
    rw [rootStored, Option.some.injEq] at root
    subst root
    exact .inr ⟨xs, r, _, split, data⟩

/-- Before `update_keys`: a table a write builds from `s` by changing the keys `M` has
    its entries with a hash right off the way to `x`, when the nodes it writes have
    theirs right and no node it keeps names a changed key off that way with a hash. -/
theorem CleanOff.of_frame (clean : CleanBelow hasher s []) {x : KeyNibbles} {M : List KeyNibbles}
    (frame : ∀ k, k ∉ M → store k = s k)
    (written : ∀ p ∈ M, ∀ n i c, store p = some n → n.children i = some c → c.hasHash = true →
      ¬ c.key p <+: x → ∃ m, store (c.key p) = some m ∧ m.hash hasher = some c.hash)
    (named : ∀ p n i c, p ∉ M → s p = some n → n.children i = some c → c.hasHash = true → c.key p ∈ M →
      c.key p <+: x) :
    CleanOff hasher store x := by
  intro p n i c stored entry hashed off
  by_cases changed : p ∈ M
  · exact written p changed n i c stored entry hashed off
  rw [frame p changed] at stored
  have unchanged : c.key p ∉ M := fun mem => off (named p n i c changed stored entry hashed mem)
  obtain ⟨m, child, hash⟩ := clean p n i c List.nil_prefix stored entry hashed
  exact ⟨m, by rw [frame _ unchanged, child], hash⟩

end UpdateKeys

section Put

variable {hasher : TrieHasher V H} {s s' : NodeStore V H} {key : KeyNibbles} {cur : TrieNode V H}
  {path : List (TrieNode V H)} {cu : CountUpdates}

/-- The walk found the key: the node changes its value only, and its entries name nodes
    the write leaves as they were. `put_raw` and `remove_raw` share this case. -/
theorem found_clean (inv : TrieInvariant s) (inv' : TrieInvariant s') (clean : CleanBelow hasher s [])
    (nonempty : key ≠ []) (stored : s key = some cur) (chain : RootPath s cur path) (v : Option V)
    (run : updateKeys (putNode s { cur with value := v }) ({ cur with value := v } :: path) cu = some s') :
    CleanBelow hasher s' [] := by
  have keyed : cur.key = key := inv.keyed stored
  set cur' : TrieNode V H := { cur with value := v }
  have lookup : ∀ k, putNode s cur' k = if k = key then some cur' else s k := by
    intro k
    rw [putNode_apply, show cur'.key = key from keyed]
  refine updateKeys_clean_of_chain inv inv' chain run (fun p rest same => ?_) (fun q mem => ?_)
    (by rw [lookup, if_pos keyed]) (fun empty => ?_) (fun p storedP above ne => ?_) ?_
  · obtain ⟨i, _, ext⟩ := chain.toward inv p rest same
    exact ⟨i, ext⟩
  · rw [lookup, if_neg (chain.key_ne_of_le inv mem (by rw [keyed]))]
    exact chain.path_stored inv q mem
  · subst empty
    exact absurd (keyed ▸ chain.key_eq_nil inv) nonempty
  · rw [lookup, if_neg (keyed ▸ ne)] at storedP
    exact chain.covered inv p storedP above ne
  refine CleanOff.of_frame clean (M := [key]) (fun k other => by rw [lookup, if_neg (by simpa using other)])
    (fun p mem n j c storedP entry hashed _ => ?_) (fun p n j c _ _ _ _ mem => ?_)
  · rw [List.mem_singleton] at mem
    rw [mem] at storedP ⊢
    rw [lookup, if_pos rfl, Option.some.injEq] at storedP
    subst storedP
    have ext := (inv.entry_least stored entry).2.1
    obtain ⟨m, child, hash⟩ := clean key cur j c List.nil_prefix stored entry hashed
    exact ⟨m, by rw [lookup, if_neg (ne_of_concat ext).symm, child], hash⟩
  · rw [List.mem_singleton.mp mem, ← keyed]

/-- The walk stopped at a node with no entry toward the key: its new entry holds the
    hash of the new leaf, and its other entries name nodes the write leaves as they were. -/
theorem put_noChild_clean (inv : TrieInvariant s) (inv' : TrieInvariant s') (clean : CleanBelow hasher s [])
    (chain : RootPath s cur path) {i : Fin 16} (ext : cur.key ++ [i] <+: key) (empty : cur.children i = none)
    (value : V) {h : H} (leafHash : (TrieNode.newLeaf key value : TrieNode V H).hash hasher = some h)
    (run : updateKeys (putNode (putNode s (.newLeaf key value)) (cur.setChild i (some ⟨key.drop cur.key.length, h⟩)))
      (cur.setChild i (some ⟨key.drop cur.key.length, h⟩) :: path) cu = some s') :
    CleanBelow hasher s' [] := by
  set leaf : TrieNode V H := .newLeaf key value
  set cur' := cur.setChild i (some ⟨key.drop cur.key.length, h⟩)
  have storedCur := chain.stored inv
  have fresh : s key = none := (inv.nodes _ _ storedCur).nothing_below empty ext
  have ne : cur.key ≠ key := ne_of_concat ext
  have longer := length_lt_of_concat ext
  have lookup : ∀ k, putNode (putNode s leaf) cur' k =
      if k = cur.key then some cur' else if k = key then some leaf else s k := by
    intro k
    simp only [putNode_apply]
    rfl
  refine updateKeys_clean_of_chain inv inv' chain run (fun p rest same => ?_) (fun q mem => ?_)
    (by rw [lookup, if_pos (TrieNode.setChild_key _)]) (fun empty => ?_) (fun p storedP above other => ?_) ?_
  · obtain ⟨j, _, extP⟩ := chain.toward inv p rest same
    exact ⟨j, extP⟩
  · rw [lookup, if_neg (chain.key_ne_of_le inv mem le_rfl), if_neg (chain.key_ne_of_le inv mem longer.le)]
    exact chain.path_stored inv q mem
  · subst empty
    have rootKey := chain.key_eq_nil inv
    obtain ⟨r, root, _, data⟩ := inv.root
    rw [← rootKey, storedCur, Option.some.injEq] at root
    subst root
    exact ⟨rootKey, by simp [cur', data]⟩
  · have notKey : p ≠ key := fun same => by
      have := above.length_le
      rw [same] at this
      simp only [cur', TrieNode.setChild_key] at this
      omega
    rw [lookup, if_neg (show p ≠ cur.key from other), if_neg notKey] at storedP
    exact chain.covered inv p storedP above other
  refine CleanOff.of_frame clean (M := [cur.key, key]) (fun k other => ?_) (fun p mem n j c storedP entry hashed _ => ?_)
    (fun p n j c _ storedP entry _ mem => ?_)
  · simp only [List.mem_cons, List.not_mem_nil, or_false, not_or] at other
    rw [lookup, if_neg other.1, if_neg other.2]
  · simp only [List.mem_cons, List.not_mem_nil, or_false] at mem
    rcases mem with rfl | rfl
    · rw [lookup, if_pos rfl, Option.some.injEq] at storedP
      subst storedP
      rw [TrieNode.setChild_children] at entry
      by_cases here : j = i
      · -- the new entry names the new leaf and holds its hash
        rw [if_pos here, Option.some.injEq] at entry
        subst entry
        refine ⟨leaf, ?_, leafHash⟩
        rw [TrieNodeChild.key, TrieNode.key_append_drop (prefix_of_concat ext), lookup, if_neg ne.symm, if_pos rfl]
      · rw [if_neg here] at entry
        have extJ := (inv.entry_least storedCur entry).2.1
        have notKey : c.key cur.key ≠ key := fun same => here (concat_prefix_inj (same ▸ extJ) ext)
        obtain ⟨m, child, hash⟩ := clean cur.key cur j c List.nil_prefix storedCur entry hashed
        exact ⟨m, by rw [lookup, if_neg (ne_of_concat extJ).symm, if_neg notKey, child], hash⟩
    · rw [lookup, if_neg ne.symm, if_pos rfl, Option.some.injEq] at storedP
      subst storedP
      cases entry
  · simp only [List.mem_cons, List.not_mem_nil, or_false] at mem
    rcases mem with atCur | atKey
    · show c.key p <+: cur.key
      rw [atCur]
    · have named := (inv.entry_least storedP entry).1
      rw [atKey, fresh] at named
      exact absurd rfl named

/-- The walk left the key at an entry whose target lies below the key: the new hybrid
    node's only entry is marked dirty. -/
theorem put_hybrid_clean (inv : TrieInvariant s) (inv' : TrieInvariant s') (clean : CleanBelow hasher s [])
    {p : TrieNode V H} {rest : List (TrieNode V H)} {i a : Fin 16} (chain : RootPath s cur (p :: rest))
    (notPre : ¬ cur.key <+: key) (ext : p.key ++ [i] <+: key) (target : p.targetAt i = some cur.key)
    (extA : key ++ [a] <+: cur.key) (value : V)
    (run : updateKeys (putNode s ((TrieNode.newLeaf key value).setChild a (some ⟨cur.key.drop key.length, default⟩)))
      ((TrieNode.newLeaf key value).setChild a (some ⟨cur.key.drop key.length, default⟩) :: p :: rest) cu = some s') :
    CleanBelow hasher s' [] := by
  set node : TrieNode V H := (TrieNode.newLeaf key value).setChild a (some ⟨cur.key.drop key.length, default⟩)
  have underP := ((inv.nodes _ _ (chain.path_stored inv p List.mem_cons_self)).sound i _ target).2.2
  have fresh : s key = none := by
    by_contra stored
    exact notPre (underP key stored ext)
  have lookup : ∀ k, putNode s node k = if k = key then some node else s k := fun k => putNode_apply node
  -- every stored key differs from the new one
  have old : ∀ k, s k ≠ none → k ≠ key := fun k stored same => stored (same ▸ fresh)
  refine updateKeys_clean_of_chain inv inv' chain run (fun _ _ same => ?_) (fun q mem => ?_)
    (by rw [lookup, if_pos (show node.key = key from rfl)]) (fun empty => absurd empty (List.cons_ne_nil p rest))
    (fun k storedK above other => ?_) ?_
  · cases same
    exact ⟨i, ext⟩
  · have storedQ := chain.path_stored inv q mem
    rw [lookup, if_neg (old _ (by simp [storedQ]))]
    exact storedQ
  · rw [lookup, if_neg (show k ≠ key from other)] at storedK
    have shorter : k.length < key.length := Nat.lt_of_le_of_ne above.length_le
      fun same => other (above.eq_of_length same)
    exact chain.covered inv k storedK (above.trans (prefix_of_concat extA))
      fun same => by have := length_lt_of_concat extA; rw [← same] at this; omega
  refine CleanOff.of_frame clean (M := [key]) (fun k other => by rw [lookup, if_neg (by simpa using other)])
    (fun k mem n j c storedK entry hashed _ => ?_) (fun k n j c _ storedK entry _ mem => ?_)
  · rw [List.mem_singleton.mp mem, lookup, if_pos rfl, Option.some.injEq] at storedK
    subst storedK
    rw [TrieNode.setChild_children] at entry
    split at entry
    · rw [Option.some.injEq] at entry
      subst entry
      simp [TrieNodeChild.hasHash] at hashed
    · cases entry
  · have named := (inv.entry_least storedK entry).1
    rw [List.mem_singleton.mp mem, fresh] at named
    exact absurd rfl named

variable {L : KeyNibbles}

/-- The walk left the key at an entry whose target forks from it: the new branch node's
    entry toward the old target is marked dirty and its entry toward the new leaf holds
    the leaf's hash. -/
theorem put_sibling_clean (inv : TrieInvariant s) (inv' : TrieInvariant s') (clean : CleanBelow hasher s [])
    {p : TrieNode V H} {rest : List (TrieNode V H)} {i a b : Fin 16} (chain : RootPath s cur (p :: rest))
    (notPre : ¬ cur.key <+: key) (ext : p.key ++ [i] <+: key) (target : p.targetAt i = some cur.key)
    (extL : p.key ++ [i] <+: L) (forkA : L ++ [a] <+: cur.key) (forkB : L ++ [b] <+: key)
    (value : V) {h : H} (leafHash : (TrieNode.newLeaf key value : TrieNode V H).hash hasher = some h)
    (run : updateKeys (putNode (putNode s (.newLeaf key value))
          (((TrieNode.newEmpty L).setChild a (some ⟨cur.key.drop L.length, default⟩)).setChild b
            (some ⟨key.drop L.length, h⟩)))
        ((((TrieNode.newEmpty L).setChild a (some ⟨cur.key.drop L.length, default⟩)).setChild b
            (some ⟨key.drop L.length, h⟩)) :: p :: rest) cu = some s') :
    CleanBelow hasher s' [] := by
  set leaf : TrieNode V H := .newLeaf key value
  set parent : TrieNode V H := ((TrieNode.newEmpty L).setChild a (some ⟨cur.key.drop L.length, default⟩)).setChild b
    (some ⟨key.drop L.length, h⟩)
  have underP := ((inv.nodes _ _ (chain.path_stored inv p List.mem_cons_self)).sound i _ target).2.2
  have fresh : s key = none := by
    by_contra stored
    exact notPre (underP key stored ext)
  have freshL : s L = none := by
    by_contra stored
    have := (underP L stored extL).length_le
    have := length_lt_of_concat forkA
    omega
  have shorterL := length_lt_of_concat forkB
  have ne : L ≠ key := fun same => by rw [same] at shorterL; omega
  have lookup : ∀ k, putNode (putNode s leaf) parent k =
      if k = L then some parent else if k = key then some leaf else s k := by
    intro k
    simp only [putNode_apply]
    rfl
  -- every stored key differs from the two new ones
  have old : ∀ k, s k ≠ none → k ≠ L ∧ k ≠ key := fun k stored =>
    ⟨fun same => stored (same ▸ freshL), fun same => stored (same ▸ fresh)⟩
  refine updateKeys_clean_of_chain inv inv' chain run (fun _ _ same => ?_) (fun q mem => ?_)
    (by rw [lookup, if_pos (show parent.key = L from rfl)]) (fun empty => absurd empty (List.cons_ne_nil p rest))
    (fun k storedK above other => ?_) ?_
  · cases same
    exact ⟨i, extL⟩
  · have storedQ := chain.path_stored inv q mem
    have outside := old q.key (by simp [storedQ])
    rw [lookup, if_neg outside.1, if_neg outside.2]
    exact storedQ
  · have shorter : k.length < L.length := Nat.lt_of_le_of_ne above.length_le
      fun same => other (above.eq_of_length same)
    rw [lookup, if_neg (show k ≠ L from other), if_neg (fun same => by rw [same] at shorter; omega)] at storedK
    exact chain.covered inv k storedK (above.trans (prefix_of_concat forkA))
      fun same => by have := length_lt_of_concat forkA; rw [← same] at this; omega
  refine CleanOff.of_frame clean (M := [L, key]) (fun k other => ?_) (fun k mem n j c storedK entry hashed _ => ?_)
    (fun k n j c _ storedK entry _ mem => ?_)
  · simp only [List.mem_cons, List.not_mem_nil, or_false, not_or] at other
    rw [lookup, if_neg other.1, if_neg other.2]
  · simp only [List.mem_cons, List.not_mem_nil, or_false] at mem
    rcases mem with rfl | rfl
    · rw [lookup, if_pos rfl, Option.some.injEq] at storedK
      subst storedK
      simp only [parent, TrieNode.setChild_children] at entry
      split at entry
      · -- the entry toward the new leaf holds its hash
        rw [Option.some.injEq] at entry
        subst entry
        refine ⟨leaf, ?_, leafHash⟩
        rw [TrieNodeChild.key, TrieNode.key_append_drop (prefix_of_concat forkB), lookup, if_neg ne.symm,
          if_pos rfl]
      · split at entry
        · rw [Option.some.injEq] at entry
          subst entry
          simp [TrieNodeChild.hasHash] at hashed
        · cases entry
    · rw [lookup, if_neg ne.symm, if_pos rfl, Option.some.injEq] at storedK
      subst storedK
      cases entry
  · have named := (inv.entry_least storedK entry).1
    simp only [List.mem_cons, List.not_mem_nil, or_false] at mem
    rcases mem with atL | atKey
    · rw [atL, freshL] at named
      exact absurd rfl named
    · rw [atKey, fresh] at named
      exact absurd rfl named

end Put

section Remove

variable {hasher : TrieHasher V H} {s s' : NodeStore V H} {key : KeyNibbles} {cur P : TrieNode V H}
  {rest : List (TrieNode V H)} {cu : CountUpdates}

/-- A leaf is removed and its parent stays: the parent keeps its other entries, which
    name nodes the write leaves as they were. -/
theorem remove_leaf_clean (inv : TrieInvariant s) (inv' : TrieInvariant s') (clean : CleanBelow hasher s [])
    (stored : s key = some cur) (chain : RootPath s cur (P :: rest)) {i : Fin 16} (ext : P.key ++ [i] <+: key)
    (run : updateKeys (putNode (removeNode s key) (P.setChild i none)) (P.setChild i none :: rest) cu = some s') :
    CleanBelow hasher s' [] := by
  have keyed : cur.key = key := inv.keyed stored
  set P' := P.setChild i none
  have chainP : RootPath s P rest := by cases chain with | child _ chainP _ _ => exact chainP
  have storedP := chain.path_stored inv P List.mem_cons_self
  have targetP : P.targetAt i = some key := by
    obtain ⟨i', target, ext'⟩ := chain.toward inv P rest rfl
    rw [keyed] at target ext'
    rw [concat_prefix_inj ext ext']
    exact target
  have ne : P.key ≠ key := ne_of_concat ext
  have lookup : ∀ k, putNode (removeNode s key) P' k = if k = P.key then some P' else if k = key then none else s k := by
    intro k
    simp only [putNode_apply, removeNode_apply]
    rfl
  refine updateKeys_clean_of_chain inv inv' chainP run (fun G rest' same => ?_) (fun q mem => ?_)
    (by rw [lookup, if_pos (TrieNode.setChild_key _)]) (fun empty => ?_) (fun k storedK above other => ?_) ?_
  · obtain ⟨j, _, extG⟩ := chainP.toward inv G rest' same
    exact ⟨j, extG⟩
  · rw [lookup, if_neg (chainP.key_ne_of_le inv mem le_rfl),
      if_neg (chainP.key_ne_of_le inv mem (length_lt_of_concat ext).le)]
    exact chainP.path_stored inv q mem
  · subst empty
    have rootKey := chainP.key_eq_nil inv
    obtain ⟨r, root, _, data⟩ := inv.root
    rw [← rootKey, storedP, Option.some.injEq] at root
    subst root
    exact ⟨rootKey, by simp [P', data]⟩
  · have shorterK : k.length ≤ P.key.length := above.length_le
    have longer := length_lt_of_concat ext
    rw [lookup, if_neg (show k ≠ P.key from other), if_neg (fun same => by rw [same] at shorterK; omega)] at storedK
    exact chainP.covered inv k storedK above other
  refine CleanOff.of_frame clean (M := [P.key, key]) (fun k other => ?_) (fun k mem n j c storedK entry hashed _ => ?_)
    (fun k n j c outside storedK entry _ mem => ?_)
  · simp only [List.mem_cons, List.not_mem_nil, or_false, not_or] at other
    rw [lookup, if_neg other.1, if_neg other.2]
  · simp only [List.mem_cons, List.not_mem_nil, or_false] at mem
    rcases mem with rfl | rfl
    · -- the parent's other entries name nodes below it that stay
      rw [lookup, if_pos rfl, Option.some.injEq] at storedK
      subst storedK
      rw [TrieNode.setChild_children] at entry
      split at entry
      · cases entry
      rename_i here
      have extJ := (inv.entry_least storedP entry).2.1
      have notKey : c.key P.key ≠ key := fun same => here (concat_prefix_inj (same ▸ extJ) ext)
      obtain ⟨m, child, hash⟩ := clean P.key P j c List.nil_prefix storedP entry hashed
      exact ⟨m, by rw [lookup, if_neg (ne_of_concat extJ).symm, if_neg notKey, child], hash⟩
    · rw [lookup, if_neg ne.symm, if_pos rfl] at storedK
      cases storedK
  · simp only [List.mem_cons, List.not_mem_nil, or_false] at mem
    rcases mem with atP | atKey
    · show c.key k <+: P.key
      rw [atP]
    · -- only the parent names the removed leaf
      exact absurd (by simp [inv.parent_eq storedP targetP storedK entry atKey]) outside

/-- A leaf is removed and its parent, left with one child, is merged into it: the
    grandparent's entry toward it is marked dirty. -/
theorem remove_leaf_merge_clean (inv : TrieInvariant s) (inv' : TrieInvariant s') (clean : CleanBelow hasher s [])
    (stored : s key = some cur) (chain : RootPath s cur (P :: rest)) {i : Fin 16} (ext : P.key ++ [i] <+: key)
    (noData : P.rootData = none) {j : Fin 16} {c : TrieNodeChild H} {sib : TrieNode V H}
    (entry : (P.setChild i none).children j = some c) (sibStored : s (c.key P.key) = some sib)
    (run : updateKeys (removeNode (removeNode s key) P.key) (sib :: rest) cu = some s') :
    CleanBelow hasher s' [] := by
  have keyed : cur.key = key := inv.keyed stored
  have chainP : RootPath s P rest := by cases chain with | child _ chainP _ _ => exact chainP
  have storedP := chain.path_stored inv P List.mem_cons_self
  have targetP : P.targetAt i = some key := by
    obtain ⟨i', target, ext'⟩ := chain.toward inv P rest rfl
    rw [keyed] at target ext'
    rw [concat_prefix_inj ext ext']
    exact target
  have ji : j ≠ i := by
    rintro rfl
    simp [TrieNode.setChild_children] at entry
  have entryP : P.children j = some c := by
    rw [TrieNode.setChild_children, if_neg ji] at entry
    exact entry
  have sibKey : sib.key = c.key P.key := inv.keyed sibStored
  have extJ := (inv.entry_least storedP entryP).2.1
  have ne : P.key ≠ key := ne_of_concat ext
  have sibOff : sib.key ≠ P.key ∧ sib.key ≠ key := by
    rw [sibKey]
    exact ⟨(ne_of_concat extJ).symm, fun same => ji (concat_prefix_inj (same ▸ extJ) ext)⟩
  have lookup : ∀ k, removeNode (removeNode s key) P.key k = if k = P.key then none else if k = key then none else s k := by
    intro k
    simp only [removeNode_apply]
  -- the sibling hangs from the parent on the old root path
  have chainSib : RootPath s sib (P :: rest) :=
    .child j chainP (by simp [TrieNode.targetAt, entryP, sibKey]) (by rw [sibKey]; exact sibStored)
  refine updateKeys_clean_of_chain inv inv' chainP run (fun G rest' same => ?_) (fun q mem => ?_)
    (by rw [lookup, if_neg sibOff.1, if_neg sibOff.2, sibKey]; exact sibStored) (fun empty => ?_)
    (fun k storedK above other => ?_) ?_
  · obtain ⟨k, _, extG⟩ := chainP.toward inv G rest' same
    exact ⟨k, extG.trans ((prefix_of_concat extJ).trans (sibKey ▸ List.prefix_refl _))⟩
  · rw [lookup, if_neg (chainP.key_ne_of_le inv mem le_rfl),
      if_neg (chainP.key_ne_of_le inv mem (length_lt_of_concat ext).le)]
    exact chainP.path_stored inv q mem
  · -- the parent is not the root, which has root data
    subst empty
    obtain ⟨r, root, _, data⟩ := inv.root
    rw [← chainP.key_eq_nil inv, storedP, Option.some.injEq] at root
    subst root
    simp [noData] at data
  · have removed : k ≠ P.key ∧ k ≠ key := by
      constructor <;> rintro rfl <;> simp [lookup] at storedK
    rw [lookup, if_neg removed.1, if_neg removed.2] at storedK
    obtain ⟨q, mem, rfl⟩ := chainSib.covered inv k storedK above other
    rcases List.mem_cons.mp mem with rfl | older
    · exact absurd rfl removed.1
    · exact ⟨q, older, rfl⟩
  refine CleanOff.of_frame clean (M := [P.key, key]) (fun k other => ?_) (fun k mem n j c storedK _ _ _ => ?_)
    (fun k n j' c' outside storedK entry' _ mem => ?_)
  · simp only [List.mem_cons, List.not_mem_nil, or_false, not_or] at other
    rw [lookup, if_neg other.1, if_neg other.2]
  · simp only [List.mem_cons, List.not_mem_nil, or_false] at mem
    rcases mem with rfl | rfl <;> simp [lookup] at storedK
  · simp only [List.mem_cons, List.not_mem_nil, or_false] at mem
    rcases mem with atP | atKey
    · rw [atP, sibKey]
      exact prefix_of_concat extJ
    · -- only the parent named the removed leaf
      exact absurd (by simp [inv.parent_eq storedP targetP storedK entry' atKey]) outside

/-- A hybrid node with one child loses its value and is merged into the child: the
    parent's entry toward it is marked dirty. -/
theorem remove_hybrid_clean (inv : TrieInvariant s) (inv' : TrieInvariant s') (clean : CleanBelow hasher s [])
    (stored : s key = some cur) (chain : RootPath s cur (P :: rest)) {j : Fin 16} {c : TrieNodeChild H}
    {child : TrieNode V H} (entry : cur.children j = some c) (childStored : s (c.key cur.key) = some child)
    (run : updateKeys (removeNode s key) (child :: P :: rest) cu = some s') :
    CleanBelow hasher s' [] := by
  have keyed : cur.key = key := inv.keyed stored
  have childKey : child.key = c.key cur.key := inv.keyed childStored
  have extJ := (inv.entry_least (keyed ▸ stored) entry).2.1
  have childOff : child.key ≠ key := by
    rw [childKey, ← keyed]
    exact (ne_of_concat extJ).symm
  have lookup : ∀ k, removeNode s key k = if k = key then none else s k := fun k => removeNode_apply key
  have chainChild : RootPath s child (cur :: P :: rest) :=
    .child j chain (by simp [TrieNode.targetAt, entry, childKey]) (by rw [childKey]; exact childStored)
  refine updateKeys_clean_of_chain inv inv' chain run (fun _ _ same => ?_) (fun q mem => ?_)
    (by rw [lookup, if_neg childOff, childKey]; exact childStored) (fun empty => absurd empty (List.cons_ne_nil P rest))
    (fun k storedK above other => ?_) ?_
  · cases same
    obtain ⟨i, _, extP⟩ := chain.toward inv P rest rfl
    exact ⟨i, extP.trans ((prefix_of_concat extJ).trans (childKey ▸ List.prefix_refl _))⟩
  · rw [lookup, if_neg (chain.key_ne_of_le inv mem (by rw [keyed]))]
    exact chain.path_stored inv q mem
  · have notKey : k ≠ key := fun same => by simp [lookup, same] at storedK
    rw [lookup, if_neg notKey] at storedK
    obtain ⟨q, mem, rfl⟩ := chainChild.covered inv k storedK above other
    rcases List.mem_cons.mp mem with rfl | older
    · exact absurd keyed notKey
    · exact ⟨q, older, rfl⟩
  refine CleanOff.of_frame clean (M := [key]) (fun k other => by rw [lookup, if_neg (by simpa using other)])
    (fun k mem n i c storedK _ _ _ => ?_) (fun k n i c _ _ _ _ mem => ?_)
  · rw [List.mem_singleton.mp mem] at storedK
    simp [lookup] at storedK
  · rw [List.mem_singleton.mp mem, childKey, ← keyed]
    exact prefix_of_concat extJ

end Remove

section Raw

variable {hasher : TrieHasher V H} {s s' : NodeStore V H} {key : KeyNibbles}

/-- `put_raw` keeps every entry with a hash right: the exit of the walk decides which
    case applies, as in `putRaw_spec`. -/
theorem putRaw_clean (inv : TrieInvariant s) (clean : CleanBelow hasher s []) (nonempty : key ≠ []) (value : V)
    (run : putRaw hasher s key value = some s') : CleanBelow hasher s' [] := by
  have inv' : TrieInvariant s' := by
    obtain ⟨s'', run', inv'', _⟩ := putRaw_spec hasher inv nonempty value
    rw [run, Option.some.injEq] at run'
    rw [run']
    exact inv''
  obtain ⟨r, root, _, _⟩ := inv.root
  obtain ⟨exit, path, walk, ok⟩ := descend_root inv key r root
  cases exit with
  | found cur =>
    obtain ⟨stored, chain⟩ := ok
    have noData : cur.rootData = none := ((inv.nodes key cur stored).nonroot nonempty).1
    have put : cur.putValue value = .ok ({ cur with value := some value }, cur.value) := by
      simp [TrieNode.putValue, noData]
    simp only [putRaw, inv.getNode_eq, root, walk, Option.bind_eq_bind, Option.bind_some, put,
      Except.toOption] at run
    exact found_clean inv inv' clean nonempty stored chain (some value) run
  | noChild cur =>
    obtain ⟨chain, i, ext, empty⟩ := ok
    simp only [putRaw, inv.getNode_eq, root, walk, Option.bind_eq_bind, Option.bind_some, TrieNode.hash_newLeaf,
      TrieNode.newLeaf_key, TrieNode.putChild_of_concat ext, unwrapResult_some_ok] at run
    exact put_noChild_clean inv inv' clean chain ext empty value (TrieNode.hash_newLeaf hasher key value) run
  | notPrefix cur =>
    obtain ⟨chain, notPre, p, rest, i, rfl, ext, target⟩ := ok
    have okP := inv.nodes _ _ (chain.path_stored inv p List.mem_cons_self)
    have extCur := (okP.sound i _ target).2.1
    by_cases pre : key <+: cur.key
    · obtain ⟨a, extA⟩ := exists_concat_of_ne pre fun same => notPre (same ▸ List.prefix_refl _)
      have isPre : key.isPrefixOf cur.key = true := List.isPrefixOf_iff_prefix.mpr pre
      simp only [putRaw, inv.getNode_eq, root, walk, Option.bind_eq_bind, Option.bind_some, isPre, if_true,
        TrieNode.putChild_of_concat (n := TrieNode.newLeaf key value) extA, TrieNode.newLeaf_key,
        unwrapResult_some_ok] at run
      exact put_hybrid_clean inv inv' clean chain notPre ext target extA value run
    · obtain ⟨a, b, _, forkA, forkB⟩ := commonPrefix_fork notPre pre
      have isPre : key.isPrefixOf cur.key = false := by
        rw [Bool.eq_false_iff, Ne, List.isPrefixOf_iff_prefix]
        exact pre
      simp only [putRaw, inv.getNode_eq, root, walk, Option.bind_eq_bind, Option.bind_some, isPre,
        Bool.false_eq_true, if_false, TrieNode.putChildNoHash,
        TrieNode.putChild_of_concat (n := TrieNode.newEmpty (commonPrefix cur.key key)) forkA,
        TrieNode.newEmpty_key, unwrapResult_some_ok, TrieNode.hash_newLeaf, TrieNode.newLeaf_key] at run
      rw [TrieNode.putChild_of_concat (by simpa using forkB)] at run
      simp only [unwrapResult_some_ok, Option.bind_some, TrieNode.setChild_key, TrieNode.newEmpty_key] at run
      exact put_sibling_clean inv inv' clean chain notPre ext target (prefix_commonPrefix extCur ext) forkA forkB
        value (TrieNode.hash_newLeaf hasher key value) run

/-- `remove_raw` keeps every entry with a hash right: the exit of the walk and the
    number of children of the nodes it meets decide which case applies, as in
    `removeRaw_spec`. -/
theorem removeRaw_clean (inv : TrieInvariant s) (clean : CleanBelow hasher s []) (nonempty : key ≠ [])
    (run : removeRaw s key = some s') : CleanBelow hasher s' [] := by
  have inv' : TrieInvariant s' := by
    obtain ⟨s'', run', inv'', _⟩ := removeRaw_spec inv nonempty
    rw [run, Option.some.injEq] at run'
    rw [run']
    exact inv''
  obtain ⟨r, root, _, _⟩ := inv.root
  obtain ⟨exit, path, walk, ok⟩ := descend_root inv key r root
  cases exit with
  | notPrefix cur =>
    simp only [removeRaw, inv.getNode_eq, root, walk, Option.bind_eq_bind, Option.bind_some,
      Option.some.injEq] at run
    exact run ▸ clean
  | noChild cur =>
    simp only [removeRaw, inv.getNode_eq, root, walk, Option.bind_eq_bind, Option.bind_some,
      Option.some.injEq] at run
    exact run ▸ clean
  | found cur =>
    obtain ⟨stored, chain⟩ := ok
    have keyed : cur.key = key := inv.keyed stored
    subst keyed
    have okCur := inv.nodes _ _ stored
    have noData : cur.rootData = none := (okCur.nonroot nonempty).1
    have notRoot : ({ cur with value := none } : TrieNode V H).isRoot = false := by simp [TrieNode.isRoot, noData]
    have sameCount : ({ cur with value := none } : TrieNode V H).numChildren = cur.numChildren := rfl
    have sameFirst : ({ cur with value := none } : TrieNode V H).firstChild = cur.firstChild := rfl
    simp only [removeRaw, inv.getNode_eq, root, walk, Option.bind_eq_bind, Option.bind_some, notRoot, sameCount,
      sameFirst, TrieNode.hasChildren, Bool.false_or, Bool.not_false, Bool.and_true, decide_eq_true_eq] at run
    rcases (by omega : cur.numChildren = 0 ∨ cur.numChildren = 1 ∨ 2 ≤ cur.numChildren) with zero | one | two
    · -- a leaf: it goes, and its parent stays or is merged into its other child
      obtain ⟨P, rest, rfl⟩ := List.exists_cons_of_ne_nil (fun empty : path = [] =>
        nonempty (by subst empty; exact chain.key_eq_nil inv))
      obtain ⟨i, targetP, extP⟩ := chain.toward inv P rest rfl
      have storedP := chain.path_stored inv P List.mem_cons_self
      have occupied := occupied_of_targetAt targetP
      simp only [zero, ne_eq, not_true_eq_false, if_false, removeUp, TrieNode.removeChild_of_concat extP,
        unwrapResult_some_ok, Option.bind_eq_bind, Option.bind_some, TrieNode.setChild_key] at run
      set P' := P.setChild i none
      by_cases merge : P'.numChildren = 1 ∧ P.rootData = none ∧ P.value = none
      · obtain ⟨single, noDataP, valueless⟩ := merge
        have cond : (decide (P'.numChildren = 1) && !P'.isRoot && !P'.isHybrid) = true := by
          simp [P', TrieNode.isRoot, TrieNode.isHybrid, single, noDataP, valueless]
        obtain ⟨j, c, entry, first, _⟩ := TrieNode.firstChild_of_numChildren_one single
        have ji : j ≠ i := by
          rintro rfl
          simp [P', TrieNode.setChild_children] at entry
        have entryP : P.children j = some c := by
          rw [TrieNode.setChild_children, if_neg ji] at entry
          exact entry
        have target : P.targetAt j = some (c.key P.key) := by simp [TrieNode.targetAt, entryP]
        obtain ⟨sib, sibStored⟩ := Option.ne_none_iff_exists'.mp ((inv.nodes _ _ storedP).sound j _ target).1
        have extJ := ((inv.nodes _ _ storedP).sound j _ target).2.1
        have fetched : getNode (removeNode (removeNode s cur.key) P.key) (c.key P.key) = some sib := by
          rw [inv.getNode_of_sub (fun k n h => by
              simp only [removeNode_apply] at h
              split at h
              · cases h
              · split at h
                · cases h
                · exact h),
            removeNode_apply, removeNode_apply, if_neg (ne_of_concat extJ).symm,
            if_neg fun same : c.key P.key = cur.key => ji (concat_prefix_inj (same ▸ extJ) extP), sibStored]
        rw [if_pos cond] at run
        simp only [first, fetched, Option.bind_some] at run
        exact remove_leaf_merge_clean inv inv' clean stored chain extP noDataP entry sibStored run
      · have cond : (decide (P'.numChildren = 1) && !P'.isRoot && !P'.isHybrid) = false := by
          by_cases single : P'.numChildren = 1
          · have valued : P.rootData = none → P.value ≠ none := fun noDataP valueless =>
              merge ⟨single, noDataP, valueless⟩
            cases hData : P.rootData <;> cases hValue : P.value <;>
              simp_all [P', TrieNode.isRoot, TrieNode.isHybrid, TrieNode.hasChildren]
          · simp [single]
        rw [if_neg (by simp [cond]), parent_not_empty inv storedP occupied] at run
        exact remove_leaf_clean inv inv' clean stored chain extP run
    · -- a hybrid node with one child: merged into the child
      obtain ⟨j, c, entry, first, _⟩ := TrieNode.firstChild_of_numChildren_one one
      have target : cur.targetAt j = some (c.key cur.key) := by simp [TrieNode.targetAt, entry]
      obtain ⟨child, childStored⟩ := Option.ne_none_iff_exists'.mp ((okCur.sound j _ target).1)
      have fetched : getNode (removeNode s cur.key) (c.key cur.key) = some child := by
        rw [inv.getNode_of_sub (fun k n h => by rw [removeNode_apply] at h; split at h; cases h; exact h),
          removeNode_apply, if_neg (ne_of_concat (okCur.sound j _ target).2.1).symm, childStored]
      simp only [one, first, fetched, Option.bind_some, if_true] at run
      obtain ⟨P, rest, rfl⟩ := List.exists_cons_of_ne_nil (fun empty : path = [] =>
        nonempty (by subst empty; exact chain.key_eq_nil inv))
      rw [if_pos one_ne_zero] at run
      exact remove_hybrid_clean inv inv' clean stored chain entry childStored run
    · -- a node with two children keeps them and loses its value
      simp only [show cur.numChildren ≠ 1 by omega] at run
      rw [if_pos (by omega), if_false] at run
      exact found_clean inv inv' clean nonempty stored chain none run

end Raw

section Runs

variable {hasher : TrieHasher V H}

/-- One operation keeps every entry with a hash right: the step of a run. -/
theorem apply_clean {s s' : NodeStore V H} (inv : TrieInvariant s) (clean : CleanBelow hasher s []) (op : TrieOp V)
    (nonempty : op.key ≠ []) (run : apply hasher s op = some s') : CleanBelow hasher s' [] := by
  cases op with
  | put key value => exact putRaw_clean inv clean nonempty value run
  | remove key => exact removeRaw_clean inv clean nonempty run

theorem applyAll_clean : ∀ (ops : List (TrieOp V)) {s s' : NodeStore V H}, TrieInvariant s →
    CleanBelow hasher s [] → (∀ op ∈ ops, op.key ≠ []) → applyAll hasher s ops = some s' → CleanBelow hasher s' []
  | [], _, _, _, clean, _, run => by
    rw [applyAll, List.foldlM_nil, Option.pure_def, Option.some.injEq] at run
    exact run ▸ clean
  | op :: ops, s, s', inv, clean, keys, run => by
    obtain ⟨s₁, step, inv₁, _⟩ := apply_spec hasher inv op (keys op List.mem_cons_self)
    rw [applyAll, List.foldlM_cons, step, Option.bind_eq_bind, Option.bind_some] at run
    exact applyAll_clean ops inv₁ (apply_clean inv clean op (keys op List.mem_cons_self) step)
      (fun op' mem => keys op' (List.mem_cons_of_mem _ mem)) run

omit [DecidableEq H] [Inhabited H] in
/-- Every stored key but the root's lies on the way to a key that holds a value: a node
    without a value has two children. The recursion goes down one entry at a time, and
    the stored keys, finitely many, are bounded in length. -/
theorem TrieInvariant.toward_value {s : NodeStore V H} (inv : TrieInvariant s) {B : Nat}
    (bound : ∀ k, s k ≠ none → k.length ≤ B) (k : KeyNibbles) (stored : s k ≠ none) :
    k = [] ∨ ∃ x, k <+: x ∧ get s x ≠ none := by
  by_cases root : k = []
  · exact .inl root
  obtain ⟨n, storedN⟩ := Option.ne_none_iff_exists'.mp stored
  rcases ((inv.nodes k n storedN).nonroot root).2 with valued | two
  · refine .inr ⟨k, List.prefix_refl k, ?_⟩
    simp [get, inv.getNode_eq, storedN, Option.isSome_iff_ne_none.mp valued]
  -- a branch node: go down its first entry
  obtain ⟨j, occupied⟩ := (TrieNode.hasChildren_iff (n := n)).mp (by simp [TrieNode.hasChildren]; omega)
  obtain ⟨c, entry⟩ := Option.isSome_iff_exists.mp occupied
  have least := inv.entry_least storedN entry
  have longer := length_lt_of_concat least.2.1
  have within := bound _ least.1
  rcases inv.toward_value bound (c.key k) least.1 with empty | ⟨x, below, valued⟩
  · rw [empty] at longer
    simp at longer
  · exact .inr ⟨x, (prefix_childKey c k).trans below, valued⟩
termination_by B - k.length

omit [DecidableEq H] [Inhabited H] in
theorem TrieInvariant.length_bound {s : NodeStore V H} (inv : TrieInvariant s) :
    ∃ B, ∀ k, s k ≠ none → k.length ≤ B := by
  obtain ⟨B, upper⟩ := (inv.finite.image List.length).bddAbove
  exact ⟨B, fun k stored => upper ⟨k, stored, rfl⟩⟩

omit [DecidableEq H] [Inhabited H] in
theorem mem_of_lastWrites {ops : List (TrieOp V)} {k : KeyNibbles} (written : TrieOp.lastWrites ops k ≠ none) :
    ∃ op ∈ ops, op.key = k := by
  rw [TrieOp.lastWrites_eq] at written
  cases last : (ops.filter (·.key = k)).getLast? with
  | none =>
    rw [last] at written
    exact absurd rfl written
  | some op =>
    have mem := List.mem_filter.mp (List.mem_of_getLast? last)
    exact ⟨op, mem.1, by simpa using mem.2⟩

/-- From the empty trie, any run of puts and removes at keys of at most `MAX_BYTES`
    bytes, then `update_root`: the update succeeds, the trie keeps its invariant and
    holds at each key the last value written there, every entry holds the hash of the
    node it names, and the trie has a root hash. -/
theorem applyAll_updateRoot_hashesOk (hasher : TrieHasher V H) (nonzero : ∀ x, hasher.hashNode x ≠ default)
    (ops : List (TrieOp V)) (keys : ∀ op ∈ ops, op.key ≠ [] ∧ op.key.length ≤ 2 * maxBytes) :
    ∃ s s' h, applyAll hasher new ops = some s ∧ updateRoot hasher s = some (s', .ok ()) ∧ TrieInvariant s' ∧
      (∀ k, get s' k = TrieOp.lastWrites ops k) ∧ HashesOk hasher s' ∧ rootHash hasher s' = some h := by
  obtain ⟨s, run, inv, written⟩ := applyAll_spec hasher ops new_invariant fun op mem => (keys op mem).1
  rw [get_new] at written
  have clean := applyAll_clean ops new_invariant (cleanBelow_new hasher) (fun op mem => (keys op mem).1) run
  -- every stored key lies on the way to a key some operation wrote
  have short : ∀ k, s k ≠ none → k.length ≤ 2 * maxBytes := by
    intro k stored
    obtain ⟨B, bound⟩ := inv.length_bound
    rcases inv.toward_value bound k stored with rfl | ⟨x, below, valued⟩
    · simp [maxBytes]
    · rw [written] at valued
      obtain ⟨op, mem, rfl⟩ := mem_of_lastWrites valued
      exact below.length_le.trans (keys op mem).2
  obtain ⟨s', h, update, ref⟩ := updateRoot_refreshed nonzero inv clean short
  obtain ⟨inv', values, hashes, root⟩ := ref.root inv
  exact ⟨s, s', h, run, update, inv', fun k => by rw [values, written]; rfl, hashes, root⟩

theorem three_ops_then_update_root :
    (∀ x, offsetHasher.hashNode x ≠ default) ∧
      (∀ op ∈ [TrieOp.put [1, 2] 5, .put [1, 3] 6, .put [1] 7, .remove [1, 2]],
        op.key ≠ [] ∧ op.key.length ≤ 2 * maxBytes) ∧
      ∃ s s' h, applyAll offsetHasher new [TrieOp.put [1, 2] 5, .put [1, 3] 6, .put [1] 7, .remove [1, 2]] = some s ∧
        updateRoot offsetHasher s = some (s', .ok ()) ∧ TrieInvariant s' ∧
        (∀ k, get s' k = TrieOp.lastWrites [TrieOp.put [1, 2] 5, .put [1, 3] 6, .put [1] 7, .remove [1, 2]] k) ∧
        HashesOk offsetHasher s' ∧ rootHash offsetHasher s' = some h :=
  ⟨offsetHasher_nonzero, by decide, applyAll_updateRoot_hashesOk offsetHasher offsetHasher_nonzero _ (by decide)⟩

end Runs

end MerkleRadixTrie

end Albatross
