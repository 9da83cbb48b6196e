import Albatross.Lib.OptionList
import Albatross.Trie.ProofSound

/- `update_root` (primitives/trie/src/trie.rs). `update_hashes` walks from a node into
   every entry marked dirty, hashes the node that entry names and writes the hash into
   it. On a complete trie whose entries with a hash hold the right one, whose keys fit
   in `KeyNibbles::MAX_BYTES` and whose node hash never yields the all-zero hash that
   marks a dirty entry, it returns the root's hash and leaves every entry holding the
   hash of the node it names, with the values and the shape of the trie as they were.
   The induction is on the fuel, one level of the trie per call; inside a call the
   loop over the sixteen entries keeps `LoopState`. -/
namespace Albatross

namespace MerkleRadixTrie

variable {V H : Type} [DecidableEq H] [Inhabited H]

section Defs

variable (hasher : TrieHasher V H)

/-- Below `k`, every entry with a hash holds the hash of the node it names: only the
    entries marked dirty may be stale. -/
def CleanBelow (s : NodeStore V H) (k : KeyNibbles) : Prop :=
  ∀ p n i c, k <+: p → s p = some n → n.children i = some c → c.hasHash = true →
    ∃ m, s (c.key p) = some m ∧ m.hash hasher = some c.hash

/-- Below `k`, every entry holds the hash of the node it names. -/
def HashesOkBelow (s : NodeStore V H) (k : KeyNibbles) : Prop :=
  ∀ p n i c, k <+: p → s p = some n → n.children i = some c →
    ∃ m, s (c.key p) = some m ∧ m.hash hasher = some c.hash

end Defs

/-- `n'` is `n` with hashes written into its entries: the same key, value and root
    data, every entry naming the same child, and every entry that had a hash kept. -/
structure Rehashed (n n' : TrieNode V H) : Prop where
  key : n'.key = n.key
  value : n'.value = n.value
  rootData : n'.rootData = n.rootData
  suffixes : ∀ i, (n'.children i).map (·.suffix) = (n.children i).map (·.suffix)
  kept : ∀ i c, n.children i = some c → c.hasHash = true → n'.children i = some c

/-- What a call of `update_hashes` at `k` that returns `h` leaves: the table outside `k`
    as it was, every node rehashed, every entry below `k` right, and the node at `k`
    hashing to `h`. -/
structure Refreshed (hasher : TrieHasher V H) (s s' : NodeStore V H) (k : KeyNibbles) (h : H) : Prop where
  outside : ∀ x, ¬ k <+: x → s' x = s x
  rehashed : ∀ x, Option.Rel Rehashed (s x) (s' x)
  hashesOk : HashesOkBelow hasher s' k
  hashed : ∃ n', s' k = some n' ∧ n'.hash hasher = some h

section Rehash

variable {n n' n'' : TrieNode V H}

theorem Rehashed.refl (n : TrieNode V H) : Rehashed n n :=
  ⟨rfl, rfl, rfl, fun _ => rfl, fun _ _ entry _ => entry⟩

theorem Rehashed.trans (first : Rehashed n n') (second : Rehashed n' n'') : Rehashed n n'' :=
  ⟨second.key.trans first.key, second.value.trans first.value, second.rootData.trans first.rootData,
    fun i => (second.suffixes i).trans (first.suffixes i),
    fun i c entry hashed => second.kept i c (first.kept i c entry hashed) hashed⟩

theorem Rehashed.targetAt (re : Rehashed n n') (i : Fin 16) : n'.targetAt i = n.targetAt i := by
  have suffix := re.suffixes i
  unfold TrieNode.targetAt TrieNodeChild.key
  rw [re.key]
  revert suffix
  cases n'.children i <;> cases n.children i <;> simp +contextual

theorem Rehashed.sameShape (re : Rehashed n n') : SameShape n n' :=
  ⟨re.key, by rw [re.rootData], re.targetAt⟩

theorem Rehashed.kind_eq (re : Rehashed n n') : n'.kind = n.kind :=
  re.sameShape.kind_eq (by rw [re.value])

theorem rel_rehashed_refl (o : Option (TrieNode V H)) : Option.Rel Rehashed o o := by
  cases o with
  | none => exact .none
  | some n => exact .some (.refl n)

theorem rel_rehashed_trans {a b c : Option (TrieNode V H)} (first : Option.Rel Rehashed a b)
    (second : Option.Rel Rehashed b c) : Option.Rel Rehashed a c := by
  cases first with
  | none => cases second; exact .none
  | some re => cases second with
    | some re' => exact .some (re.trans re')

theorem rel_rehashed_none {a b : Option (TrieNode V H)} (rel : Option.Rel Rehashed a b) : b = none ↔ a = none := by
  cases rel <;> simp

theorem rel_rehashed_some {a : TrieNode V H} {b : Option (TrieNode V H)} (rel : Option.Rel Rehashed (some a) b) :
    ∃ a', b = some a' ∧ Rehashed a a' := by
  generalize ha : some a = o at rel
  cases rel with
  | none => cases ha
  | some re => cases ha; exact ⟨_, rfl, re⟩

theorem rel_rehashed_of_some {a : Option (TrieNode V H)} {b : TrieNode V H} (rel : Option.Rel Rehashed a (some b)) :
    ∃ a₀, a = some a₀ ∧ Rehashed a₀ b := by
  generalize hb : some b = o at rel
  cases rel with
  | none => cases hb
  | some re => cases hb; exact ⟨_, rfl, re⟩

theorem rel_rehashed_value {a b : Option (TrieNode V H)} (rel : Option.Rel Rehashed a b) :
    b.bind (·.value) = a.bind (·.value) := by
  cases rel with
  | none => rfl
  | some re => exact re.value

theorem rel_rehashed_kind {a b : Option (TrieNode V H)} (rel : Option.Rel Rehashed a b) :
    b.bind TrieNode.kind = a.bind TrieNode.kind := by
  cases rel with
  | none => rfl
  | some re => exact re.kind_eq

end Rehash

section Transfer

variable {s t : NodeStore V H}

/-- Writing hashes into entries keeps the invariant, which reads no hash. -/
theorem TrieInvariant.rehashed (inv : TrieInvariant s) (rel : ∀ x, Option.Rel Rehashed (s x) (t x)) :
    TrieInvariant t := by
  have status : ∀ k, k ∉ ([] : List KeyNibbles) → (t k = none ↔ s k = none) :=
    fun k _ => rel_rehashed_none (rel k)
  have counts : countsOf t = countsOf s := by
    simp only [countsOf, kindCount_congr fun k => rel_rehashed_kind (rel k)]
  refine ⟨?_, ?_, finite_of_status inv.finite [] status⟩
  · obtain ⟨r, root, valueless, data⟩ := inv.root
    have rootRel := rel []
    rw [root] at rootRel
    obtain ⟨r', stored, re⟩ := rel_rehashed_some rootRel
    exact ⟨r', stored, by rw [re.value, valueless], by rw [re.rootData, data, counts]⟩
  · refine inv.nodes_of_frame [] [] status (fun k n' stored _ => ?_) (by simp) (by simp)
    obtain ⟨n, old, re⟩ := rel_rehashed_of_some (stored ▸ rel k)
    refine ⟨n, old, re.sameShape, fun nonempty => ?_⟩
    rw [re.value]
    exact ((inv.nodes k n old).nonroot nonempty).2

theorem get_of_rehashed (rel : ∀ x, Option.Rel Rehashed (s x) (t x)) : get t = get s := by
  funext k
  simp only [get, getNode, Option.bind_map]
  exact rel_rehashed_value (rel k)

end Transfer

section Below

variable {hasher : TrieHasher V H} {s t : NodeStore V H} {k : KeyNibbles}

omit [DecidableEq H] [Inhabited H] in
theorem prefix_childKey (c : TrieNodeChild H) (p : KeyNibbles) : p <+: c.key p := List.prefix_append p c.suffix

theorem CleanBelow.congr (clean : CleanBelow hasher s k) (agree : ∀ x, k <+: x → t x = s x) :
    CleanBelow hasher t k := by
  intro p n i c below stored entry hashed
  rw [agree p below] at stored
  obtain ⟨m, child, hash⟩ := clean p n i c below stored entry hashed
  exact ⟨m, by rw [agree _ (below.trans (prefix_childKey c p)), child], hash⟩

theorem HashesOkBelow.congr (ok : HashesOkBelow hasher s k) (agree : ∀ x, k <+: x → t x = s x) :
    HashesOkBelow hasher t k := by
  intro p n i c below stored entry
  rw [agree p below] at stored
  obtain ⟨m, child, hash⟩ := ok p n i c below stored entry
  exact ⟨m, by rw [agree _ (below.trans (prefix_childKey c p)), child], hash⟩

theorem CleanBelow.mono {k' : KeyNibbles} (clean : CleanBelow hasher s k) (below : k <+: k') :
    CleanBelow hasher s k' :=
  fun p n i c below' => clean p n i c (below.trans below')

theorem HashesOk.of_below (ok : HashesOkBelow hasher s []) : HashesOk hasher s :=
  fun p n i c stored entry => ok p n i c (List.nil_prefix) stored entry

theorem canHash_iff {n : TrieNode V H} : n.canHash = true ↔ ∀ i c, n.children i = some c → c.hasHash = true := by
  simp only [TrieNode.canHash, List.all_eq_true, List.mem_finRange, true_implies]
  constructor
  · intro all i c entry
    have := all i
    rw [entry] at this
    exact this
  · intro all i
    split
    · rename_i c entry
      exact all i c entry
    · rfl

theorem hash_of_canHash {n : TrieNode V H} (can : n.canHash = true) :
    n.hash hasher = some (hasher.hashNode ⟨n.key, n.valuePart hasher, n.children⟩) := by
  simp [TrieNode.hash, can]

theorem canHash_of_hash {n : TrieNode V H} {x : H} (hashed : n.hash hasher = some x) : n.canHash = true := by
  unfold TrieNode.hash at hashed
  split at hashed
  · assumption
  · cases hashed

/-- An entry holding the hash of a node is not marked dirty, as the node hash never
    yields the all-zero hash. -/
theorem hasHash_of_hash (nonzero : ∀ x, hasher.hashNode x ≠ default) {m : TrieNode V H} {c : TrieNodeChild H}
    (hashed : m.hash hasher = some c.hash) : c.hasHash = true := by
  simp [TrieNodeChild.hasHash, ← hash_eq_some hashed, nonzero]

omit [DecidableEq H] [Inhabited H] in
theorem TrieInvariant.entry_least (inv : TrieInvariant s) {n : TrieNode V H} {i : Fin 16} {c : TrieNodeChild H}
    (stored : s k = some n) (entry : n.children i = some c) : LeastBelow s k i (c.key k) :=
  (inv.nodes k n stored).sound i (c.key k) (by simp [TrieNode.targetAt, entry, inv.keyed stored])

/-- On the way from a node that can be hashed down to `p`, every node can be hashed:
    each entry on the way has a hash, so the node it names hashes to it. -/
theorem canHash_toward (inv : TrieInvariant s) (clean : CleanBelow hasher s k) {p : KeyNibbles}
    {n : TrieNode V H} (storedP : s p = some n) :
    ∀ d q m, p.length - q.length < d → k <+: q → q <+: p → s q = some m → m.canHash = true → n.canHash = true
  | 0, _, _, short, _, _, _, _ => absurd short (Nat.not_lt_zero _)
  | d + 1, q, m, short, below, toward, storedQ, can => by
    by_cases here : q = p
    · subst here
      rw [storedQ] at storedP
      cases storedP
      exact can
    obtain ⟨j, ext⟩ := exists_concat_of_ne toward here
    obtain ⟨t, target, tp⟩ := (inv.nodes q m storedQ).complete j p ext (by simp [storedP])
    obtain ⟨c, entry, rfl⟩ := Option.map_eq_some_iff.mp target
    rw [inv.keyed storedQ] at tp
    obtain ⟨m', storedT, hashed⟩ := clean q m j c below storedQ entry (canHash_iff.mp can j c entry)
    have longer := length_lt_of_concat (inv.entry_least storedQ entry).2.1
    have within := tp.length_le
    exact canHash_toward inv clean storedP d (c.key q) m' (by omega) (below.trans (prefix_childKey c q)) tp
      storedT (canHash_of_hash hashed)

/-- Below a node that can be hashed, in a table whose entries with a hash are right,
    every entry is right. -/
theorem hashesOkBelow_of_canHash (inv : TrieInvariant s) (clean : CleanBelow hasher s k) {m : TrieNode V H}
    (stored : s k = some m) (can : m.canHash = true) : HashesOkBelow hasher s k := by
  intro p n i c below storedP entry
  have canP := canHash_toward inv clean storedP _ k m (Nat.lt_succ_self _) (List.prefix_refl k) below stored can
  exact clean p n i c below storedP entry (canHash_iff.mp canP i c entry)

end Below

/-- The loop of `update_hashes` at `k` over the node `n` of `s`, with the entries at
    `rest` still to visit, holding `children` and the table `t`: every visited entry
    holds the hash of the node it names, everything below it is right, and nothing
    outside the visited entries has changed. -/
structure LoopState (hasher : TrieHasher V H) (s : NodeStore V H) (k : KeyNibbles) (n : TrieNode V H)
    (rest : List (Fin 16)) (children : Fin 16 → Option (TrieNodeChild H)) (t : NodeStore V H) : Prop where
  todo : ∀ i ∈ rest, children i = n.children i
  frame : ∀ x, (∀ i, i ∉ rest → ¬ k ++ [i] <+: x) → t x = s x
  rehashed : ∀ x, Option.Rel Rehashed (s x) (t x)
  below : ∀ i, i ∉ rest → HashesOkBelow hasher t (k ++ [i])
  suffixes : ∀ i, (children i).map (·.suffix) = (n.children i).map (·.suffix)
  kept : ∀ i c, n.children i = some c → c.hasHash = true → children i = some c
  done : ∀ i c, i ∉ rest → children i = some c → ∃ m, t (c.key k) = some m ∧ m.hash hasher = some c.hash

section Loop

variable {hasher : TrieHasher V H} {s t : NodeStore V H} {k : KeyNibbles} {n : TrieNode V H}
  {i : Fin 16} {rest : List (Fin 16)} {children : Fin 16 → Option (TrieNodeChild H)}

theorem loopState_start (n : TrieNode V H) : LoopState hasher s k n (List.finRange 16) n.children s where
  todo _ _ := rfl
  frame _ _ := rfl
  rehashed x := rel_rehashed_refl (s x)
  below i out := absurd (List.mem_finRange i) out
  suffixes _ := rfl
  kept _ _ entry _ := entry
  done i _ out := absurd (List.mem_finRange i) out

theorem LoopState.frame_at (st : LoopState hasher s k n (i :: rest) children t) {x : KeyNibbles}
    (ext : k ++ [i] <+: x) : t x = s x :=
  st.frame x fun j out below => out (by rw [concat_prefix_inj below ext]; exact List.mem_cons_self)

theorem LoopState.key_of_entry (st : LoopState hasher s k n rest children t) {j : Fin 16} {c : TrieNodeChild H}
    (entry : children j = some c) : ∃ c₀, n.children j = some c₀ ∧ c.key k = c₀.key k := by
  have same := st.suffixes j
  rw [entry] at same
  obtain ⟨c₀, entry₀, suffix⟩ := Option.map_eq_some_iff.mp same.symm
  exact ⟨c₀, entry₀, by simp [TrieNodeChild.key, suffix]⟩

/-- The loop moves past an entry it leaves as it is, when everything below that entry
    is right already. -/
theorem LoopState.skip (st : LoopState hasher s k n (i :: rest) children t)
    (below : HashesOkBelow hasher t (k ++ [i]))
    (right : ∀ c, children i = some c → ∃ m, t (c.key k) = some m ∧ m.hash hasher = some c.hash) :
    LoopState hasher s k n rest children t where
  todo j mem := st.todo j (List.mem_cons_of_mem i mem)
  frame x outside := st.frame x fun j out => outside j fun mem => out (List.mem_cons_of_mem i mem)
  rehashed := st.rehashed
  below j out := by
    by_cases here : j = i
    · rw [here]
      exact below
    · exact st.below j (List.not_mem_cons_of_ne_of_not_mem here out)
  suffixes := st.suffixes
  kept := st.kept
  done j c out entry := by
    by_cases here : j = i
    · rw [here] at entry
      exact right c entry
    · exact st.done j c (List.not_mem_cons_of_ne_of_not_mem here out) entry

/-- The loop at an empty entry moves on: nothing is stored below it. -/
theorem LoopState.skip_empty (st : LoopState hasher s k n (i :: rest) children t) (inv : TrieInvariant s)
    (stored : s k = some n) (empty : n.children i = none) : LoopState hasher s k n rest children t := by
  refine st.skip (fun p m _ _ below storedP _ => ?_) fun c entry => ?_
  · rw [st.frame_at below, (inv.nodes k n stored).nothing_below empty below] at storedP
    cases storedP
  · rw [st.todo i List.mem_cons_self, empty] at entry
    cases entry

/-- The loop keeps an entry with a hash: the node it names, and everything below that
    node, is right already. -/
theorem LoopState.skip_hashed (st : LoopState hasher s k n (i :: rest) children t) (inv : TrieInvariant s)
    (stored : s k = some n) (clean : CleanBelow hasher s k) {c : TrieNodeChild H} (entry : n.children i = some c)
    (hashed : c.hasHash = true) : LoopState hasher s k n rest children t := by
  obtain ⟨m, child, hash⟩ := clean k n i c (List.prefix_refl k) stored entry hashed
  have least := inv.entry_least stored entry
  have under : HashesOkBelow hasher s (k ++ [i]) := by
    intro p m' j c' below storedP entry'
    exact hashesOkBelow_of_canHash inv (clean.mono (prefix_childKey c k)) child (canHash_of_hash hash)
      p m' j c' (least.2.2 p (by simp [storedP]) below) storedP entry'
  refine st.skip (under.congr fun x below => st.frame_at below) fun c' entry' => ?_
  rw [st.todo i List.mem_cons_self, entry] at entry'
  cases entry'
  exact ⟨m, by rw [st.frame_at least.2.1, child], hash⟩

/-- The loop at an entry marked dirty, given what `update_hashes` below it leaves: the
    entry gets the hash of the node it names, and the table below it is right. -/
theorem LoopState.visit_dirty (st : LoopState hasher s k n (i :: rest) children t) (nodup : (i :: rest).Nodup)
    (inv : TrieInvariant s) (stored : s k = some n) {c : TrieNodeChild H} (entry : n.children i = some c)
    (dirty : c.hasHash = false) {h : H} {t' : NodeStore V H} (ref : Refreshed hasher t t' (c.key k) h) :
    LoopState hasher s k n rest (Function.update children i (some { c with hash := h })) t' := by
  have extI := (inv.entry_least stored entry).2.1
  have fresh : i ∉ rest := (List.nodup_cons.mp nodup).1
  -- the call below the entry changes nothing below the other entries
  have apart : ∀ j x, j ≠ i → k ++ [j] <+: x → t' x = t x := fun j x here below =>
    ref.outside x fun under => here (concat_prefix_inj below (extI.trans under))
  refine ⟨fun j mem => ?_, fun x outside => ?_, fun x => rel_rehashed_trans (st.rehashed x) (ref.rehashed x),
    fun j out => ?_, fun j => ?_, fun j c' entry' hashed => ?_, fun j c' out entry' => ?_⟩
  · have ne : j ≠ i := fun same => fresh (by rw [← same]; exact mem)
    rw [Function.update_of_ne ne]
    exact st.todo j (List.mem_cons_of_mem i mem)
  · rw [ref.outside x fun under => outside i fresh (extI.trans under)]
    exact st.frame x fun j out => outside j fun mem => out (List.mem_cons_of_mem i mem)
  · by_cases here : j = i
    · rw [here]
      intro p m j' c' below storedP entry'
      have storedS : s p ≠ none := fun none =>
        by simp [(rel_rehashed_none (ref.rehashed p)).mpr ((rel_rehashed_none (st.rehashed p)).mpr none)] at storedP
      exact ref.hashesOk p m j' c' ((inv.entry_least stored entry).2.2 p storedS below) storedP entry'
    · exact (st.below j (List.not_mem_cons_of_ne_of_not_mem here out)).congr fun x below => apart j x here below
  · by_cases here : j = i
    · rw [here, Function.update_self, entry]
      rfl
    · rw [Function.update_of_ne here]
      exact st.suffixes j
  · by_cases here : j = i
    · rw [here, entry] at entry'
      cases entry'
      rw [dirty] at hashed
      cases hashed
    · rw [Function.update_of_ne here]
      exact st.kept j c' entry' hashed
  · by_cases here : j = i
    · rw [here, Function.update_self] at entry'
      cases entry'
      exact ref.hashed
    · rw [Function.update_of_ne here] at entry'
      obtain ⟨m, child, hash⟩ := st.done j c' (List.not_mem_cons_of_ne_of_not_mem here out) entry'
      obtain ⟨c₀, entry₀, sameKey⟩ := st.key_of_entry entry'
      refine ⟨m, ?_, hash⟩
      rw [apart j _ here (sameKey ▸ (inv.entry_least stored entry₀).2.1), child]

/-- After the loop every entry of the node holds the hash of the node it names: the
    node can be hashed, and writing it back leaves everything below `k` right. -/
theorem LoopState.finish (st : LoopState hasher s k n [] children t) (nonzero : ∀ x, hasher.hashNode x ≠ default)
    (inv : TrieInvariant s) (stored : s k = some n) :
    ∃ h, ({ n with children := children } : TrieNode V H).hash hasher = some h ∧
      Refreshed hasher s (putNode t { n with children := children }) k h := by
  set n' : TrieNode V H := { n with children := children }
  have keyed : n'.key = k := by rw [← inv.keyed stored]
  have can : n'.canHash = true := canHash_iff.mpr fun j c entry => by
    obtain ⟨m, _, hash⟩ := st.done j c List.not_mem_nil entry
    exact hasHash_of_hash nonzero hash
  -- the entries name keys strictly below `k`, which the write at `k` leaves alone
  have away : ∀ x, (∃ j, k ++ [j] <+: x) → putNode t n' x = t x := by
    rintro x ⟨j, ext⟩
    rw [putNode_apply, keyed, if_neg (fun same => ne_of_concat ext same.symm)]
  have here : putNode t n' k = some n' := by rw [putNode_apply, keyed, if_pos rfl]
  refine ⟨_, hash_of_canHash can, fun x off => ?_, fun x => ?_, fun p m j c below storedP entry => ?_,
    ⟨n', here, hash_of_canHash can⟩⟩
  · rw [putNode_apply, keyed, if_neg fun (same : x = k) => off (by rw [same])]
    exact st.frame x fun j _ ext => off (prefix_of_concat ext)
  · by_cases atK : x = k
    · rw [atK, stored, here]
      exact .some ⟨rfl, rfl, rfl, st.suffixes, st.kept⟩
    · rw [putNode_apply, keyed, if_neg atK]
      exact st.rehashed x
  · by_cases atK : p = k
    · rw [atK, here] at storedP
      cases storedP
      obtain ⟨m', child, hash⟩ := st.done j c List.not_mem_nil entry
      obtain ⟨c₀, entry₀, sameKey⟩ := st.key_of_entry entry
      refine ⟨m', ?_, hash⟩
      rw [atK, away _ ⟨j, sameKey ▸ (inv.entry_least stored entry₀).2.1⟩, child]
    · obtain ⟨j', ext⟩ := exists_concat_of_ne below (Ne.symm atK)
      rw [away p ⟨j', ext⟩] at storedP
      obtain ⟨m', child, hash⟩ := st.below j' List.not_mem_nil p m j c ext storedP entry
      refine ⟨m', ?_, hash⟩
      rw [away _ ⟨j', ext.trans (prefix_childKey c p)⟩, child]

end Loop

section Run

variable {hasher : TrieHasher V H}

theorem loop_step {s : NodeStore V H} {k : KeyNibbles} {n : TrieNode V H} {fuel : Nat} (inv : TrieInvariant s)
    (stored : s k = some n) (clean : CleanBelow hasher s k)
    (deep : ∀ x, s x ≠ none → k <+: x → x.length < k.length + (fuel + 1))
    (ih : ∀ t x, TrieInvariant t → t x ≠ none → CleanBelow hasher t x →
      (∀ y, t y ≠ none → x <+: y → y.length < x.length + fuel) →
      ∃ h t', updateHashes hasher fuel t x = some (some h, t') ∧ Refreshed hasher t t' x h)
    {i : Fin 16} {rest : List (Fin 16)} {children : Fin 16 → Option (TrieNodeChild H)} {t : NodeStore V H}
    (nodup : (i :: rest).Nodup) (st : LoopState hasher s k n (i :: rest) children t) :
    ∃ acc, hashChild (updateHashes hasher fuel) k (children, t) i = some acc ∧
      LoopState hasher s k n rest acc.1 acc.2 := by
  have current := st.todo i List.mem_cons_self
  cases entry : n.children i with
  | none =>
    refine ⟨(children, t), ?_, st.skip_empty inv stored entry⟩
    simp [hashChild, current, entry]
  | some c =>
    by_cases hashed : c.hasHash = true
    · refine ⟨(children, t), ?_, st.skip_hashed inv stored clean entry hashed⟩
      simp [hashChild, current, entry, hashed]
    have dirty : c.hasHash = false := by simpa using hashed
    have extI := (inv.entry_least stored entry).2.1
    have agree : ∀ x, c.key k <+: x → t x = s x := fun x below => st.frame_at (extI.trans below)
    -- the call one level down sees the old table below the entry
    have shallow : ∀ y, t y ≠ none → c.key k <+: y → y.length < (c.key k).length + fuel := by
      intro y storedY below
      have storedS : s y ≠ none := fun none => storedY ((rel_rehashed_none (st.rehashed y)).mpr none)
      have bound := deep y storedS ((prefix_childKey c k).trans below)
      have longer := length_lt_of_concat extI
      omega
    obtain ⟨h, t', call, ref⟩ := ih t (c.key k) (inv.rehashed st.rehashed)
      (by rw [agree _ (List.prefix_refl _)]; exact (inv.entry_least stored entry).1)
      ((clean.mono (prefix_childKey c k)).congr agree) shallow
    refine ⟨(Function.update children i (some { c with hash := h }), t'), ?_,
      st.visit_dirty nodup inv stored entry dirty ref⟩
    simp [hashChild, current, entry, dirty, call]

theorem loop_run {s : NodeStore V H} {k : KeyNibbles} {n : TrieNode V H} {fuel : Nat} (inv : TrieInvariant s)
    (stored : s k = some n) (clean : CleanBelow hasher s k)
    (deep : ∀ x, s x ≠ none → k <+: x → x.length < k.length + (fuel + 1))
    (ih : ∀ t x, TrieInvariant t → t x ≠ none → CleanBelow hasher t x →
      (∀ y, t y ≠ none → x <+: y → y.length < x.length + fuel) →
      ∃ h t', updateHashes hasher fuel t x = some (some h, t') ∧ Refreshed hasher t t' x h) :
    ∃ children t, (List.finRange 16).foldlM (hashChild (updateHashes hasher fuel) k) (n.children, s) =
      some (children, t) ∧ LoopState hasher s k n [] children t := by
  obtain ⟨⟨children, t⟩, run, st⟩ := foldlM_some_of_step (fun rest acc => LoopState hasher s k n rest acc.1 acc.2)
    (fun _ _ _ nodup st => loop_step inv stored clean deep ih nodup st) (List.finRange 16) (n.children, s)
    (List.nodup_finRange 16) (loopState_start n)
  exact ⟨children, t, run, st⟩

/-- `update_hashes` at a stored key, with fuel for every level below it, returns the
    hash of the node there and leaves every entry below it right: by induction on the
    fuel, one level of the trie per call. -/
theorem updateHashes_spec (nonzero : ∀ x, hasher.hashNode x ≠ default) :
    ∀ (fuel : Nat) (s : NodeStore V H) (k : KeyNibbles), TrieInvariant s → s k ≠ none → CleanBelow hasher s k →
      (∀ x, s x ≠ none → k <+: x → x.length < k.length + fuel) →
      ∃ h s', updateHashes hasher fuel s k = some (some h, s') ∧ Refreshed hasher s s' k h
  | 0, _, k, _, stored, _, deep => absurd (deep k stored (List.prefix_refl k)) (by omega)
  | fuel + 1, s, k, inv, stored, clean, deep => by
    obtain ⟨n, storedN⟩ := Option.ne_none_iff_exists'.mp stored
    have node : getNode s k = some n := by rw [inv.getNode_eq, storedN]
    by_cases inner : n.hasChildren = true
    · obtain ⟨children, t, run, st⟩ := loop_run inv storedN clean deep (updateHashes_spec nonzero fuel)
      obtain ⟨h, hash, ref⟩ := st.finish nonzero inv storedN
      refine ⟨h, _, ?_, ref⟩
      simp [updateHashes, node, inner, run, hash]
    -- a node without children is hashed as it is, and nothing lies below it
    have noChildren : ∀ j, n.children j = none := fun j => by
      by_contra occupied
      exact inner (TrieNode.hasChildren_iff.mpr ⟨j, Option.isSome_iff_ne_none.mpr occupied⟩)
    have hash : n.hash hasher = some _ := hash_of_canHash (TrieNode.canHash_of_no_children noChildren)
    refine ⟨_, s, ?_, fun _ _ => rfl, fun x => rel_rehashed_refl (s x), fun p m j c below storedP entry => ?_,
      ⟨n, storedN, hash⟩⟩
    · simp [updateHashes, node, inner, hash]
    · have atK := (inv.nodes k n storedN).under_leaf noChildren (by simp [storedP]) below
      rw [atK, storedN] at storedP
      cases storedP
      rw [noChildren j] at entry
      cases entry

end Run

section Root

variable {hasher : TrieHasher V H} {s s' : NodeStore V H} {h : H}

/-- `update_root` is `update_hashes` at the root with fuel for every level: keys have at
    most `2 * MAX_BYTES` nibbles. -/
theorem updateRoot_refreshed (nonzero : ∀ x, hasher.hashNode x ≠ default) (inv : TrieInvariant s)
    (clean : CleanBelow hasher s []) (short : ∀ k, s k ≠ none → k.length ≤ 2 * maxBytes) :
    ∃ s' h, updateRoot hasher s = some (s', .ok ()) ∧ Refreshed hasher s s' [] h := by
  obtain ⟨h, s', call, ref⟩ := updateHashes_spec nonzero (2 * maxBytes + 1) s [] inv inv.root_stored clean
    fun x stored _ => by have := short x stored; simp only [List.length_nil]; omega
  exact ⟨s', h, by simp [updateRoot, call], ref⟩

/-- What the rehashed table holds after `update_root`: the invariant, the same values,
    every entry right, and a root hash. -/
theorem Refreshed.root (ref : Refreshed hasher s s' [] h) (inv : TrieInvariant s) :
    TrieInvariant s' ∧ get s' = get s ∧ HashesOk hasher s' ∧ rootHash hasher s' = some h := by
  have inv' := inv.rehashed ref.rehashed
  obtain ⟨r, stored, hash⟩ := ref.hashed
  exact ⟨inv', get_of_rehashed ref.rehashed, HashesOk.of_below ref.hashesOk,
    by rw [rootHash, inv'.getNode_eq, stored, Option.bind_some, hash]⟩

theorem cleanBelow_new (hasher : TrieHasher V H) : CleanBelow hasher (new : NodeStore V H) [] := by
  intro p n i c _ stored entry _
  simp only [new, putNode_apply, TrieNode.newRoot] at stored
  split at stored
  · rw [Option.some.injEq] at stored
    subst stored
    cases entry
  · cases stored

/-- `update_root` on a complete trie whose entries with a hash hold the right one and
    whose keys fit in `MAX_BYTES` bytes succeeds, keeps the invariant and every value,
    and leaves every entry holding the hash of the node it names, so that the trie has
    a root hash. -/
theorem updateRoot_hashes_right (hasher : TrieHasher V H) (nonzero : ∀ x, hasher.hashNode x ≠ default)
    {s : NodeStore V H} (inv : TrieInvariant s) (clean : CleanBelow hasher s [])
    (short : ∀ k, s k ≠ none → k.length ≤ 2 * maxBytes) :
    ∃ s' h, updateRoot hasher s = some (s', .ok ()) ∧ TrieInvariant s' ∧ get s' = get s ∧ HashesOk hasher s' ∧
      rootHash hasher s' = some h := by
  obtain ⟨s', h, update, ref⟩ := updateRoot_refreshed nonzero inv clean short
  obtain ⟨inv', values, hashes, root⟩ := ref.root inv
  exact ⟨s', h, update, inv', values, hashes, root⟩

end Root

section Witness

/-- A node hash that never yields the all-zero hash marking a dirty entry. -/
def offsetHasher : TrieHasher Nat Nat where
  hashValue := id
  hashNode input := encodingHasher.hashNode input + 1

theorem offsetHasher_nonzero (x : HashInput Nat Nat) : offsetHasher.hashNode x ≠ default :=
  Nat.succ_ne_zero _

theorem new_keys_short (k : KeyNibbles) (stored : (new : NodeStore Nat Nat) k ≠ none) : k.length ≤ 2 * maxBytes := by
  by_cases root : k = []
  · simp [root]
  · simp [new, putNode_apply, TrieNode.newRoot, root] at stored

theorem update_root_of_new_trie :
    (∀ x, offsetHasher.hashNode x ≠ default) ∧ TrieInvariant (new : NodeStore Nat Nat) ∧
      CleanBelow offsetHasher (new : NodeStore Nat Nat) [] ∧
      (∀ k, (new : NodeStore Nat Nat) k ≠ none → k.length ≤ 2 * maxBytes) ∧
      ∃ s' h, updateRoot offsetHasher (new : NodeStore Nat Nat) = some (s', .ok ()) ∧ TrieInvariant s' ∧
        get s' = get (new : NodeStore Nat Nat) ∧ HashesOk offsetHasher s' ∧ rootHash offsetHasher s' = some h :=
  ⟨offsetHasher_nonzero, new_invariant, cleanBelow_new _, new_keys_short,
    updateRoot_hashes_right offsetHasher offsetHasher_nonzero new_invariant (cleanBelow_new _) new_keys_short⟩

end Witness

end MerkleRadixTrie

end Albatross
