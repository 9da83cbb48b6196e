import Albatross.Mmr.MerkleMountainRange
import Albatross.Mmr.Peaks

/- What the store of a range built by pushes holds (primitives/mmr/src/mmr/mod.rs). Every
   leaf holds the hash of its value, every inner node the merge of its two children, and the
   store ends where the mountains of its leaves end. `push` keeps this from the empty range
   on: the hashing loop climbs the right edge of the new leaf, one parent per round, and stops
   at a left child, right before the next leaf. -/
namespace Albatross.Mmr

open PerfectTree

variable {H T : Type} {m : Merge H} {hash : T → Nat → H}

/-- The store agrees with `values` below its length. -/
structure Consistent (m : Merge H) (hash : T → Nat → H) (values : List T) (store : List H) : Prop where
  leaf : ∀ k, leafNumberToIndex k < store.length →
    ∃ lt : k < values.length, store[leafNumberToIndex k]? = some (hash values[k] 1)
  node : ∀ p, IsNode p → 0 < p.height → p.root < store.length →
    ∃ l r, store[p.left.root]? = some l ∧ store[p.right.root]? = some r ∧
      store[p.root]? = some (m.merge l r (2 ^ p.height))

/-- The store of the range over `values`: consistent, and as long as its mountains. -/
structure Hashed (m : Merge H) (hash : T → Nat → H) (values : List T) (store : List H) : Prop
    extends Consistent m hash values store where
  length : store.length = leafNumberToIndex values.length

@[simp] theorem Position.ofIndex_index (i : Nat) : (Position.ofIndex i).index = i := rfl

theorem Hashed.lt_length {values : List T} {store : List H} (hashed : Hashed m hash values store) {k : Nat}
    (lt : k < values.length) : leafNumberToIndex k < store.length := by
  rw [hashed.length]
  exact leafNumberToIndex_strictMono lt

section Nodes

theorem root_ne_of_height {s q : Span} (ns : IsNode s) (nq : IsNode q) (leaf : s.height = 0)
    (inner : 0 < q.height) : s.root ≠ q.root := by
  intro same
  have := node_eq_of_root ns nq same
  subst this
  omega

theorem children_lt_root {q : Span} (inner : 0 < q.height) : q.left.root < q.root ∧ q.right.root < q.root := by
  have := Span.left_root_add_two_pow inner
  have := Span.right_root_add_one inner
  have := Nat.one_le_two_pow (n := q.height)
  omega

theorem isLeaf_leafNumberToIndex (k : Nat) : ∃ s, IsNode s ∧ s.height = 0 ∧ s.root = leafNumberToIndex k :=
  (isLeaf_iff _).mpr ⟨k, rfl⟩

theorem isLeaf_after_left {t : Span} (left : IsLeftChild t) : ∃ k, leafNumberToIndex k = t.root + 1 := by
  obtain ⟨p, pn, pos, rfl⟩ := left
  have first := isNode_of_mem pn (Span.mem_subtrees_trans (Span.leftSpine_mem (s := p.right) (Nat.zero_le _))
    (Span.right_mem_subtrees pos))
  rw [← (isLeaf_iff _)]
  exact ⟨_, first, rfl, by rw [Span.root_leaf, Span.left_root_add_one]⟩

theorem leafNumberToIndex_le_iff {j k : Nat} : leafNumberToIndex j ≤ leafNumberToIndex k ↔ j ≤ k :=
  leafNumberToIndex_strictMono.le_iff_le

/-- The first leaf index past the leaf of number n with only inner nodes before it is that of
    leaf n + 1. -/
theorem next_leaf {n i : Nat} (after : leafNumberToIndex n < i) (leaf : ∃ k, leafNumberToIndex k = i)
    (between : ∀ j, leafNumberToIndex n < j → j < i → ∃ q, IsNode q ∧ 0 < q.height ∧ q.root = j) :
    i = leafNumberToIndex (n + 1) := by
  obtain ⟨k, rfl⟩ := leaf
  have later : n < k := leafNumberToIndex_strictMono.lt_iff_lt.mp after
  by_contra other
  have skipped : n + 1 < k := by
    rcases Nat.lt_or_ge (n + 1) k with lt | ge
    · exact lt
    · exact absurd (by rw [show k = n + 1 by omega]) other
  obtain ⟨q, nq, inner, root⟩ := between _ (leafNumberToIndex_strictMono (Nat.lt_succ_self n))
    (leafNumberToIndex_strictMono skipped)
  obtain ⟨s, ns, zero, leafRoot⟩ := isLeaf_leafNumberToIndex (n + 1)
  exact root_ne_of_height ns nq zero inner (leafRoot.trans root.symm)

end Nodes

section Append

variable {values : List T} {store : List H}

/-- Appending the merge of a right child's parent, right after the child, keeps the store
    consistent. -/
theorem Consistent.push_parent (consistent : Consistent m hash values store) {p : Span} (pn : IsNode p)
    (pos : 0 < p.height) (last : p.right.root + 1 = store.length) {l r : H}
    (hl : store[p.left.root]? = some l) (hr : store[p.right.root]? = some r) :
    Consistent m hash values (store ++ [m.merge l r (2 ^ p.height)]) := by
  have atRoot : p.root = store.length := by rw [← last, Span.right_root_add_one pos]
  have below : p.left.root < store.length ∧ p.right.root < store.length := atRoot ▸ children_lt_root pos
  constructor
  · intro k inside
    rw [List.length_append, List.length_singleton] at inside
    rcases Nat.lt_or_ge (leafNumberToIndex k) store.length with old | new
    · obtain ⟨lt, found⟩ := consistent.leaf k old
      exact ⟨lt, by rw [List.getElem?_append_left old, found]⟩
    · obtain ⟨s, ns, zero, root⟩ := isLeaf_leafNumberToIndex k
      exact absurd (by omega) (root_ne_of_height ns pn zero pos)
  · intro q nq inner inside
    rw [List.length_append, List.length_singleton] at inside
    rcases Nat.lt_or_ge q.root store.length with old | new
    · obtain ⟨l', r', hl', hr', found⟩ := consistent.node q nq inner old
      have children := children_lt_root inner
      refine ⟨l', r', ?_, ?_, ?_⟩
      · rw [List.getElem?_append_left (children.1.trans old), hl']
      · rw [List.getElem?_append_left (children.2.trans old), hr']
      · rw [List.getElem?_append_left old, found]
    · have same := node_eq_of_root nq pn (by omega)
      subst same
      refine ⟨l, r, ?_, ?_, ?_⟩
      · rw [List.getElem?_append_left below.1, hl]
      · rw [List.getElem?_append_left below.2, hr]
      · rw [atRoot, List.getElem?_concat_length]

/-- Appending the hash of the next value as its leaf keeps the store consistent. -/
theorem Hashed.push_leaf (hashed : Hashed m hash values store) (v : T) :
    Consistent m hash (values ++ [v]) (store ++ [hash v 1]) := by
  constructor
  · intro k inside
    rw [List.length_append, List.length_singleton, hashed.length, Nat.lt_succ_iff,
      leafNumberToIndex_le_iff] at inside
    rcases Nat.lt_or_ge k values.length with old | new
    · obtain ⟨lt, found⟩ := hashed.leaf k (by rw [hashed.length]; exact leafNumberToIndex_strictMono old)
      refine ⟨by simp; omega, ?_⟩
      rw [List.getElem?_append_left (by rw [hashed.length]; exact leafNumberToIndex_strictMono old), found,
        List.getElem_append_left lt]
    · have last : k = values.length := by omega
      subst last
      refine ⟨by simp, ?_⟩
      rw [← hashed.length, List.getElem?_concat_length]
      simp
  · intro q nq inner inside
    rw [List.length_append, List.length_singleton, hashed.length, Nat.lt_succ_iff] at inside
    obtain ⟨s, ns, zero, root⟩ := isLeaf_leafNumberToIndex values.length
    have old : q.root < store.length := by
      rw [hashed.length]
      exact lt_of_le_of_ne inside fun same => root_ne_of_height ns nq zero inner (root.trans same.symm)
    obtain ⟨l, r, hl, hr, found⟩ := hashed.node q nq inner old
    have children := children_lt_root inner
    exact ⟨l, r, by rw [List.getElem?_append_left (children.1.trans old), hl],
      by rw [List.getElem?_append_left (children.2.trans old), hr], by rw [List.getElem?_append_left old, found]⟩

end Append

section Push

variable {values : List T}

/-- Run lemma of the hashing loop of `push`. From the node s just appended, each round on a
    right child appends its parent; the loop stops at a left child t, with only inner nodes
    appended. The fuel, one round per index, outlasts the climb: a node of height h has index
    at least 2 h. -/
theorem pushLoop_spec :
    ∀ (fuel : Nat) (s : Span) (store : List H), IsNode s → s.root + 1 = store.length →
      Consistent m hash values store → s.root + 1 ≤ fuel + 2 * s.height →
      ∃ t store', MerkleMountainRange.pushLoop m fuel (Position.ofIndex s.root) store = .ok store' ∧ IsLeftChild t ∧
        store'.length = t.root + 1 ∧ Consistent m hash values store' ∧ store <+: store' ∧
        (∀ i, store.length ≤ i → i < store'.length → ∃ q, IsNode q ∧ 0 < q.height ∧ q.root = i) ∧
        t.root + s.height = s.root + t.height := by
  intro fuel
  induction fuel with
  | zero =>
    intro s store ns last consistent enough
    rcases isLeftChild_or_isRightChild ns with left | ⟨p, pn, pos, rfl⟩
    · exact ⟨s, store, by rw [MerkleMountainRange.pushLoop], left, last.symm, consistent, List.prefix_refl _,
        fun i low high => absurd high (by omega), rfl⟩
    · -- a right child has height p.height - 1 and index p.root - 1 ≥ 2 p.height - 1
      have := p.two_mul_height_le_root
      have := Span.right_root_add_one pos
      simp only [Span.right_height] at enough
      omega
  | succ fuel ih =>
    intro s store ns last consistent enough
    rcases isLeftChild_or_isRightChild ns with left | ⟨p, pn, pos, rfl⟩
    · refine ⟨s, store, ?_, left, last.symm, consistent, List.prefix_refl _, fun i low high => absurd high (by omega), rfl⟩
      rw [MerkleMountainRange.pushLoop, ofIndex_of_isLeftChild left]
      rfl
    · have atRoot : p.root = store.length := by rw [← last, Span.right_root_add_one pos]
      obtain ⟨leftIn, rightIn⟩ : p.left.root < store.length ∧ p.right.root < store.length :=
        atRoot ▸ children_lt_root pos
      obtain ⟨l, hl⟩ : ∃ l, store[p.left.root]? = some l := ⟨_, List.getElem?_eq_getElem leftIn⟩
      obtain ⟨r, hr⟩ : ∃ r, store[p.right.root]? = some r := ⟨_, List.getElem?_eq_getElem rightIn⟩
      have pushed := consistent.push_parent pn pos last hl hr
      have longer : p.root + 1 = (store ++ [m.merge l r (2 ^ p.height)]).length := by simp; omega
      obtain ⟨t, store', loop, left, length, consistent', prefix', inner, spine⟩ :=
        ih p _ pn longer pushed (by simp only [Span.right_height] at enough; omega)
      refine ⟨t, store', ?_, left, length, consistent', (List.prefix_append _ _).trans prefix', ?_,
        by simp only [Span.right_height]; omega⟩
      · have numLeaves : (Position.ofIndex p.root).numLeaves = 2 ^ p.height := by
          simp [Position.numLeaves, Position.ofIndex, indexToHeight_root pn]
        have right : (Position.ofIndex p.right.root).rightNode = true := by rw [ofIndex_right pn pos]
        have sibling : (Position.ofIndex p.right.root).sibling.index = p.left.root := by rw [sibling_right pn pos]; rfl
        rw [MerkleMountainRange.pushLoop, if_pos right, sibling, Position.ofIndex_index]
        simp only [hl, hr]
        rw [parent_right pn pos, numLeaves, loop]
      · intro i low high
        rcases Nat.lt_or_ge i (store.length + 1) with here | above
        · exact ⟨p, pn, pos, by omega⟩
        · exact inner i (by simp; omega) high

/-- Step lemma of the range: `push` onto the store of `values` succeeds, returns the old leaf
    count and leaves the store of `values ++ [v]`, having only appended. -/
theorem Hashed.push_climb {mmr : MerkleMountainRange H} (hashed : Hashed m hash values mmr.store) (v : T) :
    ∃ t store', mmr.push m hash v = .ok (⟨store', mmr.numLeaves + 1⟩, mmr.numLeaves) ∧ IsLeftChild t ∧
      store'.length = t.root + 1 ∧ t.root = leafNumberToIndex values.length + t.height ∧
      Hashed m hash (values ++ [v]) store' ∧ mmr.store <+: store' := by
  obtain ⟨s, ns, zero, root⟩ := isLeaf_leafNumberToIndex values.length
  have len : mmr.len = s.root := by rw [MerkleMountainRange.len, hashed.length, root]
  have numLeaves : (Position.ofIndex s.root).numLeaves = 1 := by
    simp [Position.numLeaves, Position.ofIndex, indexToHeight_root ns, zero]
  obtain ⟨t, store', loop, left, length, consistent, prefix', inner, spine⟩ :=
    pushLoop_spec (mmr.len + 1) s (mmr.store ++ [hash v 1]) ns
      (by simp [← hashed.length, root]) (hashed.push_leaf v) (by rw [len]; omega)
  refine ⟨t, store', ?_, left, length, by omega, ⟨consistent, ?_⟩, (List.prefix_append _ _).trans prefix'⟩
  · have pos : Position.ofIndex mmr.len = Position.ofIndex s.root := by rw [len]
    simp only [MerkleMountainRange.push, pos, numLeaves, loop]
  · obtain ⟨k, leafAfter⟩ := isLeaf_after_left left
    have past : leafNumberToIndex values.length < t.root + 1 := by
      have := prefix'.length_le
      simp only [List.length_append, List.length_singleton, hashed.length] at this
      omega
    rw [length, List.length_append, List.length_singleton,
      next_leaf past ⟨k, leafAfter⟩ fun j low high => inner j (by simp [hashed.length]; omega) (by omega)]

theorem Hashed.push {mmr : MerkleMountainRange H} (hashed : Hashed m hash values mmr.store) (v : T) :
    ∃ store', mmr.push m hash v = .ok (⟨store', mmr.numLeaves + 1⟩, mmr.numLeaves) ∧
      Hashed m hash (values ++ [v]) store' ∧ mmr.store <+: store' := by
  obtain ⟨-, store', pushed, -, -, -, hashed', prefix'⟩ := hashed.push_climb v
  exact ⟨store', pushed, hashed', prefix'⟩

/-- `remove_back` right after a `push` onto a range built by pushes takes off exactly what the
    push appended: the last node, whose height is that of the climb, and the nodes below it back
    to the new leaf. -/
theorem Hashed.push_removeBack {mmr : MerkleMountainRange H} (hashed : Hashed m hash values mmr.store) (v : T) :
    ∃ pushed leafIndex removed, mmr.push m hash v = .ok (pushed, leafIndex) ∧ pushed.removeBack = .ok removed ∧
      removed.store = mmr.store := by
  obtain ⟨t, store', pushed, ⟨p, pn, pos, rfl⟩, length, spine, -, prefix'⟩ := hashed.push_climb v
  have last : indexToHeight (store'.length - 1) = p.left.height := by
    rw [length, Nat.add_sub_cancel, indexToHeight_root (isNode_of_mem pn (Span.left_mem_subtrees pos))]
  have kept : store'.length - (p.left.height + 1) = mmr.store.length := by rw [hashed.length]; omega
  refine ⟨_, _, ⟨MerkleMountainRange.storeRemoveBack store' (p.left.height + 1), mmr.numLeaves + 1⟩, pushed, ?_, ?_⟩
  · rw [MerkleMountainRange.removeBack, if_neg (by simp [MerkleMountainRange.isEmpty, MerkleMountainRange.len, length])]
    simp only [MerkleMountainRange.len, last]
  · simp only [MerkleMountainRange.storeRemoveBack, if_pos (show p.left.height + 1 ≤ store'.length by omega), kept]
    exact (List.prefix_iff_eq_take.mp prefix').symm

theorem hashed_new : Hashed m hash ([] : List T) (MerkleMountainRange.new (H := H)).store :=
  ⟨⟨fun _ inside => absurd inside (Nat.not_lt_zero _), fun _ _ _ inside => absurd inside (Nat.not_lt_zero _)⟩, rfl⟩

/-- Run lemma: pushing `xs` after `values` succeeds and leaves the store of `values ++ xs`,
    one leaf per value. -/
theorem foldlM_push_hashed :
    ∀ (xs values : List T) (mmr : MerkleMountainRange H), Hashed m hash values mmr.store →
      mmr.numLeaves = values.length →
      ∃ mmr', xs.foldlM (fun mmr value => (mmr.push m hash value).map Prod.fst) mmr = .ok mmr' ∧
        Hashed m hash (values ++ xs) mmr'.store ∧ mmr'.numLeaves = (values ++ xs).length ∧
        mmr.store <+: mmr'.store
  | [], values, mmr, hashed, counted => ⟨mmr, rfl, by simpa using hashed, by simpa using counted, List.prefix_refl _⟩
  | x :: xs, values, mmr, hashed, counted => by
    obtain ⟨store', pushed, hashed', prefix'⟩ := hashed.push x
    obtain ⟨mmr', run, hashed'', counted', prefix''⟩ :=
      foldlM_push_hashed xs (values ++ [x]) ⟨store', mmr.numLeaves + 1⟩ hashed' (by simp [counted])
    refine ⟨mmr', ?_, by simpa using hashed'', by simpa using counted', prefix'.trans prefix''⟩
    rw [List.foldlM_cons, pushed]
    exact run

/-- A range built from `values` by pushes stores every leaf hash at its leaf's index and every
    inner node as the merge of its children, and nothing else. -/
theorem fromLeaves_consistent (m : Merge H) (hash : T → Nat → H) (values : List T) :
    ∃ mmr, MerkleMountainRange.fromLeaves m hash values = .ok mmr ∧ Hashed m hash values mmr.store ∧
      mmr.numLeaves = values.length := by
  obtain ⟨mmr, run, hashed, counted, -⟩ := foldlM_push_hashed values [] _ (hashed_new : Hashed m hash [] MerkleMountainRange.new.store) rfl
  exact ⟨mmr, run, hashed, counted⟩

/-- On a range built from `values` by pushes, `remove_back` right after pushing one more value
    restores the store as it was before that push. -/
theorem fromLeaves_push_removeBack_store (m : Merge H) (hash : T → Nat → H) (values : List T) (v : T) :
    ∃ mmr pushed leafIndex removed, MerkleMountainRange.fromLeaves m hash values = .ok mmr ∧
      mmr.push m hash v = .ok (pushed, leafIndex) ∧ pushed.removeBack = .ok removed ∧ removed.store = mmr.store := by
  obtain ⟨mmr, run, pushed, -, -⟩ := foldlM_push_hashed values [] _ (hashed_new : Hashed m hash [] MerkleMountainRange.new.store) rfl
  obtain ⟨pushed', leafIndex, removed, push, remove, same⟩ := pushed.push_removeBack v
  exact ⟨mmr, pushed', leafIndex, removed, run, push, remove, same⟩

end Push

end Albatross.Mmr
