import Albatross.Trie.Proof
import Albatross.Trie.PackedKey

/- `post_order_cmp` (primitives/src/key_nibbles.rs) as an order on keys. A key closed by a
   terminator above every nibble compares, in the list order, as `post_order_cmp` compares
   the keys: where one key prefixes the other, its terminator meets a nibble of the longer
   key and loses. The laws of the list order carry over, and the post-order walk of the
   16-ary key tree, children in increasing nibble order before their parent, is sorted by
   it. The packed `post_order_cmp` of valid keys is this comparison of their nibbles. -/
namespace Albatross

/-- A key's nibbles closed by `16`, which is above every nibble. -/
def terminated (k : KeyNibbles) : List Nat := k.map Fin.val ++ [16]

theorem terminated_injective : Function.Injective terminated := by
  intro a b same
  have nibbles : a.map Fin.val = b.map Fin.val := List.append_cancel_right same
  exact (List.map_injective_iff.mpr Fin.val_injective) nibbles

theorem postOrderCmp_cons_cons (x y : Fin 16) (xs ys : KeyNibbles) :
    postOrderCmp (x :: xs) (y :: ys) = (compare x y).then (postOrderCmp xs ys) := by
  by_cases same : x = y
  · subst same
    simp [postOrderCmp, List.isPrefixOf, List.compare_cons_cons]
  · -- keys that part at their first nibbles are ordered by those nibbles
    have parted : compare x y ≠ .eq := fun eq => same (compare_eq_iff_eq.mp eq)
    have first : ∀ o : Ordering, (compare x y).then o = compare x y := by
      intro o
      cases h : compare x y <;> simp_all [Ordering.then]
    have forth : (x == y) = false := beq_eq_false_iff_ne.mpr same
    have back : (y == x) = false := beq_eq_false_iff_ne.mpr (Ne.symm same)
    simp [postOrderCmp, List.isPrefixOf, forth, back, List.compare_cons_cons, first]

theorem postOrderCmp_eq_compare_terminated (a b : KeyNibbles) :
    postOrderCmp a b = compare (terminated a) (terminated b) := by
  induction a generalizing b with
  | nil =>
    cases b with
    | nil => simp [postOrderCmp, terminated]
    | cons y ys =>
      -- the empty key prefixes every key and comes last; its terminator is above `y`
      have above : compare 16 y.val = .gt := Nat.compare_eq_gt.mpr y.isLt
      simp [postOrderCmp, terminated, List.isPrefixOf, List.compare_cons_cons, above, Ordering.then]
  | cons x xs ih =>
    cases b with
    | nil =>
      have below : compare x.val 16 = .lt := Nat.compare_eq_lt.mpr x.isLt
      simp [postOrderCmp, terminated, List.isPrefixOf, List.compare_cons_cons, below, Ordering.then]
    | cons y ys =>
      rw [postOrderCmp_cons_cons, ih, Fin.compare_eq_compare_val]
      simp [terminated, List.compare_cons_cons]

instance : Std.OrientedCmp postOrderCmp where
  eq_swap {a b} := by
    rw [postOrderCmp_eq_compare_terminated, postOrderCmp_eq_compare_terminated]
    exact Std.OrientedCmp.eq_swap

instance : Std.TransCmp postOrderCmp where
  isLE_trans {a b c} ab bc := by
    rw [postOrderCmp_eq_compare_terminated] at ab bc ⊢
    exact Std.TransCmp.isLE_trans ab bc

instance : Std.LawfulEqCmp postOrderCmp where
  compare_self {k} := postOrderCmp_self k
  eq_of_compare {a b} same := by
    rw [postOrderCmp_eq_compare_terminated] at same
    exact terminated_injective (Std.LawfulEqCmp.eq_of_compare same)

theorem postOrderCmp_swap (a b : KeyNibbles) : postOrderCmp a b = (postOrderCmp b a).swap :=
  Std.OrientedCmp.eq_swap

theorem postOrderCmp_eq_iff (a b : KeyNibbles) : postOrderCmp a b = .eq ↔ a = b :=
  Std.LawfulEqCmp.compare_eq_iff_eq

theorem postOrderCmp_lt_trans {a b c : KeyNibbles} (ab : postOrderCmp a b = .lt)
    (bc : postOrderCmp b c = .lt) : postOrderCmp a c = .lt :=
  Std.TransCmp.lt_trans ab bc

theorem postOrderCmp_le_trans {a b c : KeyNibbles} (ab : postOrderCmp a b ≠ .gt)
    (bc : postOrderCmp b c ≠ .gt) : postOrderCmp a c ≠ .gt :=
  Ordering.isLE_iff_ne_gt.mp
    (Std.TransCmp.isLE_trans (Ordering.isLE_iff_ne_gt.mpr ab) (Ordering.isLE_iff_ne_gt.mpr bc))

/-- Keys below a common prefix compare as their rests do. -/
theorem postOrderCmp_append_left (k a b : KeyNibbles) :
    postOrderCmp (k ++ a) (k ++ b) = postOrderCmp a b := by
  induction k with
  | nil => rfl
  | cons x k ih => simp [postOrderCmp_cons_cons, ih]

/-- The post-order walk of the key tree below `k`, `depth` levels deep: the walks below the
children in increasing nibble order, then `k` itself. -/
def postOrderWalk : Nat → KeyNibbles → List KeyNibbles
  | 0, k => [k]
  | depth + 1, k => (List.finRange 16).flatMap (fun i => postOrderWalk depth (k ++ [i])) ++ [k]

theorem mem_postOrderWalk (depth : Nat) :
    ∀ k j : KeyNibbles, j ∈ postOrderWalk depth k ↔ k <+: j ∧ j.length ≤ k.length + depth := by
  induction depth with
  | zero =>
    intro k j
    simp only [postOrderWalk, List.mem_singleton, Nat.add_zero]
    constructor
    · rintro rfl
      exact ⟨List.prefix_refl _, le_refl _⟩
    · rintro ⟨below, short⟩
      exact (below.eq_of_length (le_antisymm below.length_le short)).symm
  | succ depth ih =>
    intro k j
    simp only [postOrderWalk, List.mem_append, List.mem_flatMap, List.mem_finRange, true_and,
      List.mem_singleton, ih]
    constructor
    · rintro (⟨i, below, short⟩ | rfl)
      · exact ⟨(List.prefix_append k [i]).trans below, by simp at short; omega⟩
      · exact ⟨List.prefix_refl _, by omega⟩
    · rintro ⟨⟨rest, rfl⟩, short⟩
      -- a proper descendant lies below the child of its first nibble past `k`
      cases rest with
      | nil => exact Or.inr (List.append_nil k)
      | cons i rest =>
        refine Or.inl ⟨i, ⟨rest, by simp⟩, ?_⟩
        simp at short ⊢
        omega

theorem postOrderWalk_sorted (depth : Nat) :
    ∀ k, (postOrderWalk depth k).Pairwise (fun a b => postOrderCmp a b = .lt) := by
  induction depth with
  | zero => exact fun k => List.pairwise_singleton _ k
  | succ depth ih =>
    intro k
    rw [postOrderWalk, List.pairwise_append, List.pairwise_flatMap]
    refine ⟨⟨fun i _ => ih (k ++ [i]), ?_⟩, List.pairwise_singleton _ _, ?_⟩
    · -- the walks below two children are ordered by the children's nibbles
      refine (List.pairwise_lt_finRange 16).imp fun {i i'} lt x inI y inI' => ?_
      obtain ⟨⟨rest, rfl⟩, -⟩ := (mem_postOrderWalk depth _ x).mp inI
      obtain ⟨⟨rest', rfl⟩, -⟩ := (mem_postOrderWalk depth _ y).mp inI'
      rw [List.append_assoc, List.append_assoc, postOrderCmp_append_left, List.singleton_append,
        List.singleton_append, postOrderCmp_cons_cons, compare_lt_iff_lt.mpr lt]
      rfl
    · -- every key of the walks below the children extends `k` properly, so comes first
      intro x inChild y inK
      rw [List.mem_singleton] at inK
      subst inK
      obtain ⟨i, -, inI⟩ := List.mem_flatMap.mp inChild
      obtain ⟨below, -⟩ := (mem_postOrderWalk depth _ x).mp inI
      refine postOrderCmp_of_prefix ((List.prefix_append _ _).trans below) fun same => ?_
      have := below.length_le
      rw [← same] at this
      simp at this

/-- `a` may come before `b` in the proof's sort. -/
def PostOrderLE (a b : KeyNibbles) : Prop := postOrderCmp a b ≠ .gt

instance : Std.Total PostOrderLE where
  total a b := by
    unfold PostOrderLE
    rw [postOrderCmp_swap a b]
    cases postOrderCmp b a <;> simp

instance : IsTrans KeyNibbles PostOrderLE where
  trans _ _ _ ab bc := postOrderCmp_le_trans ab bc

instance : DecidableRel PostOrderLE := fun a b => inferInstanceAs (Decidable (postOrderCmp a b ≠ .gt))

theorem insertionSort_postOrder_sorted (keys : List KeyNibbles) :
    (keys.insertionSort fun a b => postOrderCmp a b ≠ .gt).Pairwise fun a b => postOrderCmp a b ≠ .gt :=
  List.pairwise_insertionSort PostOrderLE keys

/-- `post_order_cmp` is a strict total order on keys, the order of the post-order walk of
the key tree, so the proof's sort is given a total order. -/
theorem post_order_cmp_is_walk_order :
    (∀ a b, postOrderCmp a b = .eq ↔ a = b) ∧
    (∀ a b, postOrderCmp a b = (postOrderCmp b a).swap) ∧
    (∀ a b c, postOrderCmp a b = .lt → postOrderCmp b c = .lt → postOrderCmp a c = .lt) ∧
    (∀ a b c, postOrderCmp a b ≠ .gt → postOrderCmp b c ≠ .gt → postOrderCmp a c ≠ .gt) ∧
    (∀ depth k, (postOrderWalk depth k).Pairwise (fun a b => postOrderCmp a b = .lt) ∧
      ∀ j, j ∈ postOrderWalk depth k ↔ k <+: j ∧ j.length ≤ k.length + depth) ∧
    ∀ keys : List KeyNibbles,
      (keys.insertionSort fun a b => postOrderCmp a b ≠ .gt).Pairwise fun a b => postOrderCmp a b ≠ .gt :=
  ⟨postOrderCmp_eq_iff, postOrderCmp_swap, fun _ _ _ => postOrderCmp_lt_trans,
    fun _ _ _ => postOrderCmp_le_trans,
    fun depth k => ⟨postOrderWalk_sorted depth k, mem_postOrderWalk depth k⟩,
    insertionSort_postOrder_sorted⟩

namespace Packed.KeyNibbles

theorem isPrefixOf_eq_decide (a b : Albatross.KeyNibbles) : a.isPrefixOf b = decide (a <+: b) := by
  rw [Bool.eq_iff_iff, List.isPrefixOf_iff_prefix, decide_eq_true_iff]

theorem postOrderCmp_eq {a b : KeyNibbles} (va : a.Valid) (vb : b.Valid) :
    a.postOrderCmp b = some (Albatross.postOrderCmp a.toList b.toList) := by
  rw [postOrderCmp, isPrefixOf_eq va, isPrefixOf_eq vb, cmp_eq_compare va vb]
  unfold Albatross.postOrderCmp
  rw [isPrefixOf_eq_decide, isPrefixOf_eq_decide]
  -- both sides match on the same two prefix tests
  cases decide (a.toList <+: b.toList) <;> cases decide (b.toList <+: a.toList) <;> rfl

/-- Packed keys refine the list model on how the trie builds and orders keys: `+` of valid keys
that fit the array is the concatenation of their nibbles, `common_prefix` is the longest common
prefix, both again valid, and `post_order_cmp` is the post-order comparison of the nibbles. -/
theorem packed_keys_refine_key_building :
    (∀ a b : KeyNibbles, a.Valid → b.Valid → a.len + b.len ≤ 126 →
      ∃ s, a.add b = some s ∧ s.Valid ∧ s.toList = a.toList ++ b.toList) ∧
    (∀ a b : KeyNibbles, a.Valid → b.Valid →
      ∃ s, a.commonPrefix b = some s ∧ s.Valid ∧ s.toList = Albatross.commonPrefix a.toList b.toList) ∧
    (∀ a b : KeyNibbles, a.Valid → b.Valid →
      a.postOrderCmp b = some (Albatross.postOrderCmp a.toList b.toList)) :=
  ⟨fun _ _ => add_eq, fun _ _ => commonPrefix_eq, fun _ _ => postOrderCmp_eq⟩

end Packed.KeyNibbles

end Albatross
