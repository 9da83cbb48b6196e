import Albatross.Mmr.Position
import Albatross.Lib.PerfectTree
import Albatross.Lib.BinaryArith

/- The numbering that the position arithmetic of position.rs rests on. The infinite range is
   the perfect tree of every height H laid out in post-order from index 0, each the left
   subtree of the next: the README's order of insertion, a parent right after its right child.
   Its nodes are the subtrees of these trees. The usize bit tricks (`count_ones`, `move_left`,
   `all_ones`, `2 n - count_ones n`) are shown to give the height, the side and the neighbours
   of the node at an index, and the indices of the leaves. -/
namespace Albatross.Mmr

open PerfectTree BinaryArith

section Bits

theorem countOnesLoop_eq {fuel n : Nat} (small : n < 2 ^ fuel) :
    countOnesLoop fuel n = n.bitIndices.length := by
  induction fuel generalizing n with
  | zero =>
    obtain rfl : n = 0 := by simpa using small
    rfl
  | succ fuel ih =>
    rw [countOnesLoop, ih (by rw [Nat.pow_succ] at small; omega)]
    rcases Nat.mod_two_eq_zero_or_one n with even | odd
    · conv_rhs => rw [← Nat.div_add_mod n 2, even, Nat.add_zero, Nat.bitIndices_two_mul]
      simp [even]
    · conv_rhs => rw [← Nat.div_add_mod n 2, odd, Nat.bitIndices_two_mul_add_one]
      simp [odd, Nat.add_comm]

theorem countOnes_eq (n : Nat) : countOnes n = n.bitIndices.length := by
  apply countOnesLoop_eq
  unfold bitLength
  split
  · simp_all
  · exact Nat.lt_log2_self

@[simp] theorem countOnes_size (h : Nat) : countOnes (size h) = h + 1 := by
  rw [countOnes_eq, size, length_bitIndices_two_pow_sub_one]

theorem countOnes_two_pow_add {t r : Nat} (small : r < 2 ^ t) : countOnes (2 ^ t + r) = countOnes r + 1 := by
  rw [countOnes_eq, countOnes_eq, Nat.add_comm, bitIndices_add_two_pow small]
  simp

theorem bitLength_eq {x k : Nat} (low : 2 ^ k ≤ x) (high : x < 2 ^ (k + 1)) : bitLength x = k + 1 := by
  have nonzero : x ≠ 0 := by
    have := Nat.one_le_two_pow (n := k)
    omega
  have atLeast := (Nat.le_log2 nonzero).mpr low
  have below := (Nat.log2_lt nonzero).mpr high
  simp only [bitLength, nonzero, if_false]
  omega

theorem moveLeft_eq {x k : Nat} (low : 2 ^ k ≤ x) (high : x < 2 ^ (k + 1)) : moveLeft x = x - (2 ^ k - 1) := by
  rw [moveLeft, bitLength_eq low high, Nat.add_sub_cancel]

theorem allOnes_size (h : Nat) : allOnes (size h) = true := by
  have := one_le_size h
  simp only [allOnes, size_add_one, countOnes_eq, Nat.bitIndices_two_pow]
  simp
  omega

theorem allOnes_eq_false {x k : Nat} (low : 2 ^ k ≤ x) (high : x + 1 < 2 ^ (k + 1)) : allOnes x = false := by
  have notPower : countOnes (x + 1) ≠ 1 := by
    rw [countOnes_eq]
    intro one
    obtain ⟨j, power⟩ := length_bitIndices_eq_one.mp one
    have above := (Nat.pow_lt_pow_iff_right (by decide)).mp (show 2 ^ k < 2 ^ j by omega)
    have under := (Nat.pow_lt_pow_iff_right (by decide)).mp (show 2 ^ j < 2 ^ (k + 1) by omega)
    omega
  simp [allOnes, notPower]

theorem moveLeftLoop_size (f h : Nat) : moveLeftLoop (f + 1) (size h) = size h := by
  simp [moveLeftLoop, allOnes_size]

theorem moveLeftLoop_of_allOnes_eq_false {f x : Nat} (moves : allOnes x = false) :
    moveLeftLoop (f + 1) x = moveLeftLoop f (moveLeft x) := by
  simp [moveLeftLoop, moves]

end Bits

/-- Moving left from a node of the tree of height H ends at the root of the leftmost tree of the
node's height, whose 1-based index is all ones. One move takes a node of a right subtree to its
twin in the left one, so the index bounds the moves. -/
theorem moveLeftLoop_root {H : Nat} {s : Span} (inside : s ∈ (⟨H, 0⟩ : Span).subtrees) {f : Nat}
    (fuel : s.root + 1 ≤ f) : moveLeftLoop f (s.root + 1) = size s.height := by
  induction H generalizing s f with
  | zero =>
    obtain rfl : s = ⟨0, 0⟩ := by simpa [Span.subtrees_leaf] using inside
    obtain ⟨f, rfl⟩ : ∃ g, f = g + 1 := ⟨f - 1, by simp at fuel; omega⟩
    exact moveLeftLoop_size f 0
  | succ H ih =>
    obtain ⟨f, rfl⟩ : ∃ g, f = g + 1 := ⟨f - 1, by omega⟩
    rw [Span.subtrees_node (by simp)] at inside
    simp only [List.mem_append, List.mem_singleton] at inside
    rcases inside with (left | right) | rfl
    · exact ih left (by omega)
    · rw [show (⟨H + 1, 0⟩ : Span).right = (⟨H, 0⟩ : Span).shift (size H) by simp [Span.right, Span.shift],
        Span.subtrees_shift, List.mem_map] at right
      obtain ⟨s, twin, rfl⟩ := right
      have bound := (Span.root_mem_of_mem twin).2
      have treeRoot := Span.root_add_one ⟨H, 0⟩
      have width := size_add_one H
      have wider := size_add_one (H + 1)
      have double := size_succ H
      simp only [Nat.zero_add] at treeRoot
      rw [Span.root_shift, Span.shift_height,
        moveLeftLoop_of_allOnes_eq_false (allOnes_eq_false (k := H + 1) (by omega) (by omega)),
        moveLeft_eq (k := H + 1) (by omega) (by omega),
        show s.root + size H + 1 - (2 ^ (H + 1) - 1) = s.root + 1 by omega]
      exact ih twin (by rw [Span.root_shift] at fuel; omega)
    · rw [Span.root_add_one, Nat.zero_add]
      exact moveLeftLoop_size f (H + 1)

/-- The nodes of the infinite range: the subtrees of the perfect tree of some height laid out
from index 0. The tree of height H is the left subtree of that of height H + 1, so the range
only grows at its end. -/
def IsNode (s : Span) : Prop := ∃ H, s ∈ (⟨H, 0⟩ : Span).subtrees

def IsLeftChild (s : Span) : Prop := ∃ p, IsNode p ∧ 0 < p.height ∧ p.left = s

def IsRightChild (s : Span) : Prop := ∃ p, IsNode p ∧ 0 < p.height ∧ p.right = s

section Nodes

variable {s : Span}

theorem isNode_of_mem {q : Span} (node : IsNode s) (below : q ∈ s.subtrees) : IsNode q := by
  obtain ⟨H, inside⟩ := node
  exact ⟨H, Span.mem_subtrees_trans below inside⟩

theorem mem_tree_succ {H : Nat} (inside : s ∈ (⟨H, 0⟩ : Span).subtrees) : s ∈ (⟨H + 1, 0⟩ : Span).subtrees :=
  Span.mem_subtrees_trans inside (Span.leftSpine_mem (s := ⟨H + 1, 0⟩) (by simp))

/-- The trees from index 0 grow by appending, so a node of one is a node of every higher one. -/
theorem mem_tree_of_le {H K : Nat} (low : H ≤ K) (inside : s ∈ (⟨H, 0⟩ : Span).subtrees) :
    s ∈ (⟨K, 0⟩ : Span).subtrees := by
  induction K, low using Nat.le_induction with
  | base => exact inside
  | succ K _ ih => exact mem_tree_succ ih

theorem indexToHeight_root (node : IsNode s) : indexToHeight s.root = s.height := by
  obtain ⟨H, inside⟩ := node
  rw [indexToHeight, moveLeftLoop_root inside le_rfl, countOnes_size, Nat.add_sub_cancel]

-- the README's table of the heights of the first 19 nodes
example : (List.range 19).map indexToHeight = [0, 0, 1, 0, 0, 1, 2, 0, 0, 1, 0, 0, 1, 2, 3, 0, 0, 1, 0] := by
  decide

theorem allOnes_moveLeftLoop_root (node : IsNode s) : allOnes (moveLeftLoop (s.root + 1) (s.root + 1)) = true := by
  obtain ⟨H, inside⟩ := node
  rw [moveLeftLoop_root inside le_rfl, allOnes_size]

/-- Every index is the root of a node: the tree of height i already holds index i. -/
theorem exists_node (i : Nat) : ∃ s, IsNode s ∧ s.root = i := by
  have ranged : i ∈ (⟨i, 0⟩ : Span).subtrees.map Span.root := by
    rw [Span.map_root_subtrees, List.mem_range'_1]
    have := Nat.lt_two_pow_self (n := i + 1)
    dsimp only
    unfold size
    omega
  obtain ⟨s, inside, root⟩ := List.mem_map.mp ranged
  exact ⟨s, ⟨i, inside⟩, root⟩

/-- A node is fixed by its root: the root fixes the height, and the height the first index. -/
theorem node_eq_of_root {t : Span} (ns : IsNode s) (nt : IsNode t) (same : s.root = t.root) : s = t := by
  have heights : s.height = t.height := by rw [← indexToHeight_root ns, ← indexToHeight_root nt, same]
  have sEnd := s.root_add_one
  have tEnd := t.root_add_one
  obtain ⟨sh, ss⟩ := s
  obtain ⟨th, ts⟩ := t
  dsimp only at *
  subst heights
  simp only [Span.mk.injEq, true_and]
  omega

/-- In the infinite range every node has a parent: the tree of height H hangs left below that of
height H + 1. -/
theorem isLeftChild_or_isRightChild (node : IsNode s) : IsLeftChild s ∨ IsRightChild s := by
  obtain ⟨H, inside⟩ := node
  have proper : s ≠ ⟨H + 1, 0⟩ := by
    rintro rfl
    have inner := (Span.root_mem_of_mem inside).2
    have outerEnd := Span.root_add_one ⟨H + 1, 0⟩
    have innerEnd := Span.root_add_one ⟨H, 0⟩
    have := size_succ H
    dsimp only at *
    omega
  obtain ⟨p, mem, pos, child⟩ := Span.exists_parent (mem_tree_succ inside) proper
  rcases child with left | right
  · exact .inl ⟨p, ⟨H + 1, mem⟩, pos, left⟩
  · exact .inr ⟨p, ⟨H + 1, mem⟩, pos, right⟩

theorem ofIndex_of_isLeftChild (left : IsLeftChild s) : Position.ofIndex s.root = ⟨s.root, s.height, false⟩ := by
  obtain ⟨p, node, pos, rfl⟩ := left
  have leaf := isNode_of_mem node (Span.mem_subtrees_trans (Span.leftSpine_mem (s := p.right) (Nat.zero_le _))
    (Span.right_mem_subtrees pos))
  have after : indexToHeight (p.left.root + 1) = 0 := by
    rw [Span.left_root_add_one]
    simpa using indexToHeight_root leaf
  simp [Position.ofIndex, indexToHeight_root (isNode_of_mem node (Span.left_mem_subtrees pos)), after]

theorem ofIndex_of_isRightChild (right : IsRightChild s) : Position.ofIndex s.root = ⟨s.root, s.height, true⟩ := by
  obtain ⟨p, node, pos, rfl⟩ := right
  have after : indexToHeight (p.right.root + 1) = p.height := by
    rw [Span.right_root_add_one pos, indexToHeight_root node]
  simp [Position.ofIndex, indexToHeight_root (isNode_of_mem node (Span.right_mem_subtrees pos)), after]
  omega

theorem rightNode_iff (node : IsNode s) : (Position.ofIndex s.root).rightNode = true ↔ IsRightChild s := by
  constructor
  · intro right
    rcases isLeftChild_or_isRightChild node with left | isRight
    · rw [ofIndex_of_isLeftChild left] at right
      contradiction
    · exact isRight
  · intro right
    rw [ofIndex_of_isRightChild right]

end Nodes

section Family

variable {p : Span} (node : IsNode p) (pos : 0 < p.height)
include node pos

theorem ofIndex_left : Position.ofIndex p.left.root = ⟨p.left.root, p.left.height, false⟩ :=
  ofIndex_of_isLeftChild ⟨p, node, pos, rfl⟩

theorem ofIndex_right : Position.ofIndex p.right.root = ⟨p.right.root, p.right.height, true⟩ :=
  ofIndex_of_isRightChild ⟨p, node, pos, rfl⟩

theorem sibling_left : (Position.ofIndex p.left.root).sibling = Position.ofIndex p.right.root := by
  have twin := p.left_root_add_size
  simp only [ofIndex_left node pos, ofIndex_right node pos, Position.sibling, Bool.false_eq_true,
    if_false, Bool.not_false, Span.left_height, Span.right_height]
  rw [← size, twin]

theorem sibling_right : (Position.ofIndex p.right.root).sibling = Position.ofIndex p.left.root := by
  have twin := p.left_root_add_size
  simp only [ofIndex_left node pos, ofIndex_right node pos, Position.sibling, if_true, Bool.not_true,
    Span.left_height, Span.right_height]
  rw [← size, ← twin, Nat.add_sub_cancel]

theorem parent_left : (Position.ofIndex p.left.root).parent = Position.ofIndex p.root := by
  have height : p.height - 1 + 1 = p.height := Nat.sub_add_cancel pos
  rw [ofIndex_left node pos]
  simp only [Position.parent, Position.ofIndex, Bool.false_eq_true, if_false, Span.left_height, height,
    p.left_root_add_two_pow pos, indexToHeight_root node]

theorem parent_right : (Position.ofIndex p.right.root).parent = Position.ofIndex p.root := by
  have height : p.height - 1 + 1 = p.height := Nat.sub_add_cancel pos
  rw [ofIndex_right node pos]
  simp only [Position.parent, Position.ofIndex, if_true, Span.right_height, height, Span.right_root_add_one pos,
    indexToHeight_root node]

theorem leftChild_root : (Position.ofIndex p.root).leftChild = some (Position.ofIndex p.left.root) := by
  have below := p.left_root_add_two_pow pos
  rw [ofIndex_left node pos]
  simp only [Position.ofIndex, indexToHeight_root node, Position.leftChild, pos, if_true, Span.left_height,
    Option.some.injEq, Position.mk.injEq, and_true]
  omega

theorem rightChild_root : (Position.ofIndex p.root).rightChild = some (Position.ofIndex p.right.root) := by
  have below := Span.right_root_add_one pos
  rw [ofIndex_right node pos]
  simp only [Position.ofIndex, indexToHeight_root node, Position.rightChild, pos, if_true, Span.right_height,
    Option.some.injEq, Position.mk.injEq, and_true]
  omega

end Family

section Neighbours

variable {s : Span}

theorem sibling_sibling (node : IsNode s) :
    (Position.ofIndex s.root).sibling.sibling = Position.ofIndex s.root := by
  rcases isLeftChild_or_isRightChild node with ⟨p, pn, pos, rfl⟩ | ⟨p, pn, pos, rfl⟩
  · rw [sibling_left pn pos, sibling_right pn pos]
  · rw [sibling_right pn pos, sibling_left pn pos]

/-- The neighbours of a node's position are the positions of its neighbours in the range: its
sibling is the parent's other child, its `parent` the parent, and the parent's child on the
node's side the node again. -/
theorem parent_spec (node : IsNode s) :
    ∃ p, IsNode p ∧ 0 < p.height ∧
      ((p.left = s ∧ (Position.ofIndex s.root).sibling = Position.ofIndex p.right.root) ∨
        (p.right = s ∧ (Position.ofIndex s.root).sibling = Position.ofIndex p.left.root)) ∧
      (Position.ofIndex s.root).parent = Position.ofIndex p.root ∧
      (if (Position.ofIndex s.root).rightNode then (Position.ofIndex p.root).rightChild
        else (Position.ofIndex p.root).leftChild) = some (Position.ofIndex s.root) := by
  rcases isLeftChild_or_isRightChild node with ⟨p, pn, pos, rfl⟩ | ⟨p, pn, pos, rfl⟩
  · refine ⟨p, pn, pos, .inl ⟨rfl, sibling_left pn pos⟩, parent_left pn pos, ?_⟩
    rw [leftChild_root pn pos, ofIndex_left pn pos]
    rfl
  · refine ⟨p, pn, pos, .inr ⟨rfl, sibling_right pn pos⟩, parent_right pn pos, ?_⟩
    rw [rightChild_root pn pos, ofIndex_right pn pos]
    rfl

theorem leftmostLeaf_eq (node : IsNode s) :
    s.leaves.head?.map (fun leaf => Position.ofIndex leaf.root) = some (Position.ofIndex s.root).leftmostLeaf := by
  rw [Span.head?_leaves, Option.map_some, Span.root_leaf, Option.some.injEq]
  by_cases zero : s.height = 0
  · have start : s.root = s.start := by simp [Span.root, zero, size]
    rw [Position.leftmostLeaf, if_pos (by simp [Position.ofIndex, indexToHeight_root node, zero]), start]
  · obtain ⟨p, mem, pos, first⟩ := Span.exists_parent_of_first_leaf (Nat.pos_of_ne_zero zero)
    have leftmost := ofIndex_left (isNode_of_mem node mem) pos
    have offset := s.root_add_one
    have width := size_add_one s.height
    rw [first, Span.root_leaf] at leftmost
    rw [leftmost, Position.leftmostLeaf, if_neg (by simp [Position.ofIndex, indexToHeight_root node, zero])]
    simp only [Position.ofIndex, indexToHeight_root node, Position.mk.injEq, and_true]
    omega

theorem rightmostLeaf_eq (node : IsNode s) :
    s.leaves.getLast?.map (fun leaf => Position.ofIndex leaf.root) = some (Position.ofIndex s.root).rightmostLeaf := by
  rw [Span.getLast?_leaves, Option.map_some, Span.root_leaf, Option.some.injEq]
  by_cases zero : s.height = 0
  · rw [Position.rightmostLeaf, if_pos (by simp [Position.ofIndex, indexToHeight_root node, zero]), zero,
      Nat.sub_zero]
  · obtain ⟨p, mem, pos, last⟩ := Span.exists_parent_of_last_leaf (Nat.pos_of_ne_zero zero)
    have rightmost := ofIndex_right (isNode_of_mem node mem) pos
    rw [last, Span.root_leaf] at rightmost
    rw [rightmost, Position.rightmostLeaf, if_neg (by simp [Position.ofIndex, indexToHeight_root node, zero])]
    simp [Position.ofIndex, indexToHeight_root node]

end Neighbours

section Leaves

theorem leafNumberToIndex_two_pow_add {t r : Nat} (small : r < 2 ^ t) :
    leafNumberToIndex (2 ^ t + r) = size t + leafNumberToIndex r := by
  have ones := countOnes_two_pow_add small
  have few : countOnes r ≤ r := by
    rw [countOnes_eq]
    exact length_bitIndices_le r
  have width := size_add_one t
  rw [Nat.pow_succ] at width
  unfold leafNumberToIndex
  omega

/-- The leaves of the tree of height H are, left to right, at the indices of the leaf numbers
below 2^H. -/
theorem map_root_leaves (H : Nat) :
    (⟨H, 0⟩ : Span).leaves.map Span.root = (List.range (2 ^ H)).map leafNumberToIndex := by
  induction H with
  | zero => rfl
  | succ H ih =>
    have left : (⟨H + 1, 0⟩ : Span).left = ⟨H, 0⟩ := rfl
    have right : (⟨H + 1, 0⟩ : Span).right = (⟨H, 0⟩ : Span).shift (size H) := by
      simp [Span.right, Span.shift]
    have shifted : ((⟨H, 0⟩ : Span).leaves.map (Span.shift (size H))).map Span.root =
        ((⟨H, 0⟩ : Span).leaves.map Span.root).map (· + size H) := by
      simp [Function.comp_def, Span.root_shift]
    rw [Span.leaves_node (by simp), left, right, Span.leaves_shift, List.map_append, shifted, ih,
      Nat.pow_succ, Nat.mul_two, List.range_add, List.map_append, List.map_map, List.map_map]
    congr 1
    apply List.map_congr_left
    intro r mem
    simp only [Function.comp_apply, leafNumberToIndex_two_pow_add (List.mem_range.mp mem)]
    omega

/-- `leaf_number_to_index` is strictly increasing: leaves come in post-order by index. -/
theorem leafNumberToIndex_strictMono : StrictMono leafNumberToIndex := by
  intro n m lt
  have increasing : ((⟨m, 0⟩ : Span).leaves.map Span.root).Pairwise (· < ·) := by
    have sorted := List.pairwise_lt_range' (s := 0) (n := size m)
    rw [show (0 : Nat) = (⟨m, 0⟩ : Span).start from rfl, show size m = size (⟨m, 0⟩ : Span).height from rfl,
      ← Span.map_root_subtrees] at sorted
    exact sorted.sublist (List.filter_sublist.map _)
  rw [map_root_leaves, List.pairwise_map, List.pairwise_iff_getElem] at increasing
  have room : m < 2 ^ m := Nat.lt_two_pow_self
  have ordered := increasing n m (by simp; omega) (by simp; omega) lt
  simp only [List.getElem_range] at ordered
  exact ordered

theorem isLeaf_iff (i : Nat) : (∃ s, IsNode s ∧ s.height = 0 ∧ s.root = i) ↔ ∃ n, leafNumberToIndex n = i := by
  constructor
  · rintro ⟨s, ⟨H, inside⟩, leaf, rfl⟩
    have mem : s.root ∈ (⟨H, 0⟩ : Span).leaves.map Span.root :=
      List.mem_map_of_mem (Span.mem_leaves.mpr ⟨inside, leaf⟩)
    rw [map_root_leaves, List.mem_map] at mem
    obtain ⟨n, -, eq⟩ := mem
    exact ⟨n, eq⟩
  · rintro ⟨n, rfl⟩
    have mem : leafNumberToIndex n ∈ (⟨n, 0⟩ : Span).leaves.map Span.root := by
      rw [map_root_leaves]
      exact List.mem_map_of_mem (List.mem_range.mpr Nat.lt_two_pow_self)
    obtain ⟨s, leaf, eq⟩ := List.mem_map.mp mem
    obtain ⟨inside, zero⟩ := Span.mem_leaves.mp leaf
    exact ⟨s, ⟨n, inside⟩, zero, eq⟩

end Leaves

end Albatross.Mmr
