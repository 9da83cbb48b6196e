import Mathlib

/- Perfect binary trees laid out in post-order: the left subtree, then the right subtree, then
   the root. A tree of height h then takes 2^(h+1) - 1 consecutive indices, its root last, and
   a subtree is named by its height and the index of its first node. Forests of such trees
   side by side are layouts. Nothing here refers to a particular program. -/
namespace PerfectTree

/-- The number of nodes of a perfect binary tree of height h. -/
def size (h : Nat) : Nat := 2 ^ (h + 1) - 1

theorem size_add_one (h : Nat) : size h + 1 = 2 ^ (h + 1) := by
  have := Nat.one_le_two_pow (n := h + 1)
  unfold size
  omega

theorem size_succ (h : Nat) : size (h + 1) = 2 * size h + 1 := by
  have low := size_add_one h
  have high := size_add_one (h + 1)
  rw [Nat.pow_succ] at high
  omega

theorem one_le_size (h : Nat) : 1 ≤ size h := by
  have := Nat.one_lt_two_pow (n := h + 1) (by omega)
  unfold size
  omega

theorem size_le_size {g h : Nat} (le : g ≤ h) : size g ≤ size h := by
  have := Nat.pow_le_pow_right (n := 2) (by omega) (show g + 1 ≤ h + 1 by omega)
  unfold size
  omega

theorem size_le_iff (g x : Nat) : size g ≤ x ↔ g + 1 ≤ Nat.log2 (x + 1) := by
  rw [Nat.le_log2 (by omega), ← size_add_one]
  omega

/-- A subtree: its height and the index of its first node. -/
structure Span where
  height : Nat
  start : Nat
  deriving DecidableEq, Repr

namespace Span

/-- The root comes last. -/
def root (s : Span) : Nat := s.start + size s.height - 1

def left (s : Span) : Span := ⟨s.height - 1, s.start⟩

def right (s : Span) : Span := ⟨s.height - 1, s.start + size (s.height - 1)⟩

def shift (c : Nat) (s : Span) : Span := ⟨s.height, s.start + c⟩

end Span

/-- The subtrees of the tree of height h whose first node is b, in post-order. -/
def postOrder : Nat → Nat → List Span
  | 0, b => [⟨0, b⟩]
  | h + 1, b => postOrder h b ++ postOrder h (b + size h) ++ [⟨h + 1, b⟩]

namespace Span

def subtrees (s : Span) : List Span := postOrder s.height s.start

/-- The leaves below, left to right. -/
def leaves (s : Span) : List Span := s.subtrees.filter (·.height = 0)

/-- Induction over a tree's shape: a leaf, or a node over its two subtrees. -/
@[elab_as_elim]
theorem induction {motive : Span → Prop} (leaf : ∀ b, motive ⟨0, b⟩)
    (node : ∀ s : Span, 0 < s.height → motive s.left → motive s.right → motive s) (s : Span) :
    motive s := by
  obtain ⟨h, b⟩ := s
  induction h generalizing b with
  | zero => exact leaf b
  | succ h ih => exact node ⟨h + 1, b⟩ (by simp) (ih b) (ih _)

section Arithmetic

variable {s : Span}

theorem root_add_one (s : Span) : s.root + 1 = s.start + size s.height := by
  have := one_le_size s.height
  unfold root
  omega

@[simp] theorem root_leaf (b : Nat) : (⟨0, b⟩ : Span).root = b := rfl

@[simp] theorem left_height : s.left.height = s.height - 1 := rfl

@[simp] theorem right_height : s.right.height = s.height - 1 := rfl

@[simp] theorem left_start : s.left.start = s.start := rfl

@[simp] theorem shift_height (c : Nat) : (s.shift c).height = s.height := rfl

theorem root_shift (c : Nat) : (s.shift c).root = s.root + c := by
  have := s.root_add_one
  have := (s.shift c).root_add_one
  simp only [shift] at *
  omega

theorem size_height (pos : 0 < s.height) : size s.height = 2 * size (s.height - 1) + 1 := by
  rw [← size_succ, Nat.sub_add_cancel pos]

theorem left_root_add_one : s.left.root + 1 = s.right.start := by
  have := s.left.root_add_one
  simp only [left, right] at *
  omega

theorem right_root_add_one (pos : 0 < s.height) : s.right.root + 1 = s.root := by
  have := s.right.root_add_one
  have := s.root_add_one
  have := size_height pos
  simp only [right] at *
  omega

theorem left_root_add_size : s.left.root + size (s.height - 1) = s.right.root := by
  have := s.left_root_add_one
  have := s.right.root_add_one
  simp only [right] at *
  omega

/-- A tree of height h has at least `2 h + 1` nodes, so its root is at least `2 h`. -/
theorem two_mul_height_le_root (s : Span) : 2 * s.height ≤ s.root := by
  have ends := s.root_add_one
  have width := size_add_one s.height
  have grows : s.height < 2 ^ s.height := Nat.lt_two_pow_self
  rw [Nat.pow_succ] at width
  omega

theorem left_root_add_two_pow (pos : 0 < s.height) : s.left.root + 2 ^ s.height = s.root := by
  have := s.left_root_add_size
  have := right_root_add_one pos
  have := size_add_one (s.height - 1)
  rw [Nat.sub_add_cancel pos] at this
  omega

end Arithmetic

theorem subtrees_leaf (b : Nat) : (⟨0, b⟩ : Span).subtrees = [⟨0, b⟩] := rfl

theorem subtrees_node {s : Span} (pos : 0 < s.height) :
    s.subtrees = s.left.subtrees ++ s.right.subtrees ++ [s] := by
  obtain ⟨_ | h, b⟩ := s
  · contradiction
  · rfl

theorem mem_subtrees_self (s : Span) : s ∈ s.subtrees := by
  induction s using Span.induction with
  | leaf b => simp [subtrees_leaf]
  | node s pos _ _ => simp [subtrees_node pos]

theorem left_mem_subtrees {s : Span} (pos : 0 < s.height) : s.left ∈ s.subtrees := by
  simp [subtrees_node pos, mem_subtrees_self]

theorem right_mem_subtrees {s : Span} (pos : 0 < s.height) : s.right ∈ s.subtrees := by
  simp [subtrees_node pos, mem_subtrees_self]

theorem mem_subtrees_trans {s p q : Span} (below : q ∈ p.subtrees) (inside : p ∈ s.subtrees) :
    q ∈ s.subtrees := by
  induction s using Span.induction with
  | leaf b =>
    simp only [subtrees_leaf, List.mem_singleton] at inside
    rwa [← inside]
  | node s pos inLeft inRight =>
    rw [subtrees_node pos] at inside ⊢
    simp only [List.mem_append, List.mem_singleton] at inside ⊢
    rcases inside with (left | right) | rfl
    · exact .inl (.inl (inLeft left))
    · exact .inl (.inr (inRight right))
    · rw [subtrees_node pos] at below
      simpa [or_assoc] using below

theorem map_root_subtrees (s : Span) : s.subtrees.map root = List.range' s.start (size s.height) := by
  induction s using Span.induction with
  | leaf b => rfl
  | node s pos inLeft inRight =>
    have rootAt : s.root = s.start + (size (s.height - 1) + size (s.height - 1)) := by
      have := s.root_add_one
      have := size_height pos
      omega
    rw [subtrees_node pos, List.map_append, List.map_append, inLeft, inRight,
      show size s.height = size (s.height - 1) + size (s.height - 1) + 1 by rw [size_height pos]; omega,
      ← List.range'_append_1, ← List.range'_append_1, List.range'_one]
    simp [right, rootAt]

theorem root_mem_of_mem {s q : Span} (inside : q ∈ s.subtrees) : s.start ≤ q.root ∧ q.root ≤ s.root := by
  have mem := List.mem_map_of_mem (f := root) inside
  rw [map_root_subtrees, List.mem_range'_1] at mem
  have := s.root_add_one
  omega

theorem subtrees_shift (c : Nat) (s : Span) : (s.shift c).subtrees = s.subtrees.map (shift c) := by
  induction s using Span.induction with
  | leaf b => rfl
  | node s pos inLeft inRight =>
    have shiftLeft : (s.shift c).left = s.left.shift c := rfl
    have shiftRight : (s.shift c).right = s.right.shift c := by
      simp only [shift, right, Span.mk.injEq, true_and]
      omega
    rw [subtrees_node (by simpa using pos), subtrees_node pos, shiftLeft, shiftRight, inLeft, inRight]
    simp

/-- The nodes on the left edge: the subtree of every height below s that starts where s does. -/
theorem leftSpine_mem {s : Span} {k : Nat} (low : k ≤ s.height) : (⟨k, s.start⟩ : Span) ∈ s.subtrees := by
  induction s using Span.induction with
  | leaf b =>
    obtain rfl : k = 0 := by simpa using low
    exact mem_subtrees_self _
  | node s pos inLeft _ =>
    by_cases top : k = s.height
    · subst top
      exact mem_subtrees_self s
    · exact mem_subtrees_trans (inLeft (by simp; omega)) (left_mem_subtrees pos)

theorem start_le_of_mem {s q : Span} (inside : q ∈ s.subtrees) : s.start ≤ q.start := by
  have leaf := mem_subtrees_trans (leftSpine_mem (s := q) (Nat.zero_le _)) inside
  simpa [root, size] using (root_mem_of_mem leaf).1

theorem exists_parent {s q : Span} (inside : q ∈ s.subtrees) (proper : q ≠ s) :
    ∃ p ∈ s.subtrees, 0 < p.height ∧ (p.left = q ∨ p.right = q) := by
  induction s using Span.induction with
  | leaf b => simp_all [subtrees_leaf]
  | node s pos inLeft inRight =>
    rw [subtrees_node pos] at inside
    simp only [List.mem_append, List.mem_singleton] at inside
    have lift {p : Span} (sub : p ∈ s.left.subtrees ∨ p ∈ s.right.subtrees) : p ∈ s.subtrees :=
      sub.elim (mem_subtrees_trans · (left_mem_subtrees pos)) (mem_subtrees_trans · (right_mem_subtrees pos))
    rcases inside with (left | right) | rfl
    · by_cases top : q = s.left
      · exact ⟨s, mem_subtrees_self s, pos, .inl top.symm⟩
      · obtain ⟨p, mem, parent⟩ := inLeft left top
        exact ⟨p, lift (.inl mem), parent⟩
    · by_cases top : q = s.right
      · exact ⟨s, mem_subtrees_self s, pos, .inr top.symm⟩
      · obtain ⟨p, mem, parent⟩ := inRight right top
        exact ⟨p, lift (.inr mem), parent⟩
    · exact absurd rfl proper

theorem height_le_of_mem {s q : Span} (inside : q ∈ s.subtrees) : q.height ≤ s.height := by
  induction s using Span.induction with
  | leaf b => simp_all [subtrees_leaf]
  | node s pos inLeft inRight =>
    rw [subtrees_node pos] at inside
    simp only [List.mem_append, List.mem_singleton] at inside
    rcases inside with (left | right) | rfl
    · exact (inLeft left).trans (by simp)
    · exact (inRight right).trans (by simp)
    · exact le_rfl

theorem height_lt_of_mem {s q : Span} (inside : q ∈ s.subtrees) (proper : q ≠ s) : q.height < s.height := by
  obtain ⟨p, mem, pos, child⟩ := exists_parent inside proper
  have below : q.height = p.height - 1 := by rcases child with rfl | rfl <;> rfl
  have := height_le_of_mem mem
  omega

/-- Nodes of one tree are nested or apart: one whose root lies in q's indices is below q. -/
theorem mem_subtrees_of_root_mem {s p q : Span} (hp : p ∈ s.subtrees) (hq : q ∈ s.subtrees)
    (within : q.start ≤ p.root ∧ p.root ≤ q.root) : p ∈ q.subtrees := by
  induction s using Span.induction with
  | leaf b =>
    simp only [subtrees_leaf, List.mem_singleton] at hp hq
    subst hp hq
    exact mem_subtrees_self _
  | node s pos inLeft inRight =>
    have next := s.left_root_add_one
    have last := right_root_add_one pos
    have rightSpan := s.right.root_add_one
    rw [subtrees_node pos] at hp hq
    simp only [List.mem_append, List.mem_singleton] at hp hq
    rcases hq with (ql | qr) | rfl
    · rcases hp with (pl | pr) | rfl
      · exact inLeft pl ql
      · have := (root_mem_of_mem pr).1
        have := (root_mem_of_mem ql).2
        omega
      · have := (root_mem_of_mem ql).2
        omega
    · rcases hp with (pl | pr) | rfl
      · have := (root_mem_of_mem pl).2
        have := start_le_of_mem qr
        omega
      · exact inRight pr qr
      · have := (root_mem_of_mem qr).2
        omega
    · rw [subtrees_node pos]
      simpa [or_assoc] using hp

section Leaves

theorem leaves_node {s : Span} (pos : 0 < s.height) : s.leaves = s.left.leaves ++ s.right.leaves := by
  simp [leaves, subtrees_node pos, List.filter_append, Nat.pos_iff_ne_zero.mp pos]

theorem leaves_shift (c : Nat) (s : Span) : (s.shift c).leaves = s.leaves.map (shift c) := by
  simp only [leaves, subtrees_shift, List.filter_map]
  rfl

theorem mem_leaves {s q : Span} : q ∈ s.leaves ↔ q ∈ s.subtrees ∧ q.height = 0 := by
  simp [leaves]

theorem head?_leaves (s : Span) : s.leaves.head? = some ⟨0, s.start⟩ := by
  induction s using Span.induction with
  | leaf b => rfl
  | node s pos inLeft _ => simp [leaves_node pos, List.head?_append, inLeft]

/-- The last leaf is `height` below the root, which comes after the right edge. -/
theorem getLast?_leaves (s : Span) : s.leaves.getLast? = some ⟨0, s.root - s.height⟩ := by
  induction s using Span.induction with
  | leaf b => simp [leaves, subtrees_leaf, root, size]
  | node s pos _ inRight =>
    have := right_root_add_one pos
    rw [leaves_node pos, List.getLast?_append, inRight]
    simp only [right_height, Option.some_or, Option.some.injEq, Span.mk.injEq, true_and]
    omega

theorem exists_parent_of_first_leaf {s : Span} (pos : 0 < s.height) :
    ∃ p ∈ s.subtrees, 0 < p.height ∧ p.left = ⟨0, s.start⟩ := by
  refine ⟨⟨1, s.start⟩, leftSpine_mem pos, by simp, rfl⟩

theorem exists_parent_of_last_leaf {s : Span} (pos : 0 < s.height) :
    ∃ p ∈ s.subtrees, 0 < p.height ∧ p.right = ⟨0, s.root - s.height⟩ := by
  induction s using Span.induction with
  | leaf b => simp at pos
  | node s pos _ inRight =>
    have last := right_root_add_one pos
    by_cases one : s.height = 1
    · refine ⟨s, mem_subtrees_self s, pos, ?_⟩
      have := s.right.root_add_one
      simp only [right, Span.mk.injEq, one] at *
      simp [size] at *
      omega
    · obtain ⟨p, mem, low, child⟩ := inRight (by simp; omega)
      refine ⟨p, mem_subtrees_trans mem (right_mem_subtrees pos), low, ?_⟩
      rw [child]
      simp only [right_height, Span.mk.injEq, true_and]
      omega

end Leaves

end Span

/-- Trees of the given heights laid out one after another from index b. -/
def layout : Nat → List Nat → List Span
  | _, [] => []
  | b, h :: hs => ⟨h, b⟩ :: layout (b + size h) hs

theorem layout_shift (b c : Nat) (hs : List Nat) : layout (b + c) hs = (layout b hs).map (Span.shift c) := by
  induction hs generalizing b with
  | nil => rfl
  | cons h hs ih =>
    simp only [layout, List.map_cons, Span.shift, Nat.add_right_comm b c, ih]

theorem map_height_layout (b : Nat) (hs : List Nat) : (layout b hs).map Span.height = hs := by
  induction hs generalizing b with
  | nil => rfl
  | cons h hs ih => simp [layout, ih]

theorem layout_append (b h : Nat) (hs : List Nat) :
    layout b (hs ++ [h]) = layout b hs ++ [⟨h, b + (hs.map size).sum⟩] := by
  induction hs generalizing b with
  | nil => simp [layout]
  | cons g hs ih => simp [layout, ih, Nat.add_assoc]

theorem sum_size_lt {hs : List Nat} {h : Nat} (desc : hs.Pairwise (· > ·)) (below : ∀ x ∈ hs, x < h) :
    (hs.map size).sum < size h := by
  induction hs generalizing h with
  | nil =>
    simp only [List.map_nil, List.sum_nil]
    exact one_le_size h
  | cons x hs ih =>
    rw [List.pairwise_cons] at desc
    have rest := ih desc.2 desc.1
    have step := size_le_size (below x (by simp))
    rw [size_succ] at step
    simp only [List.map_cons, List.sum_cons]
    omega

/-- Trees of strictly decreasing heights laid out from 0 are subtrees of every higher tree
that starts at 0. -/
theorem layout_mem_subtrees {hs : List Nat} {T : Nat} (desc : hs.Pairwise (· > ·)) (below : ∀ x ∈ hs, x < T) :
    ∀ m ∈ layout 0 hs, m ∈ (⟨T, 0⟩ : Span).subtrees := by
  induction hs generalizing T with
  | nil => simp [layout]
  | cons t hs ih =>
    rw [List.pairwise_cons] at desc
    have top := below t (by simp)
    intro m mem
    simp only [layout, Nat.zero_add, List.mem_cons] at mem
    rcases mem with rfl | later
    · exact Span.leftSpine_mem (by simp; omega)
    · rw [show size t = 0 + size t from (Nat.zero_add _).symm, layout_shift, List.mem_map] at later
      obtain ⟨m', mem', rfl⟩ := later
      have inRight : m'.shift (size t) ∈ (⟨t + 1, 0⟩ : Span).right.subtrees := by
        rw [show (⟨t + 1, 0⟩ : Span).right = (⟨t, 0⟩ : Span).shift (size t) by simp [Span.right, Span.shift],
          Span.subtrees_shift]
        exact List.mem_map_of_mem (ih desc.2 desc.1 m' mem')
      exact Span.mem_subtrees_trans (Span.mem_subtrees_trans inRight (Span.right_mem_subtrees (by simp)))
        (Span.leftSpine_mem (s := ⟨T, 0⟩) (by simp; omega))

end PerfectTree
