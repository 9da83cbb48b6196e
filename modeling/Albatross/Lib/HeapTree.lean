import Mathlib

/- Hash trees: binary trees with values at their leaves, the pairing of a level of nodes into the level
   above, and the complete binary tree in heap layout, where node `i` has its children at
   `2 * i + 1` and `2 * i + 2`. Levels that each pair up the next one, all full but the
   lowest, are the levels of the heap-shaped tree. -/
namespace Albatross

/-- The three hashes of a hash tree: of the empty tree, of an inner node from its children's
hashes, and of a leaf from its item. -/
structure TreeHasher (H T : Type) where
  hashEmpty : H
  hashBranch : H → H → H
  hashLeaf : T → H

inductive BinTree (α : Type) where
  | leaf (value : α)
  | node (left right : BinTree α)
  deriving DecidableEq

namespace BinTree

variable {α β : Type}

def leaves : BinTree α → List α
  | leaf a => [a]
  | node l r => l.leaves ++ r.leaves

def fold (onLeaf : α → β) (onNode : β → β → β) : BinTree α → β
  | leaf a => onLeaf a
  | node l r => onNode (l.fold onLeaf onNode) (r.fold onLeaf onNode)

def shape : BinTree α → BinTree Unit
  | leaf _ => leaf ()
  | node l r => node l.shape r.shape

/-- Labels the leaves of a shape left to right; what is left of the values comes back. -/
def fill : BinTree Unit → List α → Option (BinTree α × List α)
  | leaf _, [] => none
  | leaf _, a :: rest => some (leaf a, rest)
  | node l r, values => do
    let (left, values) ← fill l values
    let (right, values) ← fill r values
    pure (node left right, values)

theorem fill_shape (t : BinTree α) (rest : List α) : fill t.shape (t.leaves ++ rest) = some (t, rest) := by
  induction t generalizing rest with
  | leaf a => rfl
  | node l r ihl ihr =>
    simp only [shape, leaves, fill, List.append_assoc, ihl, ihr, Option.bind_eq_bind,
      Option.bind_some, Option.pure_def]

/-- The shape below node `i` of the complete binary tree of `size` nodes in heap layout. -/
def heapShape (size i : Nat) : BinTree Unit :=
  if 2 * i + 2 < size then node (heapShape size (2 * i + 1)) (heapShape size (2 * i + 2)) else leaf ()
termination_by size - i

theorem heapShape_inner {size i : Nat} (inner : 2 * i + 2 < size) :
    heapShape size i = node (heapShape size (2 * i + 1)) (heapShape size (2 * i + 2)) := by
  rw [heapShape, if_pos inner]

theorem heapShape_outer {size i : Nat} (outer : ¬ 2 * i + 2 < size) : heapShape size i = leaf () := by
  rw [heapShape, if_neg outer]

end BinTree

open BinTree

variable {α β : Type}

/-- Adjacent members joined: a level of nodes to the level above. -/
def pairUp (join : α → α → α) : List α → List α
  | [] => []
  | [_] => []
  | a :: b :: rest => join a b :: pairUp join rest

@[simp] theorem length_pairUp (join : α → α → α) (level : List α) :
    (pairUp join level).length = level.length / 2 := by
  induction level using pairUp.induct with
  | case1 => simp [pairUp]
  | case2 => simp [pairUp]
  | case3 a b rest ih =>
    simp only [pairUp, List.length_cons, ih]
    omega

theorem getElem?_pairUp (join : α → α → α) (level : List α) (j : Nat) :
    (pairUp join level)[j]? =
      if 2 * j + 1 < level.length then join <$> level[2 * j]? <*> level[2 * j + 1]? else none := by
  induction level using pairUp.induct generalizing j with
  | case1 => simp [pairUp]
  | case2 => simp [pairUp]
  | case3 a b rest ih =>
    cases j with
    | zero => simp [pairUp]
    | succ j =>
      have shifted : 2 * (j + 1) = 2 * j + 1 + 1 := by omega
      simp only [pairUp, List.getElem?_cons_succ, ih, List.length_cons, shifted]
      split_ifs <;> first | rfl | omega

theorem pairUp_append (join : α → α → α) {front : List α} (even : front.length % 2 = 0) (back : List α) :
    pairUp join (front ++ back) = pairUp join front ++ pairUp join back := by
  induction front using pairUp.induct with
  | case1 => rfl
  | case2 => simp at even
  | case3 a b rest ih =>
    simp only [List.cons_append, pairUp, ih (by simp at even; omega), List.cons_append]

theorem pairUp_swap_reverse (join : α → α → α) {level : List α} (even : level.length % 2 = 0) :
    pairUp (fun a b => join b a) level.reverse = (pairUp join level).reverse := by
  induction level using pairUp.induct with
  | case1 => rfl
  | case2 => simp at even
  | case3 a b rest ih =>
    have restEven : rest.reverse.length % 2 = 0 := by simp at even ⊢; omega
    rw [List.reverse_cons, List.reverse_cons, List.append_assoc, List.singleton_append,
      pairUp_append _ restEven, ih (by simpa using restEven)]
    simp [pairUp]

theorem length_iterate_pairUp (join : α → α → α) (m : Nat) (level : List α) :
    ((pairUp join)^[m] level).length = level.length / 2 ^ m := by
  induction m generalizing level with
  | zero => simp
  | succ m ih =>
    rw [Function.iterate_succ_apply, ih, length_pairUp, Nat.div_div_eq_div_mul, Nat.pow_succ']

theorem getElem?_pairUp_eq_some {join : α → α → α} {level : List α} {j : Nat} {t : α}
    (found : (pairUp join level)[j]? = some t) :
    ∃ l r, level[2 * j]? = some l ∧ level[2 * j + 1]? = some r ∧ t = join l r := by
  rw [getElem?_pairUp] at found
  split_ifs at found with inside
  rw [List.getElem?_eq_getElem (by omega), List.getElem?_eq_getElem inside] at found
  exact ⟨_, _, List.getElem?_eq_getElem (by omega), List.getElem?_eq_getElem inside, (Option.some_injective _ found).symm⟩

theorem pairUp_map {join : α → α → α} {join' : β → β → β} {f : α → β}
    (hom : ∀ a b, f (join a b) = join' (f a) (f b)) (level : List α) :
    pairUp join' (level.map f) = (pairUp join level).map f := by
  induction level using pairUp.induct with
  | case1 => rfl
  | case2 => rfl
  | case3 a b rest ih => simp [pairUp, ih, hom]

theorem iterate_pairUp_map {join : α → α → α} {join' : β → β → β} {f : α → β}
    (hom : ∀ a b, f (join a b) = join' (f a) (f b)) (m : Nat) (level : List α) :
    (pairUp join')^[m] (level.map f) = ((pairUp join)^[m] level).map f := by
  induction m generalizing level with
  | zero => rfl
  | succ m ih => rw [Function.iterate_succ_apply, Function.iterate_succ_apply, pairUp_map hom, ih]

theorem flatMap_leaves_pairUp (level : List (BinTree α)) (even : level.length % 2 = 0) :
    (pairUp node level).flatMap leaves = level.flatMap leaves := by
  induction level using pairUp.induct with
  | case1 => rfl
  | case2 => simp at even
  | case3 a b rest ih =>
    simp only [pairUp, List.flatMap_cons, leaves, List.append_assoc]
    rw [ih (by simp at even; omega)]

theorem flatMap_leaves_iterate_pairUp (m : Nat) (level : List (BinTree α))
    (divides : 2 ^ m ∣ level.length) :
    ((pairUp node)^[m] level).flatMap leaves = level.flatMap leaves := by
  induction m generalizing level with
  | zero => rfl
  | succ m ih =>
    obtain ⟨c, hc⟩ := divides
    rw [Nat.pow_succ', Nat.mul_assoc] at hc
    have even : level.length % 2 = 0 := by omega
    rw [Function.iterate_succ_apply, ih _ ⟨c, by rw [length_pairUp]; omega⟩,
      flatMap_leaves_pairUp _ even]

/-- Levels of nodes, numbered from the top, each of whose nodes joins the two below it or is
a leaf where there are none: all full but the lowest, they are the levels of the heap-shaped
tree, node `j` of level `d` being node `2 ^ d - 1 + j` of the heap. The induction is upward
from the lowest level. -/
theorem heapShape_of_levels {D : Nat} (level : Nat → List (BinTree α))
    (full : ∀ d < D, (level d).length = 2 ^ d)
    (lowest : (level D).length ≤ 2 ^ D)
    (bottom : ∀ (j : Nat) t, (level D)[j]? = some t → ∃ a, t = leaf a)
    (joined : ∀ d < D, ∀ (j : Nat) t, (level d)[j]? = some t →
      (∃ l r, (level (d + 1))[2 * j]? = some l ∧ (level (d + 1))[2 * j + 1]? = some r ∧ t = node l r) ∨
      ((level (d + 1)).length ≤ 2 * j + 1 ∧ ∃ a, t = leaf a)) :
    ∀ d ≤ D, ∀ (j : Nat) t, (level d)[j]? = some t →
      heapShape (2 ^ D - 1 + (level D).length) (2 ^ d - 1 + j) = t.shape := by
  have above : ∀ d, 1 ≤ 2 ^ d := fun d => Nat.one_le_two_pow
  suffices climb : ∀ k, ∀ d, d + k = D → ∀ (j : Nat) t, (level d)[j]? = some t →
      heapShape (2 ^ D - 1 + (level D).length) (2 ^ d - 1 + j) = t.shape by
    intro d within j t found
    exact climb (D - d) d (by omega) j t found
  intro k
  induction k with
  | zero =>
    -- the lowest level holds leaves, which have no children in the heap
    intro d sum j t found
    obtain rfl : d = D := by omega
    obtain ⟨a, rfl⟩ := bottom j t found
    have inside : j < (level d).length := (List.getElem?_eq_some_iff.mp found).1
    have twice : 2 ^ (d + 1) = 2 * 2 ^ d := Nat.pow_succ'
    rw [heapShape_outer (by omega)]
    rfl
  | succ k ih =>
    intro d sum j t found
    have inside : j < (level d).length := (List.getElem?_eq_some_iff.mp found).1
    have levelFull := full d (by omega)
    have twice : 2 ^ (d + 1) = 2 * 2 ^ d := Nat.pow_succ'
    rcases joined d (by omega) j t found with ⟨l, r, foundL, foundR, rfl⟩ | ⟨short, a, rfl⟩
    · -- the children are nodes `2 * j` and `2 * j + 1` of the next level
      have rightInside : 2 * j + 1 < (level (d + 1)).length := (List.getElem?_eq_some_iff.mp foundR).1
      have below : 2 * (2 ^ d - 1 + j) + 2 < 2 ^ D - 1 + (level D).length := by
        by_cases last : d + 1 = D
        · subst last
          omega
        · have nextFull := full (d + 1) (by omega)
          have deeper : 2 ^ (d + 2) ≤ 2 ^ D := Nat.pow_le_pow_right (by decide) (by omega)
          have twice' : 2 ^ (d + 2) = 2 * 2 ^ (d + 1) := Nat.pow_succ'
          omega
      rw [heapShape_inner below, show 2 * (2 ^ d - 1 + j) + 1 = 2 ^ (d + 1) - 1 + 2 * j by omega,
        show 2 * (2 ^ d - 1 + j) + 2 = 2 ^ (d + 1) - 1 + (2 * j + 1) by omega,
        ih (d + 1) (by omega) _ l foundL, ih (d + 1) (by omega) _ r foundR]
      rfl
    · -- a leaf above the lowest level sits just above it, where the lowest level has run out
      have last : d + 1 = D := by
        by_contra notLast
        have nextFull := full (d + 1) (by omega)
        omega
      subst last
      rw [heapShape_outer (by omega)]
      rfl

end Albatross
