import Albatross.Lib.HeapTree

/- `TreeProof` (primitives/src/tree_proof.rs): the hashes of a list of items as the leaves of
   a complete binary tree kept in heap layout, whose root is the diff root of a block.
   `from_hashes` builds the heap bottom-up in a reversed vector: the leaves of the lowest
   level first, each level's parents pushed after it, and the whole reversed at the end.
   Its `hash_empty`, `hash_branch` and `hash_leaf` are the three hashes of a `TreeHasher`. -/
namespace Albatross

structure TreeProof (H : Type) where
  heap : List H

namespace TreeProof

variable {H T E : Type}

/-- `usize::next_power_of_two`: one more than the all-ones mask as wide as `n - 1`. -/
def nextPowerOfTwo (n : Nat) : Nat := if n ≤ 1 then 1 else 2 ^ (Nat.log2 (n - 1) + 1)

/-- `heap.push(hash_branch(&heap[idx + 1], &heap[idx]))`. -/
def pushParent (branch : E → E → E) (heap : List E) (idx : Nat) : Option (List E) := do
  let left ← heap[idx + 1]?
  let right ← heap[idx]?
  pure (heap ++ [branch left right])

/-- One turn of the `while` loop: a parent pushed for each `idx` of the nodes `start .. stop`,
stepping by two. -/
def pushParents (branch : E → E → E) (heap : List E) (start stop : Nat) : Option (List E) :=
  (List.range' start ((stop - start + 1) / 2) 2).foldlM (pushParent branch) heap

/-- The `while nodes.len() > 1` loop, the next nodes being the parents just pushed; `fuel`
bounds its turns. -/
def pairLevels (branch : E → E → E) : Nat → List E → Nat → Nat → Option (List E)
  | 0, _, _, _ => none
  | fuel + 1, heap, start, stop =>
    if stop - start > 1 then do
      let heap ← pushParents branch heap start stop
      pairLevels branch fuel heap stop heap.length
    else some heap

def fromHashes (branch : E → E → E) (hashes : List E) : Option (List E) :=
  if hashes = [] then some []
  else
    let numberOfLeavesPerfectTree := nextPowerOfTwo hashes.length
    let numberOfLeavesOnLastLevel := hashes.length * 2 - numberOfLeavesPerfectTree
    let expectedSize := numberOfLeavesPerfectTree - 1 + numberOfLeavesOnLastLevel
    -- the subtractions, `reserve_exact` and `rotate_left` panic out of range
    if hashes.length * 2 < numberOfLeavesPerfectTree ∨ expectedSize < hashes.length ∨
        hashes.length < numberOfLeavesOnLastLevel then none
    else do
      let heap := (hashes.drop numberOfLeavesOnLastLevel ++ hashes.take numberOfLeavesOnLastLevel).reverse
      let heap ← pairLevels branch hashes.length heap 0 numberOfLeavesOnLastLevel
      let heap := heap.reverse
      if heap.length = expectedSize then some heap else none

def new (hasher : TreeHasher H T) (items : List T) : Option (TreeProof H) :=
  (fromHashes hasher.hashBranch (items.map hasher.hashLeaf)).map TreeProof.mk

def rootHash (hasher : TreeHasher H T) (proof : TreeProof H) : H := proof.heap.head?.getD hasher.hashEmpty

/-- The root of the complete binary tree in heap layout whose leaves, left to right, are
`leaves`: `hash_empty` for none, `hash_branch` at each inner node. -/
def completeRoot (hasher : TreeHasher H T) (leaves : List H) : Option H :=
  if leaves = [] then some hasher.hashEmpty
  else
    match BinTree.fill (BinTree.heapShape (2 * leaves.length - 1) 0) leaves with
    | some (tree, []) => some (tree.fold id hasher.hashBranch)
    | _ => none

section Build

variable (branch : E → E → E)

/-- The loop pairs the nodes it runs over from their front: reading the reversed level, it
pushes the reversed level above. The induction is on the nodes, two at a time. -/
theorem foldlM_pushParent (pre nodes post : List E) (even : nodes.length % 2 = 0) :
    (List.range' pre.length (nodes.length / 2) 2).foldlM (pushParent branch) (pre ++ nodes ++ post) =
      some (pre ++ nodes ++ post ++ pairUp (fun a b => branch b a) nodes) := by
  induction nodes using pairUp.induct generalizing pre post with
  | case1 => simp [pairUp]
  | case2 => simp at even
  | case3 a b rest ih =>
    have count : (a :: b :: rest).length / 2 = rest.length / 2 + 1 := by simp; omega
    have first : pushParent branch (pre ++ a :: b :: rest ++ post) pre.length =
        some ((pre ++ [a, b]) ++ rest ++ (post ++ [branch b a])) := by
      simp [pushParent]
    rw [count, List.range'_succ, List.foldlM_cons, first, Option.bind_eq_bind, Option.bind_some,
      show pre.length + 2 = (pre ++ [a, b]).length by simp, ih _ _ (by simp at even; omega)]
    simp [pairUp]

theorem pushParents_eq (pre nodes post : List E) (even : nodes.length % 2 = 0) :
    pushParents branch (pre ++ nodes ++ post) pre.length (pre.length + nodes.length) =
      some (pre ++ nodes ++ post ++ pairUp (fun a b => branch b a) nodes) := by
  rw [pushParents, show (pre.length + nodes.length - pre.length + 1) / 2 = nodes.length / 2 by omega,
    foldlM_pushParent branch pre nodes post even]

/-- The levels above a full level, each reversed, as the loop pushes them. -/
def upperLevels : Nat → List E → List E
  | 0, _ => []
  | k + 1, level => (pairUp branch level).reverse ++ upperLevels k (pairUp branch level)

theorem length_upperLevels (k : Nat) : ∀ level : List E, level.length = 2 ^ k →
    (upperLevels branch k level).length = 2 ^ k - 1 := by
  induction k with
  | zero => intro level _; rfl
  | succ k ih =>
    intro level full
    have half : (pairUp branch level).length = 2 ^ k := by
      rw [length_pairUp, full, Nat.pow_succ, Nat.mul_div_cancel _ (by decide)]
    have positive := Nat.one_le_two_pow (n := k)
    rw [upperLevels, List.length_append, List.length_reverse, ih _ half, half, Nat.pow_succ]
    omega

/-- From a full level of `2 ^ k` nodes the loop pushes the `k` levels above it. The induction
is on `k`, the level just pushed becoming the nodes of the next turn. -/
theorem pairLevels_full (k : Nat) : ∀ (pre level : List E) (fuel : Nat), level.length = 2 ^ k → k < fuel →
    pairLevels branch fuel (pre ++ level.reverse) pre.length (pre.length + level.length) =
      some (pre ++ level.reverse ++ upperLevels branch k level) := by
  induction k with
  | zero =>
    intro pre level fuel single more
    obtain ⟨fuel, rfl⟩ : ∃ f, fuel = f + 1 := ⟨fuel - 1, by omega⟩
    simp [pairLevels, single, upperLevels]
  | succ k ih =>
    intro pre level fuel full more
    obtain ⟨fuel, rfl⟩ : ∃ f, fuel = f + 1 := ⟨fuel - 1, by omega⟩
    have even : level.length % 2 = 0 := by rw [full, Nat.pow_succ]; omega
    have several : pre.length + level.length - pre.length > 1 := by
      have := Nat.one_le_two_pow (n := k)
      rw [full, Nat.pow_succ]
      omega
    have half : (pairUp branch level).length = 2 ^ k := by
      rw [length_pairUp, full, Nat.pow_succ, Nat.mul_div_cancel _ (by decide)]
    have pushed := pushParents_eq branch pre level.reverse [] (by simpa using even)
    rw [List.append_nil, List.length_reverse, pairUp_swap_reverse _ even] at pushed
    rw [pairLevels, if_pos several, pushed, Option.bind_eq_bind, Option.bind_some,
      show pre.length + level.length = (pre ++ level.reverse).length by simp,
      show (pre ++ level.reverse ++ (pairUp branch level).reverse).length =
        (pre ++ level.reverse).length + (pairUp branch level).length by simp; omega,
      ih _ _ fuel half (by omega), upperLevels, List.append_assoc]

/-- The level above the lowest: the parents of the lowest level's `count` leaves, then the
leaves that sit one level up. -/
def secondLevel (count : Nat) (hashes : List E) : List E :=
  pairUp branch (hashes.take count) ++ hashes.drop count

end Build

/-- The sizes of the tree of `n ≥ 2` leaves: `2 ^ D` leaves in the perfect tree, of which
`2 * n - 2 ^ D`, an even number from 2 to `n`, sit on the lowest level. -/
theorem tree_sizes {n : Nat} (two : 2 ≤ n) :
    nextPowerOfTwo n = 2 ^ (Nat.log2 (n - 1) + 1) ∧ n ≤ 2 ^ (Nat.log2 (n - 1) + 1) ∧
      2 ^ (Nat.log2 (n - 1) + 1) ≤ 2 * (n - 1) ∧ Nat.log2 (n - 1) + 1 < n := by
  have above : n - 1 < 2 ^ (Nat.log2 (n - 1) + 1) := Nat.lt_log2_self
  have below : 2 ^ Nat.log2 (n - 1) ≤ n - 1 := Nat.log2_self_le (by omega)
  have twice : 2 ^ (Nat.log2 (n - 1) + 1) = 2 * 2 ^ Nat.log2 (n - 1) := Nat.pow_succ'
  refine ⟨by rw [nextPowerOfTwo, if_neg (by omega)], by omega, by omega, ?_⟩
  -- the height is below `n`, as `2 ^ D ≤ 2 * (n - 1) < 2 ^ n`
  have small : 2 * (n - 1) < 2 ^ n := by
    have := Nat.lt_two_pow_self (n := n - 1)
    have shift : 2 ^ n = 2 * 2 ^ (n - 1) := by rw [← Nat.pow_succ']; congr 1; omega
    omega
  have lower : 2 ^ (Nat.log2 (n - 1) + 1) < 2 ^ n := by omega
  exact (Nat.pow_lt_pow_iff_right (by decide)).mp lower

section Build

variable (branch : E → E → E)

/-- The second level has `2 ^ k` nodes: the parents of the lowest leaves, then the leaves one
level up. -/
theorem length_secondLevel {hashes : List E} (two : 2 ≤ hashes.length) :
    (secondLevel branch (hashes.length * 2 - 2 ^ (Nat.log2 (hashes.length - 1) + 1)) hashes).length =
      2 ^ Nat.log2 (hashes.length - 1) := by
  obtain ⟨-, fits, leaves, -⟩ := tree_sizes two
  have twice : 2 ^ (Nat.log2 (hashes.length - 1) + 1) = 2 * 2 ^ Nat.log2 (hashes.length - 1) := Nat.pow_succ'
  simp [secondLevel]
  omega

/-- For two leaves or more, `from_hashes` returns the levels of the tree top-down: the levels
above the second one, the second level, and the lowest leaves. -/
theorem fromHashes_eq {hashes : List E} (two : 2 ≤ hashes.length) :
    fromHashes branch hashes = some
      ((upperLevels branch (Nat.log2 (hashes.length - 1)) (secondLevel branch (hashes.length * 2 - 2 ^ (Nat.log2 (hashes.length - 1) + 1)) hashes)).reverse ++
        secondLevel branch (hashes.length * 2 - 2 ^ (Nat.log2 (hashes.length - 1) + 1)) hashes ++
        hashes.take (hashes.length * 2 - 2 ^ (Nat.log2 (hashes.length - 1) + 1))) := by
  obtain ⟨power, fits, leaves, short⟩ := tree_sizes two
  have secondLength := length_secondLevel branch two
  generalize hk : Nat.log2 (hashes.length - 1) = k at power fits leaves short secondLength
  generalize hcount : hashes.length * 2 - 2 ^ (k + 1) = count at secondLength
  have twice : 2 ^ (k + 1) = 2 * 2 ^ k := Nat.pow_succ'
  have countEven : count % 2 = 0 := by omega
  have lowest : ((hashes.take count).reverse).length = count := by simp; omega
  obtain ⟨fuel, hfuel⟩ : ∃ fuel, hashes.length = fuel + 1 := ⟨hashes.length - 1, by omega⟩
  -- the first turn pairs the lowest leaves, behind which lie the leaves one level up
  have first : pushParents branch ([] ++ (hashes.take count).reverse ++ (hashes.drop count).reverse)
      ([] : List E).length (([] : List E).length + (hashes.take count).reverse.length) =
      some ((hashes.take count).reverse ++ (secondLevel branch count hashes).reverse) := by
    rw [pushParents_eq branch _ _ _ (by rw [lowest]; exact countEven),
      pairUp_swap_reverse _ (by simp; omega), secondLevel, List.reverse_append]
    simp
  have climb := pairLevels_full branch k (hashes.take count).reverse (secondLevel branch count hashes) fuel
    secondLength (by omega)
  simp only [List.nil_append, List.length_nil, Nat.zero_add, lowest] at first
  rw [lowest, secondLength] at climb
  have pushedLength : ((hashes.take count).reverse ++ (secondLevel branch count hashes).reverse).length =
      count + 2 ^ k := by
    rw [List.length_append, lowest, List.length_reverse, secondLength]
  have upperLength := length_upperLevels branch k _ secondLength
  have positive := Nat.one_le_two_pow (n := k)
  have takeLength : (hashes.take count).length = count := by simp; omega
  have nonempty : hashes ≠ [] := by
    intro empty
    simp [empty] at two
  simp only [fromHashes, power, hcount]
  rw [if_neg nonempty, if_neg (by omega), List.reverse_append, hfuel, pairLevels, if_pos (by omega),
    first, Option.bind_eq_bind, Option.bind_some, pushedLength, climb, Option.bind_some]
  -- the heap reversed holds `2 ^ (k + 1) - 1` parents above the lowest leaves
  rw [List.reverse_append, List.reverse_append, List.reverse_reverse, List.reverse_reverse,
    if_pos (by simp only [List.length_append, List.length_reverse, upperLength, secondLength, takeLength]; omega)]
  simp

theorem head?_upperLevels (k : Nat) : ∀ (level rest : List E), level.length = 2 ^ k →
    ((upperLevels branch k level).reverse ++ level ++ rest).head? = ((pairUp branch)^[k] level).head? := by
  induction k with
  | zero =>
    intro level rest single
    obtain ⟨root, rfl⟩ : ∃ root, level = [root] := List.length_eq_one_iff.mp single
    rfl
  | succ k ih =>
    intro level rest full
    have half : (pairUp branch level).length = 2 ^ k := by
      rw [length_pairUp, full, Nat.pow_succ, Nat.mul_div_cancel _ (by decide)]
    rw [upperLevels, List.reverse_append, List.reverse_reverse, List.append_assoc, List.append_assoc,
      ← List.append_assoc, ih _ _ half, Function.iterate_succ_apply]

end Build

open BinTree

/-- The levels of the tree of `n ≥ 2` leaves, top-down: the second level paired up `k - d`
times for the levels `d ≤ k` above it, then the lowest leaves. -/
def treeLevel (k count : Nat) (hashes : List H) (d : Nat) : List (BinTree H) :=
  if d ≤ k then (pairUp node)^[k - d] (secondLevel node count (hashes.map leaf))
  else (hashes.map leaf).take count

/-- The tree the loop builds over `n ≥ 2` leaves has the heap shape of `2 * n - 1` nodes and
the leaves in order. -/
theorem built_tree {hashes : List H} (two : 2 ≤ hashes.length) :
    ∃ tree, ((pairUp node)^[Nat.log2 (hashes.length - 1)]
        (secondLevel node (hashes.length * 2 - 2 ^ (Nat.log2 (hashes.length - 1) + 1)) (hashes.map leaf))) = [tree] ∧
      tree.shape = heapShape (2 * hashes.length - 1) 0 ∧ tree.leaves = hashes := by
  obtain ⟨-, fits, leaves, -⟩ := tree_sizes two
  have secondLength := length_secondLevel node (show 2 ≤ (hashes.map leaf).length by simpa using two)
  rw [List.length_map] at secondLength
  generalize Nat.log2 (hashes.length - 1) = k at fits leaves secondLength ⊢
  generalize hcount : hashes.length * 2 - 2 ^ (k + 1) = count at secondLength
  have twice : 2 ^ (k + 1) = 2 * 2 ^ k := Nat.pow_succ'
  have countEven : count % 2 = 0 := by omega
  have flat : ∀ l : List H, (l.map leaf).flatMap BinTree.leaves = l := by
    intro l
    induction l with
    | nil => rfl
    | cons h l ih => simp [BinTree.leaves, ih]
  have levelLength : ∀ d ≤ k, (treeLevel k count hashes d).length = 2 ^ d := by
    intro d within
    rw [treeLevel, if_pos within, length_iterate_pairUp, secondLength,
      Nat.pow_div (Nat.sub_le k d) (by decide), Nat.sub_sub_self within]
  have lowest : treeLevel k count hashes (k + 1) = (hashes.map leaf).take count := by
    rw [treeLevel, if_neg (by omega)]
  -- each level joins the one below, the second level its lowest leaves and then leaves
  have joined : ∀ d < k + 1, ∀ (j : Nat) t, (treeLevel k count hashes d)[j]? = some t →
      (∃ l r, (treeLevel k count hashes (d + 1))[2 * j]? = some l ∧
        (treeLevel k count hashes (d + 1))[2 * j + 1]? = some r ∧ t = node l r) ∨
      ((treeLevel k count hashes (d + 1)).length ≤ 2 * j + 1 ∧ ∃ a, t = leaf a) := by
    intro d below j t found
    by_cases upper : d < k
    · have step : treeLevel k count hashes d = pairUp node (treeLevel k count hashes (d + 1)) := by
        rw [treeLevel, if_pos (by omega : d ≤ k), treeLevel, if_pos (by omega : d + 1 ≤ k),
          show k - d = k - (d + 1) + 1 by omega, Function.iterate_succ_apply']
      rw [step] at found
      exact Or.inl (getElem?_pairUp_eq_some found)
    · obtain rfl : d = k := by omega
      rw [treeLevel, if_pos (le_refl _), Nat.sub_self, Function.iterate_zero_apply, secondLevel,
        ← List.map_take, ← List.map_drop] at found
      rw [lowest, ← List.map_take]
      by_cases parent : j < (pairUp node ((hashes.take count).map leaf)).length
      · rw [List.getElem?_append_left parent] at found
        exact Or.inl (getElem?_pairUp_eq_some found)
      · rw [List.getElem?_append_right (by omega), List.getElem?_map] at found
        obtain ⟨h, -, rfl⟩ := Option.map_eq_some_iff.mp found
        simp at parent
        exact Or.inr ⟨by simp; omega, h, rfl⟩
  have shapes := heapShape_of_levels (D := k + 1) (treeLevel k count hashes)
    (fun d below => levelLength d (by omega)) (by rw [lowest]; simp; omega)
    (fun j t found => by
      rw [lowest, ← List.map_take, List.getElem?_map] at found
      obtain ⟨h, -, rfl⟩ := Option.map_eq_some_iff.mp found
      exact ⟨h, rfl⟩)
    joined
  obtain ⟨tree, single⟩ : ∃ tree, treeLevel k count hashes 0 = [tree] :=
    List.length_eq_one_iff.mp (levelLength 0 (Nat.zero_le _))
  have top : (pairUp node)^[k] (secondLevel node count (hashes.map leaf)) = [tree] := by
    rw [← single, treeLevel, if_pos (Nat.zero_le _), Nat.sub_zero]
  refine ⟨tree, top, ?_, ?_⟩
  · have root := shapes 0 (Nat.zero_le _) 0 tree (by rw [single]; rfl)
    rw [lowest, List.length_take, List.length_map, min_eq_left (by omega)] at root
    rw [← root, show 2 ^ (k + 1) - 1 + count = 2 * hashes.length - 1 by omega]
    rfl
  · -- pairing keeps the leaves in order
    have evenLowest : ((hashes.take count).map leaf).length % 2 = 0 := by simp; omega
    have kept := flatMap_leaves_iterate_pairUp k (secondLevel node count (hashes.map leaf))
      ⟨1, by rw [secondLength, Nat.mul_one]⟩
    rw [top, secondLevel, List.flatMap_append, ← List.map_take, ← List.map_drop,
      flatMap_leaves_pairUp _ evenLowest, flat, flat, List.take_append_drop] at kept
    simpa using kept

theorem secondLevel_map (branch : H → H → H) (count : Nat) (hashes : List H) :
    (secondLevel node count (hashes.map leaf)).map (fold id branch) = secondLevel branch count hashes := by
  have leafHash : (hashes.map leaf).map (fold id branch) = hashes := by
    rw [List.map_map]
    exact List.map_id' _ |>.trans rfl
  rw [secondLevel, List.map_append, ← pairUp_map (fun _ _ => rfl), List.map_take, List.map_drop, leafHash,
    secondLevel]

theorem fromHashes_single (branch : E → E → E) (hash : E) : fromHashes branch [hash] = some [hash] := by
  simp [fromHashes, nextPowerOfTwo, pairLevels]

/-- `TreeProof::new` never panics, its size assertion included, and its root hash is the
root of the complete binary tree in heap layout whose leaves, left to right, are the items'
leaf hashes. -/
theorem new_root_is_complete_tree_root (hasher : TreeHasher H T) (items : List T) :
    ∃ proof, TreeProof.new hasher items = some proof ∧
      completeRoot hasher (items.map hasher.hashLeaf) = some (proof.rootHash hasher) := by
  match items with
  | [] => exact ⟨⟨[]⟩, by simp [TreeProof.new, fromHashes], by simp [completeRoot, rootHash]⟩
  | [item] =>
    refine ⟨⟨[hasher.hashLeaf item]⟩, by simp [TreeProof.new, fromHashes_single], ?_⟩
    simp [completeRoot, rootHash, heapShape_outer, fill, BinTree.fold]
  | first :: second :: rest =>
    -- two leaves or more: the heap starts with the root of the tree `built_tree` gives
    have two : 2 ≤ ((first :: second :: rest).map hasher.hashLeaf).length := by simp
    rw [TreeProof.new, fromHashes_eq _ two]
    generalize (first :: second :: rest).map hasher.hashLeaf = hashes at two ⊢
    refine ⟨_, rfl, ?_⟩
    obtain ⟨tree, top, shaped, leaves⟩ := built_tree two
    have root : (pairUp hasher.hashBranch)^[Nat.log2 (hashes.length - 1)]
        (secondLevel hasher.hashBranch (hashes.length * 2 - 2 ^ (Nat.log2 (hashes.length - 1) + 1)) hashes) =
        [tree.fold id hasher.hashBranch] := by
      have hom : ∀ l r : BinTree H, (node l r).fold id hasher.hashBranch =
          hasher.hashBranch (l.fold id hasher.hashBranch) (r.fold id hasher.hashBranch) := fun _ _ => rfl
      rw [← secondLevel_map, iterate_pairUp_map hom, top]
      rfl
    have filled := fill_shape tree []
    rw [List.append_nil, shaped, leaves] at filled
    have nonempty : hashes ≠ [] := by
      rintro rfl
      simp at two
    rw [completeRoot, if_neg nonempty, filled, rootHash,
      head?_upperLevels _ _ _ _ (length_secondLevel _ two), root]
    rfl

end TreeProof

end Albatross
