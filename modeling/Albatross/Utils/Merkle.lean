import Albatross.Lib.HeapTree
import Albatross.Lib.OptionList

/- The Merkle tree of utils/src/merkle/mod.rs: a list of values split at `len.div_ceil(2)`
   into halves hashed the same way, and the path of sibling hashes that
   `MerklePath::compute` collects on the way down for the value it looks for. The value is
   found by its hash, in both halves alike. -/
namespace Albatross

namespace Merkle

variable {H T : Type}

/-- `compute_root_from_hashes`. -/
def computeRootFromHashes (hasher : TreeHasher H T) : List H → H
  | [] => hasher.hashEmpty
  | [hash] => hash
  | values@(_ :: _ :: _) =>
    let mid := (values.length + 1) / 2
    hasher.hashBranch (computeRootFromHashes hasher (values.take mid))
      (computeRootFromHashes hasher (values.drop mid))
termination_by values => values.length
decreasing_by all_goals simp_all; omega

/-- `compute_root_from_content`: the values hashed as leaves, then the tree above them. -/
def computeRootFromContent (hasher : TreeHasher H T) (values : List T) : H :=
  computeRootFromHashes hasher (values.map hasher.hashLeaf)

/-- The recursion of the Merkle functions: a list of two values or more is its first
`len.div_ceil(2)` values and the rest. -/
theorem halves_induction {α : Type} {motive : List α → Prop} (nil : motive []) (single : ∀ a, motive [a])
    (halves : ∀ a b rest, motive ((a :: b :: rest).take (((a :: b :: rest).length + 1) / 2)) →
      motive ((a :: b :: rest).drop (((a :: b :: rest).length + 1) / 2)) → motive (a :: b :: rest)) :
    ∀ values, motive values := by
  intro values
  induction h : values.length using Nat.strong_induction_on generalizing values with
  | _ n ih =>
    match values with
    | [] => exact nil
    | [a] => exact single a
    | a :: b :: rest =>
      subst h
      exact halves a b rest (ih _ (by simp; omega) _ rfl) (ih _ (by simp; omega) _ rfl)

theorem computeRootFromHashes_map_halves (hasher : TreeHasher H T) (f : T → H) (a b : T) (rest : List T) :
    computeRootFromHashes hasher ((a :: b :: rest).map f) =
      hasher.hashBranch
        (computeRootFromHashes hasher (((a :: b :: rest).take (((a :: b :: rest).length + 1) / 2)).map f))
        (computeRootFromHashes hasher (((a :: b :: rest).drop (((a :: b :: rest).length + 1) / 2)).map f)) := by
  rw [List.map_cons, List.map_cons, computeRootFromHashes, ← List.map_cons, ← List.map_cons,
    List.map_take, List.map_drop, List.length_map]

theorem map_halves (f : T → H) (a b : T) (rest : List T) :
    (a :: b :: rest).map f = ((a :: b :: rest).take (((a :: b :: rest).length + 1) / 2)).map f ++
      ((a :: b :: rest).drop (((a :: b :: rest).length + 1) / 2)).map f := by
  rw [← List.map_append, List.take_append_drop]

end Merkle

structure MerklePathNode (H : Type) where
  hash : H
  left : Bool
  deriving DecidableEq

structure MerklePath (H : Type) where
  nodes : List (MerklePathNode H)
  deriving DecidableEq

namespace MerklePath

open Merkle

variable {H T : Type} [DecidableEq H]

/-- `MerklePath::compute`: whether some value hashes to `leafHash`, and the root of the
values; each node above a found value pushes the sibling's hash after those pushed below. -/
def compute (hasher : TreeHasher H T) (leafHash : H) :
    List T → List (MerklePathNode H) → (Bool × H) × List (MerklePathNode H)
  | [], path => ((false, hasher.hashEmpty), path)
  | [value], path =>
    let hash := hasher.hashLeaf value
    ((hash == leafHash, hash), path)
  | values@(_ :: _ :: _), path =>
    let mid := (values.length + 1) / 2
    let ((containsLeft, leftHash), path) := compute hasher leafHash (values.take mid) path
    let ((containsRight, rightHash), path) := compute hasher leafHash (values.drop mid) path
    let hash := hasher.hashBranch leftHash rightHash
    if containsLeft then ((true, hash), path ++ [⟨rightHash, false⟩])
    else if containsRight then ((true, hash), path ++ [⟨leftHash, true⟩])
    else ((false, hash), path)
termination_by values => values.length
decreasing_by all_goals simp_all; omega

/-- `MerklePath::new`. -/
def new (hasher : TreeHasher H T) (values : List T) (leafValue : T) : MerklePath H :=
  ⟨(compute hasher (hasher.hashLeaf leafValue) values []).2⟩

/-- One node of `compute_root`: the sibling's hash on the side the node names. -/
def climbStep (hasher : TreeHasher H T) (root : H) (node : MerklePathNode H) : H :=
  if node.left then hasher.hashBranch node.hash root else hasher.hashBranch root node.hash

/-- `MerklePath::compute_root`. -/
def computeRoot (hasher : TreeHasher H T) (path : MerklePath H) (leafValue : T) : H :=
  path.nodes.foldl (climbStep hasher) (hasher.hashLeaf leafValue)

theorem compute_path (hasher : TreeHasher H T) (leafHash : H) (values : List T) :
    ∀ path, compute hasher leafHash values path =
      ((compute hasher leafHash values []).1, path ++ (compute hasher leafHash values []).2) := by
  induction values using halves_induction with
  | nil => intro path; simp [compute]
  | single a => intro path; simp [compute]
  | halves a b rest ihL ihR =>
    intro path
    rw [compute, compute, ihL path]
    generalize compute hasher leafHash (List.take _ _) [] = left
    obtain ⟨⟨containsLeft, leftHash⟩, pathLeft⟩ := left
    simp only
    rw [ihR (path ++ pathLeft), ihR pathLeft]
    generalize compute hasher leafHash (List.drop _ _) [] = right
    obtain ⟨⟨containsRight, rightHash⟩, pathRight⟩ := right
    split_ifs <;> simp

theorem compute_fst (hasher : TreeHasher H T) (leafHash : H) (values : List T) (path : List (MerklePathNode H)) :
    (compute hasher leafHash values path).1 =
      (decide (leafHash ∈ values.map hasher.hashLeaf), computeRootFromHashes hasher (values.map hasher.hashLeaf)) := by
  rw [compute_path]
  dsimp only
  induction values using halves_induction with
  | nil => simp [compute, computeRootFromHashes]
  | single a =>
    simp only [compute, computeRootFromHashes, List.map_cons, List.map_nil, List.mem_singleton, Prod.mk.injEq, and_true]
    rw [Bool.eq_iff_iff, beq_iff_eq, decide_eq_true_eq]
    exact eq_comm
  | halves a b rest ihL ihR =>
    rw [compute]
    generalize compute hasher leafHash (List.take _ _) [] = left at ihL
    obtain ⟨⟨containsLeft, leftHash⟩, pathLeft⟩ := left
    simp only at ihL ⊢
    rw [compute_path _ _ _ pathLeft]
    generalize compute hasher leafHash (List.drop _ _) [] = right at ihR
    obtain ⟨⟨containsRight, rightHash⟩, pathRight⟩ := right
    simp only [Prod.mk.injEq] at ihL ihR ⊢
    obtain ⟨rfl, rfl⟩ := ihL
    obtain ⟨rfl, rfl⟩ := ihR
    rw [computeRootFromHashes_map_halves, map_halves hasher.hashLeaf a b rest]
    split_ifs with inLeft inRight <;> simp only [decide_eq_true_eq] at *
    · simp only [List.mem_append, inLeft, true_or, decide_true]
    · simp only [List.mem_append, inLeft, inRight, or_true, decide_true]
    · simp only [List.mem_append, inLeft, inRight, or_self, decide_false]

theorem compute_snd_halves (hasher : TreeHasher H T) (leafHash : H) (a b : T) (rest : List T) :
    (compute hasher leafHash (a :: b :: rest) []).2 =
      (compute hasher leafHash ((a :: b :: rest).take (((a :: b :: rest).length + 1) / 2)) []).2 ++
        (compute hasher leafHash ((a :: b :: rest).drop (((a :: b :: rest).length + 1) / 2)) []).2 ++
        if leafHash ∈ ((a :: b :: rest).take (((a :: b :: rest).length + 1) / 2)).map hasher.hashLeaf then
          [⟨computeRootFromHashes hasher (((a :: b :: rest).drop (((a :: b :: rest).length + 1) / 2)).map hasher.hashLeaf), false⟩]
        else if leafHash ∈ ((a :: b :: rest).drop (((a :: b :: rest).length + 1) / 2)).map hasher.hashLeaf then
          [⟨computeRootFromHashes hasher (((a :: b :: rest).take (((a :: b :: rest).length + 1) / 2)).map hasher.hashLeaf), true⟩]
        else [] := by
  have left := compute_fst hasher leafHash ((a :: b :: rest).take (((a :: b :: rest).length + 1) / 2)) []
  have right := compute_fst hasher leafHash ((a :: b :: rest).drop (((a :: b :: rest).length + 1) / 2)) []
  rw [compute]
  generalize compute hasher leafHash (List.take _ _) [] = leftResult at left ⊢
  obtain ⟨⟨containsLeft, leftHash⟩, pathLeft⟩ := leftResult
  simp only at left ⊢
  rw [compute_path _ _ _ pathLeft]
  generalize compute hasher leafHash (List.drop _ _) [] = rightResult at right ⊢
  obtain ⟨⟨containsRight, rightHash⟩, pathRight⟩ := rightResult
  simp only [Prod.mk.injEq] at left right ⊢
  obtain ⟨rfl, rfl⟩ := left
  obtain ⟨rfl, rfl⟩ := right
  split_ifs <;> simp_all

theorem compute_snd_of_not_mem (hasher : TreeHasher H T) (leafHash : H) (values : List T)
    (absent : leafHash ∉ values.map hasher.hashLeaf) : (compute hasher leafHash values []).2 = [] := by
  induction values using halves_induction with
  | nil => rw [compute]
  | single a => rw [compute]
  | halves a b rest ihL ihR =>
    rw [map_halves, List.mem_append, not_or] at absent
    rw [compute_snd_halves, ihL absent.1, ihR absent.2, if_neg absent.1, if_neg absent.2]
    rfl

/-- Where exactly one value hashes to the leaf, the pushed siblings climb from the leaf to
the root. The induction follows the halving; the leaf lies in one half and the other pushes
nothing. -/
theorem compute_climbs (hasher : TreeHasher H T) (leafHash : H) (values : List T)
    (once : (values.map hasher.hashLeaf).count leafHash = 1) :
    (compute hasher leafHash values []).2.foldl (climbStep hasher) leafHash =
      computeRootFromHashes hasher (values.map hasher.hashLeaf) := by
  induction values using halves_induction with
  | nil => simp at once
  | single a =>
    have same : hasher.hashLeaf a = leafHash := by simpa [List.count_singleton] using once
    simp [compute, computeRootFromHashes, same]
  | halves a b rest ihL ihR =>
    rw [map_halves, List.count_append] at once
    rw [compute_snd_halves, computeRootFromHashes_map_halves, List.foldl_append, List.foldl_append]
    by_cases inLeft : leafHash ∈ ((a :: b :: rest).take (((a :: b :: rest).length + 1) / 2)).map hasher.hashLeaf
    · -- the leaf is in the left half: the right half's root is pushed as a right sibling
      have onceLeft : (((a :: b :: rest).take (((a :: b :: rest).length + 1) / 2)).map hasher.hashLeaf).count leafHash = 1 := by
        have := List.count_pos_iff.mpr inLeft
        omega
      have absentRight : leafHash ∉ ((a :: b :: rest).drop (((a :: b :: rest).length + 1) / 2)).map hasher.hashLeaf := by
        rw [← List.count_eq_zero]
        omega
      rw [if_pos inLeft, ihL onceLeft, compute_snd_of_not_mem _ _ _ absentRight]
      rfl
    · -- the leaf is in the right half: the left half's root is pushed as a left sibling
      have onceRight : (((a :: b :: rest).drop (((a :: b :: rest).length + 1) / 2)).map hasher.hashLeaf).count leafHash = 1 := by
        have := List.count_eq_zero.mpr inLeft
        omega
      have inRight := List.count_pos_iff.mp (by omega : 0 < (((a :: b :: rest).drop (((a :: b :: rest).length + 1) / 2)).map hasher.hashLeaf).count leafHash)
      rw [if_neg inLeft, if_pos inRight, compute_snd_of_not_mem _ _ _ inLeft, List.foldl_nil, ihR onceRight]
      rfl

/-- The hasher of `Nat.pair`, which has no collision. -/
def pairHasher : TreeHasher Nat Nat := ⟨0, Nat.pair, fun value => value + 1⟩

/-- A value whose hash occurs once among the values gets a path that climbs from its hash to
the root of the values. -/
theorem path_climbs_to_root (hasher : TreeHasher H T) (values : List T) (leafValue : T)
    (once : (values.map hasher.hashLeaf).count (hasher.hashLeaf leafValue) = 1) :
    computeRoot hasher (new hasher values leafValue) leafValue = computeRootFromContent hasher values :=
  compute_climbs hasher _ values once

theorem middle_value_path_climbs :
    ([0, 1, 2].map pairHasher.hashLeaf).count (pairHasher.hashLeaf 1) = 1 ∧
      computeRoot pairHasher (new pairHasher [0, 1, 2] 1) 1 = computeRootFromContent pairHasher [0, 1, 2] :=
  ⟨by decide, path_climbs_to_root pairHasher [0, 1, 2] 1 (by decide)⟩

/-- A value held four times: each half of the list holds it too, so both push siblings, and
the path gets three nodes where the tree has two levels. Its root is then the tree's only
through a collision of `hash_branch`, or a hash that is its own pair's hash. -/
theorem duplicate_value_path_needs_collision (hasher : TreeHasher H T) (value : T) :
    (new hasher [value, value, value, value] value).nodes.length = 3 ∧
    (computeRoot hasher (new hasher [value, value, value, value] value) value =
        computeRootFromContent hasher [value, value, value, value] →
      hasher.hashBranch (hasher.hashLeaf value) (hasher.hashLeaf value) = hasher.hashLeaf value ∨
      ∃ a b c d, (a, b) ≠ (c, d) ∧ hasher.hashBranch a b = hasher.hashBranch c d) := by
  have nodes : (new hasher [value, value, value, value] value).nodes =
      [⟨hasher.hashLeaf value, false⟩, ⟨hasher.hashLeaf value, false⟩,
        ⟨hasher.hashBranch (hasher.hashLeaf value) (hasher.hashLeaf value), false⟩] := by
    simp [new, compute]
  have tree : computeRootFromContent hasher [value, value, value, value] =
      hasher.hashBranch (hasher.hashBranch (hasher.hashLeaf value) (hasher.hashLeaf value))
        (hasher.hashBranch (hasher.hashLeaf value) (hasher.hashLeaf value)) := by
    simp [computeRootFromContent, computeRootFromHashes]
  refine ⟨by rw [nodes]; rfl, fun same => ?_⟩
  rw [computeRoot, nodes, tree] at same
  simp only [List.foldl, climbStep, Bool.false_eq_true, if_false] at same
  set leaf := hasher.hashLeaf value
  set pair := hasher.hashBranch leaf leaf
  -- `same` says `hash_branch(hash_branch(pair, leaf), pair) = hash_branch(pair, pair)`
  by_cases top : (hasher.hashBranch pair leaf, pair) = (pair, pair)
  · -- the left children agree: a collision one level down, unless the pair hash is fixed
    by_cases fixed : pair = leaf
    · exact Or.inl fixed
    · exact Or.inr ⟨_, _, _, _, fun eq => fixed (Prod.mk.inj eq).1, (Prod.mk.inj top).1⟩
  · exact Or.inr ⟨_, _, _, _, top, same⟩

theorem duplicate_zero_path_misses_root :
    (new pairHasher [0, 0, 0, 0] 0).nodes.length = 3 ∧
    computeRoot pairHasher (new pairHasher [0, 0, 0, 0] 0) 0 ≠ computeRootFromContent pairHasher [0, 0, 0, 0] := by
  obtain ⟨three, collision⟩ := duplicate_value_path_needs_collision pairHasher 0
  refine ⟨three, fun same => ?_⟩
  rcases collision same with fixed | ⟨a, b, c, d, apart, clash⟩
  · exact absurd fixed (by decide)
  · exact apart (Prod.ext_iff.mpr (Nat.pair_eq_pair.mp clash))

end MerklePath

/- The wire form of a path: its length as a `u8`, the `left` flags packed eight to a byte,
   the first node in the highest bit, and the sibling hashes. -/
namespace MerklePath

variable {H : Type}

/-- `0x80 >> (i % 8)`: the bit of node `i` within its byte, the first node the highest. -/
def leftMask (i : Nat) : UInt8 := 0x80 >>> (i % 8).toUInt8

/-- `left_bits[i / 8] |= 0x80 >> (i % 8)`. -/
def setLeftBit (leftBits : List UInt8) (i : Nat) : List UInt8 :=
  leftBits.modify (i / 8) (· ||| leftMask i)

/-- `compress`: the `left` flags, eight to a byte. `i / 8` is below `len.div_ceil(8)` for every
node, so the index never panics. -/
def compress (path : MerklePath H) : List UInt8 :=
  path.nodes.zipIdx.foldl (fun leftBits (node, i) => if node.left then setLeftBit leftBits i else leftBits)
    (List.replicate ((path.nodes.length + 7) / 8) 0)

/-- `decompress`; reading past `left_bits` panics. -/
def decompress (nodeIndex : Nat) (leftBits : List UInt8) : Option Bool :=
  leftBits[nodeIndex / 8]?.map fun byte => byte &&& leftMask nodeIndex != 0

/-- The fields `serialize` writes, in the order the visitor reads them: `nodes_len`, then for
a path with nodes `compressed` and `node_hashes`. -/
structure Fields (H : Type) where
  nodesLen : UInt8
  compressed : Option (List UInt8)
  nodeHashes : Option (List H)
  deriving DecidableEq

/-- `Serialize for MerklePath`: the length is cast to `u8`. -/
def serialize (path : MerklePath H) : Fields H :=
  if path.nodes.isEmpty then ⟨path.nodes.length.toUInt8, none, none⟩
  else ⟨path.nodes.length.toUInt8, some (compress path), some (path.nodes.map MerklePathNode.hash)⟩

/-- The visitor's `invalid_length` errors, with the length each reports. -/
inductive DeError where
  | invalidLength (len : Nat)
  deriving DecidableEq

/-- `MerklePathVisitor::visit_seq`; a panic is `none`. -/
def visitSeq (fields : Fields H) : Option (Except DeError (MerklePath H)) :=
  if fields.nodesLen = 0 then some (.ok ⟨[]⟩)
  else
    let count := fields.nodesLen.toNat
    let leftBitsSize := (count + 7) / 8
    match fields.compressed, fields.nodeHashes with
    | none, _ => some (.error (.invalidLength 1))
    | some _, none => some (.error (.invalidLength 2))
    | some leftBits, some nodeHashes =>
      if leftBitsSize > leftBits.length then some (.error (.invalidLength leftBits.length))
      else if nodeHashes.length ≠ count then some (.error (.invalidLength nodeHashes.length))
      else
        ((nodeHashes.zipIdx.take count).mapM fun (hash, i) =>
          (decompress i leftBits).map fun left => (⟨hash, left⟩ : MerklePathNode H)).map
          fun nodes => .ok ⟨nodes⟩

theorem leftMask_toNat (i : Nat) : (leftMask i).toNat = 2 ^ (7 - i % 8) := by
  have masks : ∀ k : Fin 8, ((0x80 : UInt8) >>> k.val.toUInt8).toNat = 2 ^ (7 - k.val) := by decide
  exact masks ⟨i % 8, Nat.mod_lt i (by decide)⟩

theorem and_leftMask_ne_zero (x : UInt8) (i : Nat) : (x &&& leftMask i != 0) = x.toNat.testBit (7 - i % 8) := by
  rw [Bool.eq_iff_iff, bne_iff_ne, ne_eq, ← UInt8.toNat_inj, UInt8.toNat_and, leftMask_toNat,
    Nat.and_two_pow, UInt8.toNat_zero]
  cases x.toNat.testBit (7 - i % 8) <;> simp

theorem decompress_setLeftBit (i j : Nat) (leftBits : List UInt8) :
    decompress i (setLeftBit leftBits j) = (decompress i leftBits).map (· || (j == i)) := by
  rw [decompress, setLeftBit, List.getElem?_modify, decompress]
  cases leftBits[i / 8]? with
  | none => rfl
  | some byte =>
    simp only [Option.map_eq_map, Option.map, Option.some.injEq]
    by_cases sameByte : j / 8 = i / 8
    · rw [if_pos sameByte, and_leftMask_ne_zero, and_leftMask_ne_zero, UInt8.toNat_or, leftMask_toNat,
        Nat.testBit_or, Nat.testBit_two_pow]
      by_cases same : j = i
      · simp [same]
      · have apart : 7 - j % 8 ≠ 7 - i % 8 := by omega
        simp [same, apart]
    · rw [if_neg sameByte]
      have apart : j ≠ i := fun same => sameByte (by rw [same])
      simp [apart]

/-- One turn of the loop of `compress`. -/
def compressStep (leftBits : List UInt8) (entry : MerklePathNode H × Nat) : List UInt8 :=
  if entry.1.left then setLeftBit leftBits entry.2 else leftBits

theorem compress_eq (path : MerklePath H) :
    compress path = path.nodes.zipIdx.foldl compressStep (List.replicate ((path.nodes.length + 7) / 8) 0) := rfl

/-- The loop of `compress` turns on the flag of each node it meets with `left` set. The
induction is on the nodes, from any bytes. -/
theorem decompress_foldl (i : Nat) (entries : List (MerklePathNode H × Nat)) :
    ∀ leftBits : List UInt8, decompress i (entries.foldl compressStep leftBits) =
      (decompress i leftBits).map (· || entries.any fun entry => entry.1.left && entry.2 == i) := by
  induction entries with
  | nil => intro leftBits; simp
  | cons entry entries ih =>
    intro leftBits
    rw [List.foldl_cons, ih, compressStep]
    split_ifs with flagged
    · rw [decompress_setLeftBit, Option.map_map]
      congr 1
      funext b
      simp [flagged, Bool.or_assoc]
    · congr 1
      funext b
      simp [flagged]

theorem length_foldl_compressStep (entries : List (MerklePathNode H × Nat)) :
    ∀ leftBits : List UInt8, (entries.foldl compressStep leftBits).length = leftBits.length := by
  induction entries with
  | nil => intro leftBits; rfl
  | cons entry entries ih =>
    intro leftBits
    rw [List.foldl_cons, ih, compressStep]
    split_ifs
    · exact List.length_modify _ _ _
    · rfl

theorem length_compress (path : MerklePath H) : (compress path).length = (path.nodes.length + 7) / 8 := by
  rw [compress_eq, length_foldl_compressStep, List.length_replicate]

theorem decompress_compress (path : MerklePath H) {i : Nat} (inside : i < path.nodes.length) :
    decompress i (compress path) = some path.nodes[i].left := by
  have blank : decompress i (List.replicate ((path.nodes.length + 7) / 8) 0) = some false := by
    rw [decompress, List.getElem?_replicate, if_pos (by omega)]
    simp
  rw [compress_eq, decompress_foldl, blank, Option.map_some, Bool.false_or]
  congr 1
  rw [Bool.eq_iff_iff, List.any_eq_true]
  constructor
  · rintro ⟨⟨node, j⟩, member, flagged⟩
    simp only [Bool.and_eq_true, beq_iff_eq] at flagged
    obtain ⟨left, rfl⟩ := flagged
    have found := List.mem_zipIdx_iff_getElem?.mp member
    simp only [List.getElem?_eq_getElem inside, Option.some.injEq] at found
    rw [found]
    exact left
  · intro left
    exact ⟨(path.nodes[i], i), List.mem_zipIdx_iff_getElem?.mpr (List.getElem?_eq_getElem inside), by simp [left]⟩

theorem zipIdx_nodes (nodes : List (MerklePathNode H)) :
    (nodes.map MerklePathNode.hash).zipIdx.map
      (fun entry => (⟨entry.1, (nodes[entry.2]?.map MerklePathNode.left).getD false⟩ : MerklePathNode H)) = nodes := by
  apply List.ext_getElem (by simp)
  intro i _ inside
  simp only [List.getElem_map, List.getElem_zipIdx, Nat.zero_add, List.getElem?_eq_getElem inside,
    Option.map_some, Option.getD_some]

theorem visitSeq_serialize (path : MerklePath H) (fits : path.nodes.length ≤ 255) :
    visitSeq (serialize path) = some (.ok path) := by
  by_cases empty : path.nodes = []
  · obtain ⟨nodes⟩ := path
    subst empty
    rfl
  have count : path.nodes.length.toUInt8.toNat = path.nodes.length := by
    simp
    omega
  have nonzero : path.nodes.length.toUInt8 ≠ 0 := by
    intro zero
    have := congrArg UInt8.toNat zero
    rw [count] at this
    exact empty (List.length_eq_zero_iff.mp this)
  rw [serialize, if_neg (by simpa using empty), visitSeq, if_neg nonzero]
  simp only [count, length_compress, List.length_map]
  rw [if_neg (lt_irrefl _), if_neg (not_not.mpr rfl), List.take_of_length_le (by simp)]
  -- every flag is read back from the compressed bytes
  have flags : ∀ entry ∈ (path.nodes.map MerklePathNode.hash).zipIdx,
      (decompress entry.2 (compress path)).map (fun left => (⟨entry.1, left⟩ : MerklePathNode H)) =
        some ⟨entry.1, (path.nodes[entry.2]?.map MerklePathNode.left).getD false⟩ := by
    rintro ⟨hash, i⟩ member
    have inside : i < path.nodes.length := by simpa using (List.mem_zipIdx' member).1
    rw [decompress_compress path inside, List.getElem?_eq_getElem inside]
    rfl
  rw [mapM_eq_some_map _ flags, zipIdx_nodes]
  rfl

/-- The bound is needed: `nodes.len() as u8` wraps a path of 256 nodes to `0`, and the
visitor reads an empty path. -/
theorem visitSeq_serialize_of_length_eq (path : MerklePath H) (long : path.nodes.length = 256) :
    visitSeq (serialize path) = some (.ok ⟨[]⟩) := by
  have nonempty : path.nodes.isEmpty = false := by
    rw [List.isEmpty_eq_false_iff]
    intro empty
    simp [empty] at long
  rw [serialize, nonempty, visitSeq, long]
  rfl

/-- What `visit_seq` makes of what `Serialize` writes: the path again for at most 255
    nodes, and the empty path for 256, whose count wraps to 0 as a `u8`. -/
theorem visitSeq_serialize_by_length (path : MerklePath H) :
    (path.nodes.length ≤ 255 → visitSeq (serialize path) = some (.ok path)) ∧
      (path.nodes.length = 256 → visitSeq (serialize path) = some (.ok ⟨[]⟩)) :=
  ⟨visitSeq_serialize path, visitSeq_serialize_of_length_eq path⟩

theorem nine_node_path_round_trips :
    (⟨(List.range 9).map fun i => ⟨i, i % 3 == 0⟩⟩ : MerklePath Nat).nodes.length ≤ 255 ∧
      visitSeq (serialize (⟨(List.range 9).map fun i => ⟨i, i % 3 == 0⟩⟩ : MerklePath Nat)) =
        some (.ok ⟨(List.range 9).map fun i => ⟨i, i % 3 == 0⟩⟩) :=
  ⟨by simp, (visitSeq_serialize_by_length _).1 (by simp)⟩

end MerklePath

end Albatross
