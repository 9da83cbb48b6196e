import Albatross.Lib.BitBlock

/- The binomial partitioner of Handel (handel/src/partitioner.rs) and the levels that
   `Level::create_levels` builds from it (handel/src/level.rs). An `Identity` is the set of
   identifiers its bit set holds, a finite set here, iterated in increasing order. Level
   `l ≥ 1` of node `i` holds the identifiers that agree with `i` above bit `l - 1` and differ
   from it at that bit, cut off at the last identifier. -/
namespace Albatross

namespace Handel

inductive PartitioningError
  | invalidLevel (level : Nat)
  | emptyLevel (level : Nat)
  deriving DecidableEq, Repr

/-- The level count of `BinomialPartitioner::new`; `none` is its panic on zero identities. -/
def numLevelsFor : Nat → Option Nat
  | 0 => none
  | 1 => some 1
  | n => some ((n - 1).log2 + 2)

structure BinomialPartitioner where
  nodeId : Nat
  numIds : Nat
  numLevels : Nat
  -- what `new` asserts, and the level count it computes
  nodeId_lt : nodeId < numIds
  numLevels_eq : numLevelsFor numIds = some numLevels

namespace BinomialPartitioner

def new (nodeId numIds : Nat) : Option BinomialPartitioner :=
  match counted : numLevelsFor numIds with
  | none => none
  | some numLevels =>
    if present : nodeId < numIds then some ⟨nodeId, numIds, numLevels, present, counted⟩ else none

variable (p : BinomialPartitioner)

def levels : Nat := p.numLevels

def size : Nat := p.numIds

def identitiesOn (level : Nat) : Except PartitioningError (Finset Nat) :=
  if level = 0 then .ok {p.nodeId}
  else if level ≥ p.numLevels then .error (.invalidLevel level)
  else
    -- the mask of the bits the range covers, and the bit that is flipped
    let m := (1 <<< (level - 1)) - 1
    let f := 1 <<< (level - 1)
    -- `(node_id ^ f) & !m`
    let min := Nat.ldiff (p.nodeId ^^^ f) m
    let max := Min.min ((p.nodeId ^^^ f) ||| m) (p.numIds - 1)
    if min > max then .error (.emptyLevel level) else .ok (Finset.Icc min max)

def levelSize (level : Nat) : Nat :=
  match p.identitiesOn level with
  | .ok identities => identities.card
  | .error _ => 0

def cumulativeLevelSize (level : Nat) : Nat :=
  (List.range (level + 1)).foldl (fun size lvl => size + p.levelSize lvl) 0

/-- The identities of a level, an error read as no one. -/
def levelSet (level : Nat) : Finset Nat :=
  match p.identitiesOn level with
  | .ok identities => identities
  | .error _ => ∅

/-- The level on which node `j` is a peer of this node: zero for the node itself, else one
past the highest bit on which the two differ. -/
def levelOf (j : Nat) : Nat :=
  if p.nodeId ^^^ j = 0 then 0 else (p.nodeId ^^^ j).log2 + 1

theorem numLevels_spec :
    p.numIds = 1 ∧ p.numLevels = 1 ∨ 2 ≤ p.numIds ∧ p.numLevels = (p.numIds - 1).log2 + 2 := by
  have counted := p.numLevels_eq
  unfold numLevelsFor at counted
  split at counted
  · cases counted
  · rename_i one
    exact Or.inl ⟨one, (Option.some.inj counted).symm⟩
  · rename_i zero one
    have : p.numIds ≠ 0 := zero
    have : p.numIds ≠ 1 := one
    exact Or.inr ⟨by omega, (Option.some.inj counted).symm⟩

theorem levels_pos : 0 < p.levels := by
  unfold levels
  rcases p.numLevels_spec with ⟨-, one⟩ | ⟨-, more⟩ <;> omega

theorem levelOf_lt {j : Nat} (hj : j < p.numIds) : p.levelOf j < p.levels := by
  unfold levelOf
  split
  · exact p.levels_pos
  · rename_i differ
    have two : 2 ≤ p.numIds := by
      have := p.nodeId_lt
      have : p.nodeId ≠ j := fun same => differ (by rw [same, Nat.xor_self])
      omega
    -- both identifiers are below the power of two above the last identifier
    have room {x : Nat} (hx : x < p.numIds) : x < 2 ^ ((p.numIds - 1).log2 + 1) :=
      lt_of_le_of_lt (by omega) Nat.lt_log2_self
    have top := (Nat.log2_lt differ).mpr (Nat.xor_lt_two_pow (room p.nodeId_lt) (room hj))
    unfold levels
    rcases p.numLevels_spec with ⟨one, -⟩ | ⟨-, more⟩
    · omega
    · omega

theorem levelSet_zero : p.levelSet 0 = {p.nodeId} := by
  simp [levelSet, identitiesOn]

theorem levelSet_of_levels_le {l : Nat} (above : p.levels ≤ l) : p.levelSet l = ∅ := by
  have := p.levels_pos
  unfold levels at above this
  simp [levelSet, identitiesOn, show l ≠ 0 by omega, above]

/-- Between the first and the last level, `identities_on` is the sibling block of the node's
at bit `l - 1`, cut at the last identifier (and empty when nothing is left of it). -/
theorem levelSet_eq_Icc {l : Nat} (pos : 0 < l) (below : l < p.levels) :
    p.levelSet l = Finset.Icc ((p.nodeId >>> (l - 1) ^^^ 1) <<< (l - 1))
      (min ((p.nodeId >>> (l - 1) ^^^ 1) <<< (l - 1) + (2 ^ (l - 1) - 1)) (p.numIds - 1)) := by
  unfold levels at below
  unfold levelSet identitiesOn
  rw [if_neg (by omega), if_neg (by omega)]
  simp only [Nat.one_shiftLeft, BitBlock.ldiff_low_mask, BitBlock.or_low_mask,
    BitBlock.xor_two_pow_shiftRight]
  split_ifs with empty
  · exact (Finset.Icc_eq_empty_of_lt empty).symm
  · rfl

theorem mem_levelSet_of_lt {l j : Nat} (pos : 0 < l) (below : l < p.levels) :
    j ∈ p.levelSet l ↔ j < p.numIds ∧ j >>> (l - 1) = p.nodeId >>> (l - 1) ^^^ 1 := by
  have := p.nodeId_lt
  rw [p.levelSet_eq_Icc pos below, Finset.mem_Icc, BitBlock.shiftRight_eq_iff]
  omega

/-- The levels partition the identifiers by the level on which each is a peer. -/
theorem mem_levelSet_iff (l j : Nat) : j ∈ p.levelSet l ↔ j < p.numIds ∧ p.levelOf j = l := by
  rcases Nat.eq_zero_or_pos l with rfl | pos
  · -- level zero is the node alone, and only the node differs from itself in no bit
    rw [levelSet_zero, Finset.mem_singleton, levelOf]
    constructor
    · rintro rfl
      exact ⟨p.nodeId_lt, by simp⟩
    · rintro ⟨-, own⟩
      split at own
      · rename_i same
        exact (Nat.xor_eq_zero_iff.mp same).symm
      · omega
  · by_cases below : l < p.levels
    · rw [p.mem_levelSet_of_lt pos below, BitBlock.shiftRight_eq_xor_one_iff, levelOf]
      constructor
      · rintro ⟨hj, differ, top⟩
        exact ⟨hj, by rw [if_neg differ]; omega⟩
      · rintro ⟨hj, level⟩
        split at level
        · omega
        · rename_i differ
          exact ⟨hj, differ, by omega⟩
    · rw [p.levelSet_of_levels_le (by omega)]
      simp only [Finset.notMem_empty, false_iff, not_and]
      intro hj level
      have := p.levelOf_lt hj
      omega

theorem levelSize_eq_card (l : Nat) : p.levelSize l = (p.levelSet l).card := by
  unfold levelSize levelSet
  split <;> rfl

/-- Between the first and the last level, `identities_on` is a non-empty range or reports an
empty level. -/
theorem identitiesOn_of_lt {l : Nat} (pos : 0 < l) (below : l < p.levels) :
    p.identitiesOn l = .ok (p.levelSet l) ∧ (p.levelSet l).Nonempty ∨
      p.identitiesOn l = .error (.emptyLevel l) ∧ p.levelSet l = ∅ := by
  have range := p.levelSet_eq_Icc pos below
  unfold levels at below
  unfold levelSet identitiesOn at *
  rw [if_neg (by omega), if_neg (by omega)] at *
  simp only [Nat.one_shiftLeft, BitBlock.ldiff_low_mask, BitBlock.or_low_mask,
    BitBlock.xor_two_pow_shiftRight] at *
  split_ifs with empty
  · exact Or.inr ⟨rfl, rfl⟩
  · exact Or.inl ⟨rfl, Finset.nonempty_Icc.mpr (Nat.le_of_not_lt empty)⟩

theorem identitiesOn_eq_invalidLevel_iff (l : Nat) :
    p.identitiesOn l = .error (.invalidLevel l) ↔ p.levels ≤ l := by
  have := p.levels_pos
  rcases Nat.eq_zero_or_pos l with rfl | pos
  · simp only [identitiesOn, if_true, reduceCtorEq, false_iff]
    omega
  · by_cases below : l < p.levels
    · rcases p.identitiesOn_of_lt pos below with ⟨ok, -⟩ | ⟨empty, -⟩
      · simp only [ok, reduceCtorEq, false_iff]
        omega
      · simp only [empty, Except.error.injEq, reduceCtorEq, false_iff]
        omega
    · unfold levels at below
      simp [identitiesOn, show l ≠ 0 by omega, show l ≥ p.numLevels by omega, levels]

theorem disjoint_levelSet {l l' : Nat} (differ : l ≠ l') : Disjoint (p.levelSet l) (p.levelSet l') :=
  Finset.disjoint_left.mpr fun j inL inL' =>
    differ (((p.mem_levelSet_iff l j).mp inL).2.symm.trans ((p.mem_levelSet_iff l' j).mp inL').2)

theorem biUnion_levelSet : (Finset.range p.levels).biUnion p.levelSet = Finset.range p.numIds := by
  ext j
  simp only [Finset.mem_biUnion, Finset.mem_range, mem_levelSet_iff]
  constructor
  · rintro ⟨l, -, hj, -⟩
    exact hj
  · intro hj
    exact ⟨p.levelOf j, p.levelOf_lt hj, hj, rfl⟩

theorem card_levelSet_le {l : Nat} (pos : 0 < l) : (p.levelSet l).card ≤ 2 ^ (l - 1) := by
  by_cases below : l < p.levels
  · have := Nat.two_pow_pos (l - 1)
    rw [p.levelSet_eq_Icc pos below, Nat.card_Icc]
    omega
  · rw [p.levelSet_of_levels_le (by omega)]
    simp

theorem levelSet_contiguous (l : Nat) : ∃ a b, p.levelSet l = Finset.Icc a b := by
  rcases Nat.eq_zero_or_pos l with rfl | pos
  · exact ⟨p.nodeId, p.nodeId, by rw [levelSet_zero, Finset.Icc_self]⟩
  · by_cases below : l < p.levels
    · exact ⟨_, _, p.levelSet_eq_Icc pos below⟩
    · exact ⟨1, 0, by rw [p.levelSet_of_levels_le (by omega)]; simp⟩

theorem mem_levelSet_comm (q : BinomialPartitioner) (same : q.numIds = p.numIds) (l : Nat) :
    q.nodeId ∈ p.levelSet l ↔ p.nodeId ∈ q.levelSet l := by
  have := p.nodeId_lt
  have := q.nodeId_lt
  rw [p.mem_levelSet_iff, q.mem_levelSet_iff, levelOf, levelOf, Nat.xor_comm]
  constructor
  · rintro ⟨-, level⟩
    exact ⟨by omega, level⟩
  · rintro ⟨-, level⟩
    exact ⟨by omega, level⟩

theorem foldl_range_add (f : Nat → Nat) (n : Nat) :
    (List.range n).foldl (fun size l => size + f l) 0 = ∑ l ∈ Finset.range n, f l := by
  induction n with
  | zero => rfl
  | succ n ih =>
    rw [List.range_succ, List.foldl_append, ih, Finset.sum_range_succ]
    rfl

theorem cumulativeLevelSize_eq_card (k : Nat) :
    p.cumulativeLevelSize k = ((Finset.range (k + 1)).biUnion p.levelSet).card := by
  rw [Finset.card_biUnion fun l _ l' _ differ => p.disjoint_levelSet differ, cumulativeLevelSize,
    foldl_range_add]
  simp only [levelSize_eq_card]

end BinomialPartitioner

/-- A `Level` with its `LevelState`. -/
structure Level where
  id : Nat
  peerIds : Finset Nat
  started : Bool
  complete : Bool
  nextPeerIndex : Nat
  deriving DecidableEq

namespace Level

/-- One round of the loop of `create_levels`: the levels so far and this node's side of the
tree; `none` is a panic. -/
def createLevelsStep (p : BinomialPartitioner) (nodeId : Nat) (acc : List Level × Finset Nat)
    (i : Nat) : Option (List Level × Finset Nat) :=
  match p.identitiesOn i with
  | .ok treeRhs =>
    if i = 0 then
      -- the first level is started and makes the node's own id its side of the tree
      some (acc.1 ++ [⟨i, treeRhs, true, false, 0⟩], {nodeId})
    else
      match (acc.2.sort (· ≤ ·)).idxOf? nodeId with
      | none => none -- "The node must always be present on its side of the tree"
      | some index =>
        -- `index % level.peer_ids.len()`, then `combine` without intersections
        if treeRhs.card = 0 then none
        else if 0 < (acc.2 ∩ treeRhs).card then none -- "Identities overlap"
        else some (acc.1 ++ [⟨i, treeRhs, false, false, index % treeRhs.card⟩], acc.2 ∪ treeRhs)
  | .error (.emptyLevel _) => some (acc.1 ++ [⟨i, ∅, false, false, 0⟩], acc.2)
  | .error (.invalidLevel _) => none -- "Partitioning error"

def createLevels (p : BinomialPartitioner) (nodeId : Nat) : Option (List Level) :=
  ((List.range p.levels).foldlM (createLevelsStep p nodeId) ([], ∅)).map Prod.fst

variable (p : BinomialPartitioner)

/-- One round of the loop, entered with the union of the levels before it as the node's side
of the tree, leaves the union up to this level: the node is on its side, the level is not
empty when it is a range, and it does not meet the levels before it. -/
theorem createLevelsStep_spec (levels : List Level) {i : Nat} (below : i < p.levels) :
    ∃ level, createLevelsStep p p.nodeId (levels, (Finset.range i).biUnion p.levelSet) i =
      some (levels ++ [level], (Finset.range (i + 1)).biUnion p.levelSet) := by
  rw [Finset.range_add_one, Finset.biUnion_insert]
  rcases Nat.eq_zero_or_pos i with rfl | pos
  · exact ⟨⟨0, {p.nodeId}, true, false, 0⟩, by
      simp [createLevelsStep, BinomialPartitioner.identitiesOn, BinomialPartitioner.levelSet_zero]⟩
  · have own : p.nodeId ∈ (Finset.range i).biUnion p.levelSet :=
      Finset.mem_biUnion.mpr ⟨0, Finset.mem_range.mpr pos, by simp [BinomialPartitioner.levelSet_zero]⟩
    have apart : Disjoint ((Finset.range i).biUnion p.levelSet) (p.levelSet i) :=
      (Finset.disjoint_biUnion_left _ _ _).mpr fun l earlier =>
        p.disjoint_levelSet (Nat.ne_of_lt (Finset.mem_range.mp earlier))
    obtain ⟨index, found⟩ : ∃ index,
        (((Finset.range i).biUnion p.levelSet).sort (· ≤ ·)).idxOf? p.nodeId = some index := by
      apply Option.ne_none_iff_exists'.mp
      rw [Ne, List.idxOf?_eq_none_iff, Finset.mem_sort, not_not]
      exact own
    rcases p.identitiesOn_of_lt pos below with ⟨ok, nonempty⟩ | ⟨empty, none⟩
    · refine ⟨⟨i, p.levelSet i, false, false, index % (p.levelSet i).card⟩, ?_⟩
      rw [createLevelsStep, ok]
      simp only [Nat.ne_of_gt pos, if_false, found, Finset.card_eq_zero,
        Finset.nonempty_iff_ne_empty.mp nonempty, Finset.disjoint_iff_inter_eq_empty.mp apart,
        Finset.card_empty, Nat.lt_irrefl, Finset.union_comm]
    · refine ⟨⟨i, ∅, false, false, 0⟩, ?_⟩
      rw [createLevelsStep, empty, none, Finset.empty_union]

theorem foldlM_createLevelsStep {i : Nat} (upto : i ≤ p.levels) :
    ∃ levels, (List.range i).foldlM (createLevelsStep p p.nodeId) ([], ∅) =
      some (levels, (Finset.range i).biUnion p.levelSet) := by
  induction i with
  | zero => exact ⟨[], rfl⟩
  | succ i ih =>
    obtain ⟨levels, run⟩ := ih (by omega)
    obtain ⟨level, step⟩ := createLevelsStep_spec p levels (i := i) (by omega)
    refine ⟨levels ++ [level], ?_⟩
    rw [List.range_succ, List.foldlM_append, run]
    simp [step]

theorem createLevels_isSome : (createLevels p p.nodeId).isSome := by
  obtain ⟨levels, run⟩ := foldlM_createLevelsStep p (le_refl p.levels)
  simp [createLevels, run]

end Level

namespace BinomialPartitioner

/-- What Handel needs of a partitioner's levels: level zero is the node, every level a range,
the levels disjoint and covering the identities, level `l` at most `2 ^ (l - 1)` strong, the
partition the same seen from either of two nodes, the cumulative sizes the sizes of the unions,
and `Level::create_levels` through without a panic. -/
structure Partitions (p : BinomialPartitioner) : Prop where
  own_level : p.identitiesOn 0 = .ok {p.nodeId}
  contiguous : ∀ l < p.levels, ∃ a b, p.levelSet l = Finset.Icc a b
  disjoint : ∀ l < p.levels, ∀ l' < p.levels, l ≠ l' → Disjoint (p.levelSet l) (p.levelSet l')
  covers : (Finset.range p.levels).biUnion p.levelSet = Finset.range p.numIds
  card_le : ∀ l, 0 < l → (p.levelSet l).card ≤ 2 ^ (l - 1)
  invalid_iff : ∀ l, p.identitiesOn l = .error (.invalidLevel l) ↔ p.levels ≤ l
  symmetric : ∀ q : BinomialPartitioner, q.numIds = p.numIds → ∀ l, 0 < l →
    (q.nodeId ∈ p.levelSet l ↔ p.nodeId ∈ q.levelSet l)
  cumulative_sum : ∀ k, p.cumulativeLevelSize k = ∑ l ∈ Finset.range (k + 1), p.levelSize l
  sum_eq_card : ∀ k, ∑ l ∈ Finset.range (k + 1), p.levelSize l =
    ((Finset.range (k + 1)).biUnion p.levelSet).card
  creates_levels : (Level.createLevels p p.nodeId).isSome

theorem partitions (p : BinomialPartitioner) : p.Partitions where
  own_level := by simp [identitiesOn]
  contiguous l _ := p.levelSet_contiguous l
  disjoint _ _ _ _ differ := p.disjoint_levelSet differ
  covers := p.biUnion_levelSet
  card_le _ pos := p.card_levelSet_le pos
  invalid_iff := p.identitiesOn_eq_invalidLevel_iff
  symmetric q same l _ := p.mem_levelSet_comm q same l
  cumulative_sum k := by rw [cumulativeLevelSize, foldl_range_add]
  sum_eq_card k := by rw [← p.cumulativeLevelSize_eq_card, cumulativeLevelSize, foldl_range_add]
  creates_levels := Level.createLevels_isSome p

theorem new_eq_some {nodeId numIds : Nat} (pos : 0 < numIds) (present : nodeId < numIds) :
    ∃ p, new nodeId numIds = some p ∧ p.nodeId = nodeId ∧ p.numIds = numIds := by
  unfold new
  split
  · rename_i uncounted
    unfold numLevelsFor at uncounted
    split at uncounted
    · omega
    · cases uncounted
    · cases uncounted
  · exact ⟨_, by rw [dif_pos present], rfl, rfl⟩

/-- `BinomialPartitioner::new(i, n)` partitions the `n` identities from node `i`'s view. -/
theorem new_partitions_identities {nodeId numIds : Nat} (pos : 0 < numIds) (present : nodeId < numIds) :
    ∃ p, new nodeId numIds = some p ∧ p.nodeId = nodeId ∧ p.numIds = numIds ∧ p.Partitions := by
  obtain ⟨p, created, own, ids⟩ := new_eq_some pos present
  exact ⟨p, created, own, ids, p.partitions⟩

end BinomialPartitioner

theorem five_identities_partitioned :
    ∃ p, BinomialPartitioner.new 4 5 = some p ∧ p.nodeId = 4 ∧ p.numIds = 5 ∧ p.Partitions :=
  BinomialPartitioner.new_partitions_identities (by decide) (by decide)

end Handel

end Albatross
