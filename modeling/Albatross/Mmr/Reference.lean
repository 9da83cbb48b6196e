import Albatross.Mmr.Prove

/- The reference roots of the tests of the range (primitives/mmr/src/mmr/utils.rs, `test_utils`):
   `hash_perfect_tree` hashes a power-of-two slice of values by halves, and `hash_mmr` bags the
   perfect trees of the largest sizes that fit, left to right. The tests compare `get_root` with
   `hash_mmr`; here the two are shown equal on every nonempty list of pushed values. The leaves
   of the perfect tree at leaf number a sit at the indices `leaf_number_to_index (a + r)`, which
   are those of the leaves from 0 shifted by `leaf_number_to_index a` when a is aligned. -/
namespace Albatross.Mmr

open PerfectTree MerkleMountainRange

variable {H T : Type}

theorem length_pos_of_ne_zero {values : List T} (empty : ¬ values.length = 0) : 0 < values.length :=
  Nat.pos_of_ne_zero empty

/-- `hash_perfect_tree`: the empty hash for no value, `None` unless the number of values is a
    power of two, else the merge of the two halves. -/
def hashPerfectTree (m : Merge H) (hash : T → Nat → H) (values : List T) : Option H :=
  if empty : values.length = 0 then some (m.empty 0)
  else if countOnes values.length ≠ 1 then none
  else if values.length = 1 then some (hash (values.get ⟨0, length_pos_of_ne_zero empty⟩) 1)
  else
    let mid := values.length / 2
    match hashPerfectTree m hash (values.take mid), hashPerfectTree m hash (values.drop mid) with
    | some left, some right => some (m.merge left right values.length)
    | _, _ => none
termination_by values.length
decreasing_by all_goals simp only [List.length_take, List.length_drop]; omega

/-- The `while i < values.len()` loop of `hash_mmr`: the largest perfect tree that fits from `i`,
    hashed and pushed with its leaf count. A slice past the end and the `unwrap` panic (`none`). -/
def hashMmrLoop (m : Merge H) (hash : T → Nat → H) (values : List T) (i : Nat) (peaks : List (H × Nat)) :
    Option (List (H × Nat)) :=
  if i < values.length then
    let maxHeight := bitLength (values.length - i) - 1
    let maxLeaves := 2 ^ maxHeight
    if i + maxLeaves ≤ values.length then
      match hashPerfectTree m hash ((values.drop i).take maxLeaves) with
      | some root => hashMmrLoop m hash values (i + maxLeaves) (peaks ++ [(root, maxLeaves)])
      | none => none
    else none
  else some peaks
termination_by values.length - i
decreasing_by have := Nat.one_le_two_pow (n := bitLength (values.length - i) - 1); omega

/-- `hash_mmr`: the peaks bagged from the right; the final `unwrap` panics (`none`) on no peak. -/
def hashMmr (m : Merge H) (hash : T → Nat → H) (values : List T) : Option H :=
  match hashMmrLoop m hash values 0 [] with
  | some peaks =>
    match bagging m.merge (peaks.map .ok).reverse with
    | .ok root => some root
    | .error _ => none
  | none => none

section Aligned

theorem countOnes_two_mul_add (n : Nat) {b : Nat} (bit : b < 2) : countOnes (2 * n + b) = countOnes n + b := by
  interval_cases b <;> simp [countOnes_eq]

/-- Bits below 2^t and bits of a multiple of 2^t are disjoint: their ones add up. -/
theorem countOnes_add_of_dvd : ∀ {t a r : Nat}, 2 ^ t ∣ a → r < 2 ^ t → countOnes (a + r) = countOnes a + countOnes r
  | 0, a, r, _, small => by
    obtain rfl : r = 0 := by simpa using small
    rfl
  | t + 1, a, r, aligned, small => by
    obtain ⟨q, rfl⟩ := aligned
    have half : r / 2 < 2 ^ t := by rw [Nat.pow_succ] at small; omega
    have sum : 2 ^ (t + 1) * q + r = 2 * (2 ^ t * q + r / 2) + r % 2 := by rw [Nat.pow_succ]; ring_nf; omega
    have whole : 2 ^ (t + 1) * q = 2 * (2 ^ t * q) + 0 := by rw [Nat.pow_succ]; ring
    have split : r = 2 * (r / 2) + r % 2 := (Nat.div_add_mod r 2).symm
    rw [sum, countOnes_two_mul_add _ (Nat.mod_lt r two_pos), countOnes_add_of_dvd (Dvd.intro q rfl) half, whole,
      countOnes_two_mul_add _ two_pos, split, countOnes_two_mul_add _ (Nat.mod_lt r two_pos)]
    simp only [Nat.add_zero, Nat.mul_add_mod, Nat.mod_mod, Nat.mul_add_div two_pos, Nat.mod_div_self]
    omega

theorem leafNumberToIndex_add_of_dvd {t a r : Nat} (aligned : 2 ^ t ∣ a) (small : r < 2 ^ t) :
    leafNumberToIndex (a + r) = leafNumberToIndex a + leafNumberToIndex r := by
  have ones := countOnes_add_of_dvd aligned small
  have fewA : countOnes a ≤ a := by rw [countOnes_eq]; exact BinaryArith.length_bitIndices_le a
  have fewR : countOnes r ≤ r := by rw [countOnes_eq]; exact BinaryArith.length_bitIndices_le r
  unfold leafNumberToIndex
  omega

theorem leafNumberToIndex_two_pow (h : Nat) : leafNumberToIndex (2 ^ h) = size h := by
  have zero : leafNumberToIndex 0 = 0 := rfl
  simpa [zero] using leafNumberToIndex_two_pow_add (t := h) (r := 0) (Nat.two_pow_pos h)

/-- The perfect tree of height h whose first leaf has an aligned number a: its right half starts
    at leaf a + 2^(h-1). -/
theorem right_start_of_dvd {s : Span} {a : Nat} (start : s.start = leafNumberToIndex a) (pos : 0 < s.height)
    (aligned : 2 ^ s.height ∣ a) : s.right.start = leafNumberToIndex (a + 2 ^ (s.height - 1)) := by
  have wider : 2 ^ s.height = 2 ^ (s.height - 1 + 1) := by rw [Nat.sub_add_cancel pos]
  rw [leafNumberToIndex_add_of_dvd (t := s.height) aligned (by rw [wider, Nat.pow_succ]; omega),
    leafNumberToIndex_two_pow, ← start]
  rfl

theorem last_leaf_le_root {s : Span} {a : Nat} (start : s.start = leafNumberToIndex a)
    (aligned : 2 ^ s.height ∣ a) : leafNumberToIndex (a + (2 ^ s.height - 1)) ≤ s.root := by
  have small : 2 ^ s.height - 1 < 2 ^ s.height := Nat.sub_lt (Nat.two_pow_pos _) one_pos
  have width := size_add_one s.height
  rw [Nat.pow_succ] at width
  rw [leafNumberToIndex_add_of_dvd aligned small, Span.root, start]
  have := Nat.one_le_two_pow (n := s.height)
  unfold leafNumberToIndex
  omega

theorem sum_two_pow_lt : ∀ {hs : List Nat} {h : Nat}, hs.Pairwise (· > ·) → (∀ x ∈ hs, x < h) →
    (hs.map (2 ^ ·)).sum < 2 ^ h
  | [], h, _, _ => by simp
  | x :: hs, h, desc, below => by
    have rest := sum_two_pow_lt (List.pairwise_cons.mp desc).2 fun y mem => (List.pairwise_cons.mp desc).1 y mem
    have step : 2 ^ (x + 1) ≤ 2 ^ h := Nat.pow_le_pow_right two_pos (below x List.mem_cons_self)
    rw [Nat.pow_succ] at step
    simp only [List.map_cons, List.sum_cons]
    omega

end Aligned

section Perfect

variable {m : Merge H} {hash : T → Nat → H} {values : List T} {store : List H}

theorem hashPerfectTree_single (v : T) : hashPerfectTree m hash [v] = some (hash v 1) := by
  rw [hashPerfectTree]
  simp [countOnes_eq]

theorem hashPerfectTree_halves {l : List T} {h : Nat} (length : l.length = 2 ^ (h + 1)) :
    hashPerfectTree m hash l =
      match hashPerfectTree m hash (l.take (2 ^ h)), hashPerfectTree m hash (l.drop (2 ^ h)) with
      | some left, some right => some (m.merge left right (2 ^ (h + 1)))
      | _, _ => none := by
  have two : 2 ≤ 2 ^ (h + 1) := by rw [Nat.pow_succ]; have := Nat.one_le_two_pow (n := h); omega
  have ones : countOnes (2 ^ (h + 1)) = 1 := by simp [countOnes_eq]
  have mid : 2 ^ (h + 1) / 2 = 2 ^ h := by rw [Nat.pow_succ]; omega
  rw [hashPerfectTree, dif_neg (by omega), if_neg (by rw [length, ones]; simp), if_neg (by omega)]
  simp only [length, mid]

/-- The store of pushed values holds at the root of every perfect tree the reference hash of its
    leaves' values; the induction is on the height, and the leaves below the right half are
    numbered from a + 2^(h-1) because a is aligned. -/
theorem Hashed.hashPerfectTree_eq (hashed : Hashed m hash values store) :
    ∀ (h : Nat) (s : Span) (a : Nat), s.height = h → IsNode s → s.start = leafNumberToIndex a → 2 ^ h ∣ a →
      s.root < store.length → hashPerfectTree m hash ((values.drop a).take (2 ^ h)) = store[s.root]?
  | 0, s, a, height, _, start, _, inside => by
    have root : s.root = leafNumberToIndex a := by rw [← start, Span.root, height]; rfl
    have lt : a < values.length := by
      rw [root, hashed.length] at inside
      exact leafNumberToIndex_strictMono.lt_iff_lt.mp inside
    obtain ⟨_, stored⟩ := hashed.leaf a (root ▸ inside)
    rw [root, stored, Nat.pow_zero, List.take_one, List.head?_drop, List.getElem?_eq_getElem lt,
      Option.toList_some, hashPerfectTree_single]
  | h + 1, s, a, height, node, start, aligned, inside => by
    have pos : 0 < s.height := by omega
    obtain ⟨l, r, hl, hr, hp⟩ := hashed.node s node pos inside
    have children := children_lt_root pos
    have leftHash := hashed.hashPerfectTree_eq h s.left a (by simp [height]) (isNode_of_mem node (Span.left_mem_subtrees pos))
      start (Nat.dvd_trans (Nat.pow_dvd_pow 2 (Nat.le_succ h)) aligned) (children.1.trans inside)
    have rightStart := right_start_of_dvd start pos (height ▸ aligned)
    rw [height, Nat.add_sub_cancel] at rightStart
    have rightHash := hashed.hashPerfectTree_eq h s.right (a + 2 ^ h) (by simp [height])
      (isNode_of_mem node (Span.right_mem_subtrees pos)) rightStart
      (Nat.dvd_add (Nat.dvd_trans (Nat.pow_dvd_pow 2 (Nat.le_succ h)) aligned) (dvd_refl _)) (children.2.trans inside)
    have fits : a + 2 ^ (h + 1) ≤ values.length := by
      have last := last_leaf_le_root start (height ▸ aligned)
      rw [height] at last
      have lt := leafNumberToIndex_strictMono.lt_iff_lt.mp (lt_of_le_of_lt last (hashed.length ▸ inside))
      have := Nat.one_le_two_pow (n := h + 1)
      omega
    have length : ((values.drop a).take (2 ^ (h + 1))).length = 2 ^ (h + 1) := by simp; omega
    have half : 2 ^ (h + 1) - 2 ^ h = 2 ^ h := by rw [Nat.pow_succ]; omega
    rw [hashPerfectTree_halves length, List.take_take, Nat.min_eq_left (Nat.pow_le_pow_right two_pos (Nat.le_succ h)),
      List.drop_take, List.drop_drop, half, leftHash, rightHash, hl, hr, hp, height]

end Perfect

section Mountains

variable {m : Merge H} {hash : T → Nat → H} {values : List T} {store : List H}

/-- Run lemma of the loop of `hash_mmr` over the mountains from leaf number a: the largest perfect
    tree that fits is the next mountain, and its reference hash is the one the store holds at
    its peak. The heights are descending, so a stays aligned to every height after it. -/
theorem Hashed.hashMmrLoop_tiles (hashed : Hashed m hash values store) :
    ∀ (hs : List Nat) (a : Nat) (ms : List (Span × H)) (peaks : List (H × Nat)),
      hs.Pairwise (· > ·) → (∀ x ∈ hs, 2 ^ (x + 1) ∣ a) → values.length = a + (hs.map (2 ^ ·)).sum →
      ms.map Prod.fst = layout (leafNumberToIndex a) hs → Tiles store (leafNumberToIndex a) ms →
      hashMmrLoop m hash values a peaks = some (peaks ++ peakRoots ms)
  | [], a, ms, peaks, _, _, total, first, _ => by
    obtain rfl : ms = [] := by simpa [layout] using first
    rw [hashMmrLoop, if_neg (by simp at total; omega)]
    simp [peakRoots]
  | h :: hs, a, ms, peaks, desc, aligned, total, first, tiles => by
    obtain ⟨y, rest, rfl⟩ : ∃ y rest, ms = y :: rest :=
      List.exists_cons_of_ne_nil (by rintro rfl; simp [layout] at first)
    simp only [List.map_cons, layout, List.cons.injEq] at first
    obtain ⟨yFirst, restFirst⟩ := first
    obtain ⟨-, node, rootIn, stored, tiles'⟩ := tiles
    have smaller := List.pairwise_cons.mp desc
    have below : (hs.map (2 ^ ·)).sum < 2 ^ h := sum_two_pow_lt smaller.2 smaller.1
    simp only [List.map_cons, List.sum_cons] at total
    have height : bitLength (values.length - a) - 1 = h := by
      rw [bitLength_eq (k := h) (by omega) (by rw [Nat.pow_succ]; omega)]
      rfl
    have yHeight : y.1.height = h := by rw [yFirst]
    have alignedHere := aligned h List.mem_cons_self
    have hashEq := hashed.hashPerfectTree_eq h y.1 a yHeight node (by rw [yFirst])
      (Nat.dvd_trans (Nat.pow_dvd_pow 2 (Nat.le_succ h)) alignedHere) rootIn
    rw [stored] at hashEq
    have next : leafNumberToIndex a + size h = leafNumberToIndex (a + 2 ^ h) := by
      rw [leafNumberToIndex_add_of_dvd alignedHere (Nat.pow_lt_pow_right (by decide) (Nat.lt_succ_self h)),
        leafNumberToIndex_two_pow]
    have rootNext : y.1.root + 1 = leafNumberToIndex (a + 2 ^ h) := by rw [Span.root_add_one, yFirst, ← next]
    have stillAligned : ∀ x ∈ hs, 2 ^ (x + 1) ∣ a + 2 ^ h := fun x mem =>
      Nat.dvd_add (aligned x (List.mem_cons_of_mem _ mem)) (Nat.pow_dvd_pow 2 (smaller.1 x mem))
    rw [hashMmrLoop, if_pos (by omega)]
    simp only [height, if_pos (show a + 2 ^ h ≤ values.length by omega), hashEq]
    rw [hashed.hashMmrLoop_tiles hs (a + 2 ^ h) rest _ smaller.2 stillAligned (by omega) (by rw [restFirst, next])
      (rootNext ▸ tiles')]
    simp [peakRoots, yHeight]

/-- The root of a range built by pushing nonempty values is the reference root `hash_mmr` of the
    tests: each peak is the perfect-tree hash of its mountain's values, bagged from the right. -/
theorem fromLeaves_root_eq_hashMmr (m : Merge H) (hash : T → Nat → H) {values : List T} (nonempty : values ≠ []) :
    ∃ mmr root, fromLeaves m hash values = .ok mmr ∧ mmr.getRoot m = .ok root ∧ hashMmr m hash values = some root := by
  obtain ⟨mmr, run, pushed, -, -⟩ :=
    foldlM_push_hashed values [] _ (hashed_new : Hashed m hash [] new.store) rfl
  have hashed : Hashed m hash values mmr.store := pushed
  obtain ⟨ms, first, tiles⟩ := hashed.tiles
  obtain ⟨root, rooted⟩ := hashed.getRoot_ok nonempty
  have total : values.length = 0 + (values.length.bitIndices.reverse.map (2 ^ ·)).sum := by
    rw [List.map_reverse, List.sum_reverse, Nat.sum_map_two_pow_bitIndices, Nat.zero_add]
  have loop := hashed.hashMmrLoop_tiles values.length.bitIndices.reverse 0 ms [] (heights_desc _)
    (fun _ _ => Nat.dvd_zero _) total first tiles
  refine ⟨mmr, root, run, rooted, ?_⟩
  rw [hashMmr, loop, List.nil_append]
  dsimp only
  rw [← hashed.getRoot_eq nonempty first tiles, rooted]

theorem three_values_root_is_reference :
    [1, 2, 3] ≠ ([] : List Nat) ∧ ∃ mmr root, fromLeaves countingMerge (fun v n => v + n) [1, 2, 3] = .ok mmr ∧
      mmr.getRoot countingMerge = .ok root ∧ hashMmr countingMerge (fun v n => v + n) [1, 2, 3] = some root :=
  ⟨by decide, fromLeaves_root_eq_hashMmr countingMerge (fun v n => v + n) (by decide)⟩

end Mountains

end Albatross.Mmr
