import Albatross.Mmr.Numbering

/- The peaks of a range of a valid size (peaks.rs). The range with n leaves is one perfect tree
   per set bit of n, the highest first, laid out one after another: its mountains.
   `PeakIterator` finds them from the left, by doubling to the first and then descending the
   left edge below each one's right sibling; `RevPeakIterator` from the right, stepping back over
   one whole tree at a time. Both are shown to yield the mountains' positions, in opposite
   orders, and the mountains to be exactly the nodes inside the range whose parent is not. -/
namespace Albatross.Mmr

open PerfectTree

/-- The mountains of the range with n leaves, left to right. -/
def mountains (n : Nat) : List Span := layout 0 n.bitIndices.reverse

/-- A peak of the range of the first `width` indices: a node inside whose parent is not. -/
def IsPeak (width : Nat) (s : Span) : Prop :=
  IsNode s ∧ s.root < width ∧ ∀ p, IsNode p → 0 < p.height → (p.left = s ∨ p.right = s) → width ≤ p.root

/-- The position the iterators give a peak: its root, its height, on the left. -/
def peakPosition (m : Span) : Position := ⟨m.root, m.height, false⟩

section Layouts

theorem root_add_one_of_mem_layout {b : Nat} {hs : List Nat} {m : Span} (mem : m ∈ layout b hs) :
    m.root + 1 = b + (hs.map size).sum ∨ ∃ m' ∈ layout b hs, m'.start = m.root + 1 := by
  induction hs generalizing b with
  | nil => simp [layout] at mem
  | cons h hs ih =>
    simp only [layout, List.mem_cons] at mem ⊢
    rcases mem with rfl | later
    · cases hs with
      | nil =>
        left
        simp [Span.root_add_one]
      | cons g gs =>
        right
        exact ⟨⟨g, b + size h⟩, .inr (by simp [layout]), by simp [Span.root_add_one]⟩
    · rcases ih later with last | ⟨m', mem', next⟩
      · left
        simp only [List.map_cons, List.sum_cons]
        omega
      · exact .inr ⟨m', .inr mem', next⟩

theorem exists_mem_layout {b i : Nat} {hs : List Nat} (low : b ≤ i) (high : i < b + (hs.map size).sum) :
    ∃ m ∈ layout b hs, m.start ≤ i ∧ i ≤ m.root := by
  induction hs generalizing b with
  | nil =>
    simp only [List.map_nil, List.sum_nil] at high
    omega
  | cons h hs ih =>
    have ends := Span.root_add_one ⟨h, b⟩
    simp only [List.map_cons, List.sum_cons] at high
    by_cases first : i < b + size h
    · exact ⟨⟨h, b⟩, by simp [layout], low, by dsimp only at ends; omega⟩
    · obtain ⟨m, mem, within⟩ := ih (b := b + size h) (by omega) (by omega)
      exact ⟨m, by simp [layout, mem], within⟩

theorem root_lt_of_mem_layout {b : Nat} {hs : List Nat} {m : Span} (mem : m ∈ layout b hs) :
    m.root < b + (hs.map size).sum := by
  induction hs generalizing b with
  | nil => simp [layout] at mem
  | cons h hs ih =>
    simp only [layout, List.mem_cons] at mem
    simp only [List.map_cons, List.sum_cons]
    rcases mem with rfl | later
    · have := Span.root_add_one ⟨h, b⟩
      dsimp only at this
      omega
    · have := ih later
      omega

theorem end_lt_of_mem_layout {b : Nat} {hs : List Nat} {m : Span} (desc : hs.Pairwise (· > ·))
    (mem : m ∈ layout b hs) : b + (hs.map size).sum < m.root + 1 + size m.height := by
  induction hs generalizing b with
  | nil => simp [layout] at mem
  | cons h hs ih =>
    rw [List.pairwise_cons] at desc
    simp only [layout, List.mem_cons] at mem
    simp only [List.map_cons, List.sum_cons]
    rcases mem with rfl | later
    · have rest := sum_size_lt desc.2 desc.1
      have := Span.root_add_one ⟨h, b⟩
      dsimp only at *
      omega
    · have := ih desc.2 later
      omega

theorem sum_size_add_length (hs : List Nat) : (hs.map size).sum + hs.length = 2 * (hs.map (2 ^ ·)).sum := by
  induction hs with
  | nil => rfl
  | cons h hs ih =>
    have := size_add_one h
    rw [Nat.pow_succ] at this
    simp only [List.map_cons, List.sum_cons, List.length_cons]
    omega

end Layouts

section Mountains

theorem heights_desc (n : Nat) : n.bitIndices.reverse.Pairwise (· > ·) := by
  rw [List.pairwise_reverse]
  exact List.sortedLT_iff_pairwise.mp Nat.bitIndices_sorted

theorem map_height_mountains (n : Nat) : (mountains n).map Span.height = n.bitIndices.reverse :=
  map_height_layout 0 _

theorem sum_size_mountains (n : Nat) : (n.bitIndices.reverse.map size).sum = leafNumberToIndex n := by
  have twice := sum_size_add_length n.bitIndices
  rw [Nat.sum_map_two_pow_bitIndices] at twice
  rw [List.map_reverse, List.sum_reverse, leafNumberToIndex, countOnes_eq]
  omega

theorem sum_leaves_mountains (n : Nat) : ((mountains n).map fun m => 2 ^ m.height).sum = n := by
  rw [← Function.comp_def, ← List.map_map, map_height_mountains, List.map_reverse, List.sum_reverse,
    Nat.sum_map_two_pow_bitIndices]

theorem isNode_of_mem_mountains {n : Nat} {m : Span} (mem : m ∈ mountains n) : IsNode m := by
  refine ⟨n, layout_mem_subtrees (heights_desc n) (fun x inBits => ?_) m mem⟩
  rw [List.mem_reverse] at inBits
  exact lt_of_lt_of_le Nat.lt_two_pow_self (Nat.two_pow_le_of_mem_bitIndices inBits)

/-- After each mountain comes a leaf: the first of the next mountain, or the next leaf to be
added. So every mountain is a left child. -/
theorem indexToHeight_after_mountain {n : Nat} {m : Span} (mem : m ∈ mountains n) :
    indexToHeight (m.root + 1) = 0 := by
  rcases root_add_one_of_mem_layout mem with last | ⟨m', mem', next⟩
  · rw [Nat.zero_add, sum_size_mountains] at last
    obtain ⟨s, node, zero, root⟩ := (isLeaf_iff _).mpr ⟨n, last.symm⟩
    rw [← root, indexToHeight_root node, zero]
  · have leaf := isNode_of_mem (isNode_of_mem_mountains mem') (Span.leftSpine_mem (s := m') (Nat.zero_le _))
    rw [← next]
    simpa using indexToHeight_root leaf

theorem ofIndex_mountain {n : Nat} {m : Span} (mem : m ∈ mountains n) :
    Position.ofIndex m.root = peakPosition m := by
  simp [Position.ofIndex, peakPosition, indexToHeight_root (isNode_of_mem_mountains mem),
    indexToHeight_after_mountain mem]

end Mountains

section Forward

theorem firstPeakLoop_eq (width : Nat) :
    ∀ fuel a, a ≤ Nat.log2 (width + 1) + 1 → Nat.log2 (width + 1) + 1 - a ≤ fuel →
      firstPeakLoop fuel width (2 ^ a) = 2 ^ (Nat.log2 (width + 1) + 1) := by
  intro fuel
  induction fuel with
  | zero =>
    intro a low enough
    rw [firstPeakLoop, show a = Nat.log2 (width + 1) + 1 by omega]
  | succ fuel ih =>
    intro a low enough
    have fits : 2 ^ a - 1 ≤ width ↔ a ≤ Nat.log2 (width + 1) := by
      rw [Nat.le_log2 (by omega)]
      have := Nat.one_le_two_pow (n := a)
      omega
    rw [firstPeakLoop]
    split
    · rw [Nat.shiftLeft_eq, Nat.pow_one, ← Nat.pow_succ]
      exact ih (a + 1) (by omega) (by omega)
    · rw [show a = Nat.log2 (width + 1) + 1 by omega]

/-- `PeakIterator::new` starts at the highest tree that fits, which starts at index 0. -/
theorem firstPeak_eq {width : Nat} (pos : 0 < width) :
    firstPeak width = some (peakPosition ⟨Nat.log2 (width + 1) - 1, 0⟩) := by
  have atLeast : 1 ≤ Nat.log2 (width + 1) := (Nat.le_log2 (by omega)).mpr (by omega)
  have loop := firstPeakLoop_eq width (width + 2) 0 (by omega)
    (by have := Nat.log2_le_self (width + 1); omega)
  have half : 2 ^ (Nat.log2 (width + 1) + 1) >>> 1 = size (Nat.log2 (width + 1) - 1) + 1 := by
    rw [Nat.shiftRight_eq_div_pow, Nat.pow_one, size_add_one, Nat.sub_add_cancel atLeast, Nat.pow_succ,
      Nat.mul_div_cancel _ (by decide)]
  rw [Nat.pow_zero] at loop
  simp only [firstPeak, Nat.ne_of_gt pos, if_false, loop, half, Nat.add_sub_cancel, countOnes_size,
    peakPosition, Span.root, Nat.zero_add]

theorem leftChild_peakPosition {m : Span} (pos : 0 < m.height) :
    (peakPosition m).leftChild = some (peakPosition m.left) := by
  have below := m.left_root_add_two_pow pos
  simp only [peakPosition, Position.leftChild, pos, if_true, Span.left_height, Option.some.injEq,
    Position.mk.injEq, and_true]
  omega

theorem descendLeftLoop_none (width fuel : Nat) : descendLeftLoop fuel width none = none := by
  cases fuel <;> rfl

theorem descendLeftLoop_found {width c g : Nat} (fits : c + size g ≤ width) :
    ∀ h f, g ≤ h → h - g < f → (∀ k, g < k → k ≤ h → width < c + size k) →
      descendLeftLoop f width (some (peakPosition ⟨h, c⟩)) = some (peakPosition ⟨g, c⟩) := by
  intro h f
  induction f generalizing h with
  | zero => intro _ short; omega
  | succ f ih =>
    intro low enough above
    have width1 := one_le_size g
    rw [descendLeftLoop]
    by_cases top : h = g
    · subst top
      rw [if_neg (by simp [peakPosition, Span.root]; omega)]
    · have outside := above h (by omega) le_rfl
      rw [if_pos (by simp [peakPosition, Span.root]; omega), leftChild_peakPosition (by simp; omega)]
      exact ih (h - 1) (by omega) (by omega) (fun k lower upper => above k lower (by omega))

theorem descendLeftLoop_past {width c : Nat} (ends : width = c) (pos : 0 < c) :
    ∀ h f, h < f → descendLeftLoop f width (some (peakPosition ⟨h, c⟩)) = none := by
  intro h f
  induction f generalizing h with
  | zero => intro short; omega
  | succ f ih =>
    intro enough
    have width1 := one_le_size h
    rw [descendLeftLoop, if_pos (by simp [peakPosition, Span.root]; omega)]
    cases h with
    | zero => simp [peakPosition, Position.leftChild, descendLeftLoop_none]
    | succ h =>
      rw [leftChild_peakPosition (by simp)]
      exact ih h (by omega)

/-- `PeakIterator::next` descends from the left child of the right sibling, which starts where
the tree ends. -/
theorem nextPeak_peakPosition (width : Nat) (m : Span) :
    nextPeak width (peakPosition m) =
      descendLeftLoop (m.height + 1) width (peakPosition (m.shift (size m.height))).leftChild := by
  have sibling : (peakPosition m).sibling = { peakPosition (m.shift (size m.height)) with rightNode := true } := by
    have := Nat.one_le_two_pow (n := m.height + 1)
    simp only [peakPosition, Position.sibling, Bool.false_eq_true, if_false, Bool.not_false, Span.root,
      Span.shift, Position.mk.injEq, and_true]
    unfold size
    omega
  rw [nextPeak, sibling]
  rfl

/-- One step of `PeakIterator::next`: from a mountain to the next one, or to the end. -/
theorem nextPeak_layout {b t : Nat} {hs : List Nat} (desc : (t :: hs).Pairwise (· > ·)) :
    nextPeak (b + ((t :: hs).map size).sum) (peakPosition ⟨t, b⟩) =
      (layout (b + size t) hs).head?.map peakPosition := by
  rw [List.pairwise_cons] at desc
  have width1 := one_le_size t
  rw [nextPeak_peakPosition]
  simp only [List.map_cons, List.sum_cons, Span.shift]
  cases hs with
  | nil =>
    cases t with
    | zero => simp [peakPosition, Position.leftChild, descendLeftLoop_none, layout]
    | succ t =>
      rw [leftChild_peakPosition (by simp)]
      simp only [List.map_nil, List.sum_nil, Nat.add_zero, layout, List.head?_nil, Option.map_none]
      exact descendLeftLoop_past rfl (by omega) t _ (by simp)
  | cons h hs =>
    have below := desc.1 h (by simp)
    have rest := sum_size_lt (List.pairwise_cons.mp desc.2).2 (List.pairwise_cons.mp desc.2).1
    have bigger (k : Nat) (above : h < k) : size h + (hs.map size).sum < size k := by
      have := size_le_size (show h + 1 ≤ k by omega)
      rw [size_succ] at this
      omega
    rw [leftChild_peakPosition (by simp; omega)]
    simp only [layout, List.head?_cons, Option.map_some, List.map_cons, List.sum_cons, Span.left]
    exact descendLeftLoop_found (by omega) (t - 1) _ (by omega) (by omega)
      (fun k above _ => by have := bigger k above; omega)

theorem peaksLoop_layout :
    ∀ (hs : List Nat) (b t f : Nat), (t :: hs).Pairwise (· > ·) → hs.length < f →
      peaksLoop f (b + ((t :: hs).map size).sum) (some (peakPosition ⟨t, b⟩)) =
        (layout b (t :: hs)).map peakPosition := by
  intro hs
  induction hs with
  | nil =>
    intro b t f _ enough
    obtain ⟨f, rfl⟩ : ∃ g, f = g + 1 := ⟨f - 1, by simp at enough; omega⟩
    rw [peaksLoop, nextPeak_layout (by simp)]
    cases f <;> simp [peaksLoop, layout]
  | cons h hs ih =>
    intro b t f desc enough
    obtain ⟨f, rfl⟩ : ∃ g, f = g + 1 := ⟨f - 1, by simp at enough; omega⟩
    rw [peaksLoop, nextPeak_layout desc]
    simp only [layout, List.head?_cons, Option.map_some, List.map_cons, List.cons.injEq, true_and]
    have step := ih (b + size t) h f (List.pairwise_cons.mp desc).2 (by simp at enough; omega)
    simp only [List.map_cons, List.sum_cons, layout] at step ⊢
    rw [← step, Nat.add_assoc]

theorem peaks_eq (n : Nat) : peaks (leafNumberToIndex n) = (mountains n).map peakPosition := by
  rw [mountains, ← sum_size_mountains]
  cases hs : n.bitIndices.reverse with
  | nil => simp [peaks, peaksLoop, firstPeak, layout]
  | cons t rest =>
    have desc := heights_desc n
    rw [hs] at desc
    have first : Nat.log2 (((t :: rest).map size).sum + 1) - 1 = t := by
      have low : size t ≤ ((t :: rest).map size).sum := by simp
      have high : ((t :: rest).map size).sum < size (t + 1) := by
        have := sum_size_lt (List.pairwise_cons.mp desc).2 (List.pairwise_cons.mp desc).1
        rw [size_succ]
        simp only [List.map_cons, List.sum_cons]
        omega
      have atLeast := (size_le_iff t _).mp low
      have atMost : ¬ (t + 1 + 1 ≤ Nat.log2 (((t :: rest).map size).sum + 1)) := fun above =>
        absurd ((size_le_iff (t + 1) _).mpr above) (by omega)
      omega
    have count : rest.length < ((t :: rest).map size).sum + 1 := by
      have := List.length_le_sum_of_one_le ((t :: rest).map size) (by simp [one_le_size])
      simp only [List.length_map, List.length_cons] at this
      omega
    have pos : 0 < ((t :: rest).map size).sum := by
      have := one_le_size t
      simp only [List.map_cons, List.sum_cons]
      omega
    rw [peaks, firstPeak_eq pos, first]
    simpa using peaksLoop_layout rest 0 t _ desc count

end Forward

section Backward

theorem revPeaksLoop_none (fuel : Nat) : revPeaksLoop fuel none = [] := by
  cases fuel <;> rfl

/-- One step of `RevPeakIterator::next`: back over the whole tree, unless it starts at 0. -/
theorem revPeaksLoop_peakPosition (f : Nat) (m : Span) :
    revPeaksLoop (f + 1) (some (peakPosition m)) =
      peakPosition m :: revPeaksLoop f
        (if m.start = 0 then none else some ⟨m.start - 1, indexToHeight (m.start - 1), false⟩) := by
  have ends := m.root_add_one
  have width := one_le_size m.height
  have first : m.root + 1 = 2 ^ (m.height + 1) - 1 ↔ m.start = 0 := by
    unfold size at *
    omega
  have back : m.root - (2 ^ (m.height + 1) - 1) = m.start - 1 := by
    unfold size at *
    omega
  simp only [revPeaksLoop, peakPosition, first, back]

theorem revPeaksLoop_layout (h : Nat) (hs : List Nat) :
    ∀ f, (∀ m ∈ layout 0 (hs ++ [h]), IsNode m) → hs.length < f →
      revPeaksLoop f (some (peakPosition ⟨h, (hs.map size).sum⟩)) =
        ((layout 0 (hs ++ [h])).map peakPosition).reverse := by
  induction hs using List.reverseRecOn generalizing h with
  | nil =>
    intro f _ enough
    obtain ⟨f, rfl⟩ : ∃ g, f = g + 1 := ⟨f - 1, by simp at enough; omega⟩
    simp [revPeaksLoop_peakPosition, revPeaksLoop_none, layout]
  | append_singleton hs g ih =>
    intro f nodes enough
    obtain ⟨f, rfl⟩ : ∃ g, f = g + 1 := ⟨f - 1, by simp at enough; omega⟩
    have before : ⟨g, (hs.map size).sum⟩ ∈ layout 0 (hs ++ [g] ++ [h]) := by
      rw [layout_append, layout_append]
      simp
    have height := indexToHeight_root (nodes _ before)
    have ends := Span.root_add_one ⟨g, (hs.map size).sum⟩
    have width := one_le_size g
    have start : ((hs ++ [g]).map size).sum - 1 = (⟨g, (hs.map size).sum⟩ : Span).root := by
      simp only [List.map_append, List.sum_append, List.map_cons, List.map_nil, List.sum_cons,
        List.sum_nil] at *
      omega
    have notFirst : ((hs ++ [g]).map size).sum ≠ 0 := by
      simp only [List.map_append, List.sum_append, List.map_cons, List.map_nil, List.sum_cons, List.sum_nil]
      omega
    have earlier := ih g f (fun m mem => nodes m (by
        rw [layout_append] at mem
        rw [layout_append, layout_append]
        exact List.mem_append_left _ mem))
      (by simp at enough; omega)
    rw [revPeaksLoop_peakPosition, if_neg notFirst, start, height]
    simp only [peakPosition] at earlier ⊢
    rw [earlier, layout_append 0 h (hs ++ [g])]
    simp [peakPosition]

theorem revPeaks_eq (n : Nat) : revPeaks (leafNumberToIndex n) = ((mountains n).map peakPosition).reverse := by
  rw [mountains, ← sum_size_mountains]
  have nodes : ∀ m ∈ layout 0 n.bitIndices.reverse, IsNode m := fun m mem => isNode_of_mem_mountains mem
  cases hs : n.bitIndices.reverse using List.reverseRecOn with
  | nil => simp [revPeaks, revPeaksLoop_none, layout]
  | append_singleton rest h =>
    rw [hs] at nodes
    have last : ⟨h, (rest.map size).sum⟩ ∈ layout 0 (rest ++ [h]) := by simp [layout_append]
    have ends := Span.root_add_one ⟨h, (rest.map size).sum⟩
    have width1 := one_le_size h
    have top : ((rest ++ [h]).map size).sum - 1 = (⟨h, (rest.map size).sum⟩ : Span).root := by
      simp only [List.map_append, List.sum_append, List.map_cons, List.map_nil, List.sum_cons, List.sum_nil] at *
      omega
    have count : rest.length < ((rest ++ [h]).map size).sum + 1 := by
      have := List.length_le_sum_of_one_le (rest.map size) (by simp [one_le_size])
      simp only [List.length_map, List.map_append, List.sum_append] at *
      omega
    rw [revPeaks, if_neg (by simp; omega), top, indexToHeight_root (nodes _ last)]
    exact revPeaksLoop_layout h rest _ nodes count

-- the README's range of 11 nodes, with peaks 7, 10 and 11 counted from 1
example : (peaks 11).map Position.index = [6, 9, 10] ∧ (revPeaks 11).map Position.index = [10, 9, 6] := by
  decide

end Backward

section Peaks

/-- The mountains are the peaks: inside the range, with their parents outside. -/
theorem isPeak_iff (n : Nat) (s : Span) : IsPeak (leafNumberToIndex n) s ↔ s ∈ mountains n := by
  have tiled := sum_size_mountains n
  constructor
  · rintro ⟨node, inside, top⟩
    have high : s.root < 0 + (n.bitIndices.reverse.map size).sum := by
      rw [Nat.zero_add, tiled]
      exact inside
    obtain ⟨m, mem, within⟩ := exists_mem_layout (Nat.zero_le s.root) high
    obtain ⟨H, hs⟩ := node
    obtain ⟨H', hm⟩ := isNode_of_mem_mountains mem
    have below := Span.mem_subtrees_of_root_mem (mem_tree_of_le (le_max_left H H') hs)
      (mem_tree_of_le (le_max_right H H') hm) within
    by_cases same : s = m
    · exact same ▸ mem
    · obtain ⟨p, pm, pos, child⟩ := Span.exists_parent below same
      have outside := top p (isNode_of_mem (isNode_of_mem_mountains mem) pm) pos child
      have := (Span.root_mem_of_mem pm).2
      have := root_lt_of_mem_layout mem
      rw [Nat.zero_add, tiled] at this
      omega
  · intro mem
    have node := isNode_of_mem_mountains mem
    have desc := end_lt_of_mem_layout (heights_desc n) mem
    rw [Nat.zero_add, tiled] at desc
    refine ⟨node, ?_, fun p _ pos child => ?_⟩
    · have := root_lt_of_mem_layout mem
      rwa [Nat.zero_add, tiled] at this
    · rcases child with left | right
      · have parent := p.left_root_add_two_pow pos
        have width := size_add_one p.left.height
        rw [Span.left_height, Nat.sub_add_cancel pos, show p.height - 1 = s.height by rw [← left]; rfl] at width
        rw [left] at parent
        omega
      · have sideways := (rightNode_iff node).mpr ⟨p, ‹IsNode p›, pos, right⟩
        rw [ofIndex_mountain mem] at sideways
        simp [peakPosition] at sideways

theorem peaks_eq_ofIndex (n : Nat) :
    peaks (leafNumberToIndex n) = (mountains n).map fun m => Position.ofIndex m.root := by
  rw [peaks_eq]
  exact List.map_congr_left fun m mem => (ofIndex_mountain mem).symm

theorem revPeaks_eq_reverse (n : Nat) : revPeaks (leafNumberToIndex n) = (peaks (leafNumberToIndex n)).reverse := by
  rw [revPeaks_eq, peaks_eq]

theorem peaks_height_desc (n : Nat) : (peaks (leafNumberToIndex n)).Pairwise fun p q => q.height < p.height := by
  have desc := heights_desc n
  rw [← map_height_mountains, List.pairwise_map] at desc
  rw [peaks_eq, List.pairwise_map]
  exact desc

theorem sum_numLeaves_peaks (n : Nat) : ((peaks (leafNumberToIndex n)).map Position.numLeaves).sum = n := by
  rw [peaks_eq, List.map_map]
  exact sum_leaves_mountains n

end Peaks

/-- The position arithmetic of position.rs and both peak iterators of peaks.rs against the
post-order numbering of the infinite range: every index is exactly one node; at a node's index
`index_to_height` leaves its loop through `all_ones` with the node's height, `right_node` tells a
right child, the sibling and parent positions are the node's neighbours' and the parent's child on
the node's side is the node, and the extreme leaves are the first and last leaves below it;
`leaf_number_to_index` enumerates the leaves in increasing order; and on every valid size both
iterators yield the positions of the range's peaks, one per set bit of the leaf count, in
opposite orders. -/
theorem position_arithmetic_matches_numbering :
    (∀ i, ∃ s, IsNode s ∧ s.root = i) ∧
    (∀ s t, IsNode s → IsNode t → s.root = t.root → s = t) ∧
    (∀ s, IsNode s →
      allOnes (moveLeftLoop (s.root + 1) (s.root + 1)) = true ∧
      indexToHeight s.root = s.height ∧
      ((Position.ofIndex s.root).rightNode = true ↔ IsRightChild s) ∧
      (Position.ofIndex s.root).sibling.sibling = Position.ofIndex s.root ∧
      (∃ p, IsNode p ∧ 0 < p.height ∧
        ((p.left = s ∧ (Position.ofIndex s.root).sibling = Position.ofIndex p.right.root) ∨
          (p.right = s ∧ (Position.ofIndex s.root).sibling = Position.ofIndex p.left.root)) ∧
        (Position.ofIndex s.root).parent = Position.ofIndex p.root ∧
        (if (Position.ofIndex s.root).rightNode then (Position.ofIndex p.root).rightChild
          else (Position.ofIndex p.root).leftChild) = some (Position.ofIndex s.root)) ∧
      s.leaves.head?.map (fun leaf => Position.ofIndex leaf.root) = some (Position.ofIndex s.root).leftmostLeaf ∧
      s.leaves.getLast?.map (fun leaf => Position.ofIndex leaf.root) =
        some (Position.ofIndex s.root).rightmostLeaf) ∧
    StrictMono leafNumberToIndex ∧
    (∀ i, (∃ s, IsNode s ∧ s.height = 0 ∧ s.root = i) ↔ ∃ n, leafNumberToIndex n = i) ∧
    (∀ n, peaks (leafNumberToIndex n) = (mountains n).map (fun m => Position.ofIndex m.root) ∧
      revPeaks (leafNumberToIndex n) = (peaks (leafNumberToIndex n)).reverse ∧
      (peaks (leafNumberToIndex n)).Pairwise (fun p q => q.height < p.height) ∧
      ((peaks (leafNumberToIndex n)).map Position.numLeaves).sum = n ∧
      ∀ s, IsPeak (leafNumberToIndex n) s ↔ s ∈ mountains n) := by
  refine ⟨exists_node, fun s t ns nt same => node_eq_of_root ns nt same, fun s node => ?_,
    leafNumberToIndex_strictMono, isLeaf_iff, fun n => ?_⟩
  · exact ⟨allOnes_moveLeftLoop_root node, indexToHeight_root node, rightNode_iff node, sibling_sibling node,
      parent_spec node, leftmostLeaf_eq node, rightmostLeaf_eq node⟩
  · exact ⟨peaks_eq_ofIndex n, revPeaks_eq_reverse n, peaks_height_desc n, sum_numLeaves_peaks n, isPeak_iff n⟩

end Albatross.Mmr
