import Albatross.Mmr.Store
import Albatross.Lib.Increasing
import Albatross.Lib.OptionList

/- Proofs from a range (primitives/mmr/src/mmr/mod.rs). `prove` checks and sorts the leaf
   positions, `prove_positions` walks the peaks, and `prove_for_peak` climbs from the
   positions below one peak with a queue, adding a node's sibling as a proof node unless the
   sibling is next in the queue. `sort_unstable` is modelled by insertion sort: positions are
   equal exactly when their indices are, so the two sorts agree. The verifier of proof.rs
   climbs with the same queue and reads a proof node exactly where the prover wrote one; so
   every proof that `prove` makes of a range built by pushes is accepted against its root. -/
namespace Albatross.Mmr

open PerfectTree

variable {H T : Type}

namespace MerkleMountainRange

/-- The `while let` loop of `prove_for_peak`: the queue of positions and the proof nodes so
    far. It runs on the verifier's fuel, which it never exhausts on the positions `prove`
    gives it (`proveForPeakLoop_climb`). -/
def proveForPeakLoop (mmr : MerkleMountainRange H) (peak : Position) (lowerBound : Nat) :
    Nat → List Position → List H → Except Error (List H)
  | 0, _, _ => .error .proveInvalidLeaves
  | _ + 1, [], proofNodes => .ok proofNodes
  | fuel + 1, position :: queue, proofNodes =>
    if position.index = peak.index then .ok proofNodes
    else
      let sibling := position.sibling
      let popped : Option (List Position) :=
        match queue with
        | front :: rest => if front.index = sibling.index then some rest else none
        | [] => none
      let next : Except Error (List Position × List H) :=
        match popped with
        | some rest => .ok (rest, proofNodes)
        | none =>
          if sibling.index ≥ lowerBound then
            match mmr.store[sibling.index]? with
            | some node => .ok (queue, proofNodes ++ [node])
            | none => .error .inconsistentStore
          else .ok (queue, proofNodes)
      match next with
      | .error e => .error e
      | .ok (queue, proofNodes) => proveForPeakLoop mmr peak lowerBound fuel (queue ++ [position.parent]) proofNodes

/-- `prove_for_peak`: the peak itself when no position is below it, nothing when the one
    position is the peak, the climb otherwise. -/
def proveForPeak (mmr : MerkleMountainRange H) (proofNodes : List H) (positions : List Position)
    (peak : Position) (lowerBound : Nat) : Except Error (List H) :=
  match positions with
  | [] =>
    if peak.index ≥ lowerBound then
      match mmr.store[peak.index]? with
      | some node => .ok (proofNodes ++ [node])
      | none => .error .inconsistentStore
    else .ok proofNodes
  | [position] =>
    if position.index = peak.index then .ok proofNodes
    else mmr.proveForPeakLoop peak lowerBound ((positions.length + 1) * (peak.height + 2)) positions proofNodes
  | _ => mmr.proveForPeakLoop peak lowerBound ((positions.length + 1) * (peak.height + 2)) positions proofNodes

/-- The peak loop of `prove_positions`: the sorted positions not yet used, the proof nodes and
    the peaks without positions since the last peak with some. -/
def provePositionsLoop (mmr : MerkleMountainRange H) (lowerBound : Nat) :
    List Position → List Position → List H → List Position →
      Except Error (List Position × List H × List Position)
  | [], positions, proofNodes, baggable => .ok (positions, proofNodes, baggable)
  | peak :: peaks, positions, proofNodes, baggable =>
    let iOffset := (positions.findIdx? fun pos => pos.index > peak.index).getD positions.length
    let baggable := if iOffset = 0 then baggable ++ [peak] else []
    match mmr.proveForPeak proofNodes (positions.take iOffset) peak lowerBound with
    | .error e => .error e
    | .ok proofNodes => provePositionsLoop mmr lowerBound peaks (positions.drop iOffset) proofNodes baggable

/-- `prove_positions`: the proof for a range of `treeLength` nodes. The peaks left without
    positions at the right end are replaced by their bagging. -/
def provePositions (m : Merge H) (mmr : MerkleMountainRange H) (positions : List Position)
    (treeLength : Nat) (assumePrevious : Bool) : Except Error (Proof H) :=
  match positions with
  | [] => if treeLength = 0 then .ok ⟨0, []⟩ else .error .proveInvalidLeaves
  | first :: _ =>
    if treeLength = 1 ∧ positions.length = 1 ∧ first.index = 0 then .ok ⟨treeLength, []⟩
    else
      let lowerBound := if assumePrevious then first.index else 0
      match mmr.provePositionsLoop lowerBound (peaks treeLength) positions [] [] with
      | .error e => .error e
      | .ok (rest, proofNodes, baggable) =>
        if rest ≠ [] then .error .proveInvalidLeaves
        else if baggable = [] then .ok ⟨treeLength, proofNodes⟩
        else
          let split := proofNodes.length - baggable.length
          match bagging m.merge (((proofNodes.drop split).zip (baggable.map Position.numLeaves)).map .ok).reverse with
          | .error e => .error e
          | .ok bagged => .ok ⟨treeLength, proofNodes.take split ++ [bagged]⟩

/-- `prove`: a proof for the leaves of the given leaf indices, against the range as it is or as
    it was at `verifierState` nodes. -/
def prove (m : Merge H) (mmr : MerkleMountainRange H) (positions : List Nat) (verifierState : Option Nat) :
    Except Error (Proof H) :=
  let length : Except Error Nat :=
    match verifierState with
    | none => .ok mmr.len
    | some x => if x > mmr.len then .error .proveInvalidLeaves else .ok x
  match length with
  | .error e => .error e
  | .ok length =>
    match positions.mapM (fun index =>
        let pos := Position.ofIndex (leafNumberToIndex index)
        if pos.index ≥ length then (.error .proveInvalidLeaves : Except Error Position) else .ok pos) with
    | .error e => .error e
    | .ok positions => provePositions m mmr (positions.insertionSort fun a b => a.index ≤ b.index) length false

end MerkleMountainRange

open MerkleMountainRange

section Climb

variable {m : Merge H} {hash : T → Nat → H} {values : List T} {mmr : MerkleMountainRange H} {sp : Span}

/-- A queue entry of the climb below the peak `sp`: a node below it, at its position, with the
    hash the store holds for it. -/
def Below (store : List H) (sp : Span) (e : Position × H) : Prop :=
  ∃ s ∈ sp.subtrees, e.1 = Position.ofIndex s.root ∧ store[s.root]? = some e.2

/-- What the climb below `sp` has left to do: the levels between each entry and the peak. -/
def climbLeft (sp : Span) (queue : List (Position × H)) : Nat := (queue.map fun e => sp.height - e.1.height).sum

theorem Below.eq {store : List H} (peakNode : IsNode sp) {a b : Position × H} (ha : Below store sp a)
    (hb : Below store sp b) (same : a.1.index = b.1.index) : a = b := by
  obtain ⟨s, ms, as, hs⟩ := ha
  obtain ⟨t, mt, bt, ht⟩ := hb
  rw [as, bt, Position.ofIndex_index, Position.ofIndex_index] at same
  have st := node_eq_of_root (isNode_of_mem peakNode ms) (isNode_of_mem peakNode mt) same
  subst st
  exact Prod.ext (as.trans bt.symm) (Option.some.inj (hs.symm.trans ht))

/-- One level of the climb: an entry below the peak, not the peak, has its sibling and its
    parent below the peak, and the parent's hash is the merge of the two in the order of
    `right_node`. -/
theorem Below.climb (consistent : Consistent m hash values mmr.store) (peakNode : IsNode sp)
    (peakIn : sp.root < mmr.store.length) {e : Position × H} (below : Below mmr.store sp e)
    (notPeak : e.1.index ≠ sp.root) :
    ∃ sib parent, Below mmr.store sp sib ∧ sib.1 = e.1.sibling ∧ Below mmr.store sp parent ∧
      parent.1 = e.1.parent ∧
      parent.2 = (if e.1.rightNode then m.merge sib.2 e.2 parent.1.numLeaves
        else m.merge e.2 sib.2 parent.1.numLeaves) ∧
      e.1.height < sp.height ∧ parent.1.height = e.1.height + 1 := by
  obtain ⟨s, mem, at_, hs⟩ := below
  have proper : s ≠ sp := by
    rintro rfl
    exact notPeak (by rw [at_, Position.ofIndex_index])
  obtain ⟨p, pmem, pos, child⟩ := Span.exists_parent mem proper
  have pn := isNode_of_mem peakNode pmem
  obtain ⟨l, r, hl, hr, hp⟩ := consistent.node p pn pos (lt_of_le_of_lt (Span.root_mem_of_mem pmem).2 peakIn)
  have lower : e.1.height < sp.height := by
    rw [at_, Position.ofIndex, indexToHeight_root (isNode_of_mem peakNode mem)]
    exact Span.height_lt_of_mem mem proper
  have parentHeight : (Position.ofIndex p.root).height = p.height := indexToHeight_root pn
  have numLeaves : (Position.ofIndex p.root).numLeaves = 2 ^ p.height := by rw [Position.numLeaves, parentHeight]
  have leftIn := Span.mem_subtrees_trans (Span.left_mem_subtrees pos) pmem
  have rightIn := Span.mem_subtrees_trans (Span.right_mem_subtrees pos) pmem
  rcases child with rfl | rfl
  · have el : e.2 = l := Option.some.inj (hs.symm.trans hl)
    refine ⟨(Position.ofIndex p.right.root, r), (Position.ofIndex p.root, m.merge l r (2 ^ p.height)),
      ⟨p.right, rightIn, rfl, hr⟩, by rw [at_, sibling_left pn pos], ⟨p, pmem, rfl, hp⟩,
      by rw [at_, parent_left pn pos], ?_, lower, ?_⟩
    · simp [at_, ofIndex_left pn pos, numLeaves, el]
    · rw [parentHeight, at_, ofIndex_left pn pos]
      simp only [Span.left_height]
      omega
  · have er : e.2 = r := Option.some.inj (hs.symm.trans hr)
    refine ⟨(Position.ofIndex p.left.root, l), (Position.ofIndex p.root, m.merge l r (2 ^ p.height)),
      ⟨p.left, leftIn, rfl, hl⟩, by rw [at_, sibling_right pn pos], ⟨p, pmem, rfl, hp⟩,
      by rw [at_, parent_right pn pos], ?_, lower, ?_⟩
    · simp [at_, ofIndex_right pn pos, numLeaves, er]
    · rw [parentHeight, at_, ofIndex_right pn pos]
      simp only [Span.right_height]
      omega

/-- A round of both climbs below the peak, in step: the prover adds the sibling's hash as a
    proof node exactly where the verifier reads one, and both queue the parent. -/
theorem climb_round (consistent : Consistent m hash values mmr.store) (peakNode : IsNode sp)
    (peakIn : sp.root < mmr.store.length) {e : Position × H} {queue : List (Position × H)}
    (below : ∀ x ∈ e :: queue, Below mmr.store sp x) (notPeak : e.1.index ≠ sp.root) (fuel : Nat)
    (proofNodes : List H) :
    ∃ queue' extra, queue' ≠ [] ∧ (∀ x ∈ queue', Below mmr.store sp x) ∧
      climbLeft sp queue' < climbLeft sp (e :: queue) ∧
      mmr.proveForPeakLoop (Position.ofIndex sp.root) 0 (fuel + 1) ((e :: queue).map Prod.fst) proofNodes =
        mmr.proveForPeakLoop (Position.ofIndex sp.root) 0 fuel (queue'.map Prod.fst) (proofNodes ++ extra) ∧
      ∀ rest, rootForPeakLoop m (Position.ofIndex sp.root) (fuel + 1) (e :: queue) (extra ++ rest) =
        rootForPeakLoop m (Position.ofIndex sp.root) fuel queue' rest := by
  obtain ⟨sib, parent, sibBelow, sibPos, parentBelow, parentPos, parentHash, lower, higher⟩ :=
    (below e List.mem_cons_self).climb consistent peakNode peakIn notPeak
  have notPeak' : ¬ e.1.index = (Position.ofIndex sp.root).index := by simpa using notPeak
  have sibHeight : sib.1.height = e.1.height := by rw [sibPos]; rfl
  have sibStored : mmr.store[e.1.sibling.index]? = some sib.2 := by
    obtain ⟨t, -, at_, ht⟩ := sibBelow
    rw [← sibPos, at_, Position.ofIndex_index, ht]
  have parentEq : (e.1.parent, if e.1.rightNode then m.merge sib.2 e.2 e.1.parent.numLeaves
      else m.merge e.2 sib.2 e.1.parent.numLeaves) = parent := by
    rw [← parentPos]
    exact Prod.ext rfl parentHash.symm
  have tail : ∀ x ∈ queue, Below mmr.store sp x := fun x mem => below x (List.mem_cons_of_mem _ mem)
  -- the verifier takes the sibling from the queue when it is next there, else from the proof
  by_cases next : ∃ rest, queue = sib :: rest
  · obtain ⟨rest, rfl⟩ := next
    refine ⟨rest ++ [parent], [], by simp, ?_, ?_, ?_, fun proof => ?_⟩
    · intro x mem
      rcases List.mem_append.mp mem with old | new
      · exact below x (by simp [old])
      · rw [List.mem_singleton.mp new]
        exact parentBelow
    · simp only [climbLeft, List.map_append, List.map_cons, List.sum_append, List.sum_cons, List.map_nil,
        List.sum_nil, higher, sibHeight]
      omega
    · simp [proveForPeakLoop, notPeak, sibPos, parentPos]
    · simp [rootForPeakLoop, notPeak, sibPos, parentEq]
  · have notNext : ∀ front rest, queue = front :: rest → ¬ front.1.index = e.1.sibling.index := by
      intro front rest eq same
      exact next ⟨rest, by rw [eq, Below.eq peakNode (tail front (by simp [eq])) sibBelow (by rw [same, sibPos])]⟩
    refine ⟨queue ++ [parent], [sib.2], by simp, ?_, ?_, ?_, fun proof => ?_⟩
    · intro x mem
      rcases List.mem_append.mp mem with old | new
      · exact tail x old
      · rw [List.mem_singleton.mp new]
        exact parentBelow
    · simp only [climbLeft, List.map_append, List.map_cons, List.sum_append, List.sum_cons, List.map_nil,
        List.sum_nil, higher]
      omega
    · rcases queue with _ | ⟨front, rest⟩
      · simp [proveForPeakLoop, notPeak, sibStored, parentPos]
      · simp [proveForPeakLoop, notPeak, notNext front rest rfl, sibStored, parentPos]
    · rcases queue with _ | ⟨front, rest⟩
      · simp [rootForPeakLoop, notPeak, parentEq]
      · simp [rootForPeakLoop, notPeak, notNext front rest rfl, parentEq]

/-- Run lemma of the climb below one peak: with more fuel than levels left to climb, the
    prover's loop ends, and the verifier's loop, reading the proof nodes the prover added,
    ends at the peak with the hash the store holds for it. -/
theorem climb_run (consistent : Consistent m hash values mmr.store) (peakNode : IsNode sp)
    (peakIn : sp.root < mmr.store.length) {hp : H} (peakHash : mmr.store[sp.root]? = some hp) :
    ∀ (fuel : Nat) (queue : List (Position × H)) (proofNodes : List H), queue ≠ [] →
      (∀ x ∈ queue, Below mmr.store sp x) → climbLeft sp queue < fuel →
      ∃ extra, mmr.proveForPeakLoop (Position.ofIndex sp.root) 0 fuel (queue.map Prod.fst) proofNodes =
          .ok (proofNodes ++ extra) ∧
        ∀ rest, rootForPeakLoop m (Position.ofIndex sp.root) fuel queue (extra ++ rest) = .ok (hp, rest)
  | 0, _, _, _, _, enough => absurd enough (Nat.not_lt_zero _)
  | fuel + 1, e :: queue, proofNodes, _, below, enough => by
    by_cases atPeak : e.1.index = sp.root
    · -- the front is the peak: both loops stop there
      have top : e = (Position.ofIndex sp.root, hp) :=
        Below.eq peakNode (below e List.mem_cons_self) ⟨sp, Span.mem_subtrees_self sp, rfl, peakHash⟩
          (by simpa using atPeak)
      refine ⟨[], by simp [proveForPeakLoop, atPeak], fun rest => ?_⟩
      subst top
      simp [rootForPeakLoop]
    · obtain ⟨queue', extra, nonempty, below', lower, prover, verifier⟩ :=
        climb_round consistent peakNode peakIn below atPeak fuel proofNodes
      obtain ⟨extra', run, check⟩ :=
        climb_run consistent peakNode peakIn peakHash fuel queue' (proofNodes ++ extra) nonempty below' (by omega)
      refine ⟨extra ++ extra', by rw [prover, run, List.append_assoc], fun rest => ?_⟩
      rw [List.append_assoc, verifier, check]

theorem climbLeft_leaves {queue : List (Position × H)} (leaves : ∀ x ∈ queue, x.1.height = 0) :
    climbLeft sp queue = queue.length * sp.height := by
  induction queue with
  | nil => simp [climbLeft]
  | cons x queue ih =>
    simp only [climbLeft, List.map_cons, List.sum_cons] at ih ⊢
    rw [leaves x List.mem_cons_self, ih fun y mem => leaves y (List.mem_cons_of_mem _ mem), List.length_cons]
    simp [Nat.succ_mul, Nat.add_comm]

/-- `prove_for_peak` on some positions is its loop: the shortcut of a single position at the
    peak is the loop's first round. -/
theorem proveForPeak_eq_loop {positions : List Position} (nonempty : positions ≠ []) (proofNodes : List H)
    (peak : Position) (lowerBound : Nat) :
    mmr.proveForPeak proofNodes positions peak lowerBound =
      mmr.proveForPeakLoop peak lowerBound ((positions.length + 1) * (peak.height + 2)) positions proofNodes := by
  rcases positions with _ | ⟨p, _ | ⟨q, rest⟩⟩
  · contradiction
  · have fuel : ([p].length + 1) * (peak.height + 2) = 2 * peak.height + 3 + 1 := by simp; ring
    rw [proveForPeak, fuel]
    split
    · rename_i top
      rw [proveForPeakLoop, if_pos top]
    · rfl
  · rfl

theorem calculateRootForPeak_eq_loop {leaves : List (Position × H)} (nonempty : leaves ≠ []) (peak : Position)
    (proof : List H) :
    calculateRootForPeak m peak leaves proof =
      rootForPeakLoop m peak ((leaves.length + 1) * (peak.height + 2)) leaves proof := by
  rcases leaves with _ | ⟨x, _ | ⟨y, rest⟩⟩
  · contradiction
  · have fuel : ([x].length + 1) * (peak.height + 2) = 2 * peak.height + 3 + 1 := by simp; ring
    rw [calculateRootForPeak, fuel]
    split
    · rename_i top
      rw [rootForPeakLoop, if_pos top]
    · rfl
  · rfl

/-- `prove_for_peak` and `calculate_root_for_peak` on the leaves below one peak: the proof nodes
    the prover adds are those the verifier reads to reach the peak's hash. -/
theorem proveForPeak_climb (consistent : Consistent m hash values mmr.store) (peakNode : IsNode sp)
    (peakIn : sp.root < mmr.store.length) {hp : H} (peakHash : mmr.store[sp.root]? = some hp)
    {group : List (Position × H)} (nonempty : group ≠ []) (below : ∀ x ∈ group, Below mmr.store sp x)
    (leaves : ∀ x ∈ group, x.1.height = 0) (proofNodes : List H) :
    ∃ extra, mmr.proveForPeak proofNodes (group.map Prod.fst) (Position.ofIndex sp.root) 0 = .ok (proofNodes ++ extra) ∧
      ∀ rest, calculateRootForPeak m (Position.ofIndex sp.root) group (extra ++ rest) = .ok (hp, rest) := by
  have peakHeight : (Position.ofIndex sp.root).height = sp.height := indexToHeight_root peakNode
  have enough : climbLeft sp group < (group.length + 1) * ((Position.ofIndex sp.root).height + 2) := by
    rw [climbLeft_leaves leaves, peakHeight, Nat.succ_mul, Nat.mul_add]
    omega
  obtain ⟨extra, run, check⟩ := climb_run consistent peakNode peakIn peakHash _ group proofNodes nonempty below enough
  refine ⟨extra, ?_, fun rest => ?_⟩
  · rw [proveForPeak_eq_loop (by simpa using nonempty), List.length_map]
    exact run
  · rw [calculateRootForPeak_eq_loop nonempty]
    exact check rest

end Climb

section Bagging

variable (merge : H → H → Nat → H)

/-- Bagging peaks that are all there never fails, and bags a list and what follows it one after
    the other. -/
theorem baggingLoop_map_ok :
    ∀ (l : List (H × Nat)) (info : Option (H × Nat)), ∃ info', baggingLoop merge info (l.map .ok) = .ok info' ∧
      ∀ rest, baggingLoop merge info ((l ++ rest).map .ok) = baggingLoop merge info' (rest.map .ok)
  | [], info => ⟨info, rfl, fun _ => rfl⟩
  | (h, n) :: l, info => by
    -- the recursive call starts from the running root after this peak
    simp only [List.map_cons, List.cons_append, baggingLoop]
    exact baggingLoop_map_ok l _

theorem baggingLoop_leaves :
    ∀ (l : List (H × Nat)) (root : H) (leaves : Nat), ∃ root',
      baggingLoop merge (some (root, leaves)) (l.map .ok) = .ok (some (root', leaves + (l.map Prod.snd).sum))
  | [], root, leaves => ⟨root, rfl⟩
  | (h, n) :: l, root, leaves => by
    obtain ⟨root', run⟩ := baggingLoop_leaves l (merge h root (leaves + n)) (leaves + n)
    refine ⟨root', ?_⟩
    simp only [List.map_cons, baggingLoop]
    rw [run, List.sum_cons, Nat.add_assoc]

theorem bagging_map_ok {l : List (H × Nat)} (nonempty : l ≠ []) :
    ∃ root, baggingLoop merge none (l.map .ok) = .ok (some (root, (l.map Prod.snd).sum)) := by
  obtain ⟨⟨h, n⟩, l, rfl⟩ := List.exists_cons_of_ne_nil nonempty
  obtain ⟨root, run⟩ := baggingLoop_leaves merge l h n
  refine ⟨root, ?_⟩
  simp only [List.map_cons, baggingLoop]
  rw [run, List.sum_cons]

theorem bagging_ok {l : List (H × Nat)} (nonempty : l ≠ []) : ∃ root, bagging merge (l.map .ok).reverse = .ok root := by
  obtain ⟨root, run⟩ := bagging_map_ok merge (List.reverse_ne_nil_iff.mpr nonempty)
  exact ⟨root, by rw [← List.map_reverse, bagging, run]⟩

/-- Bagging the rightmost peaks first and putting their bag in their place leaves the root as it
    was: bagging runs from the right. -/
theorem bagging_bagged (pre post : List (H × Nat)) {bag : H}
    (bagged : bagging merge (post.map .ok).reverse = .ok bag) :
    bagging merge ((pre ++ [(bag, (post.map Prod.snd).sum)]).map .ok).reverse =
      bagging merge ((pre ++ post).map .ok).reverse := by
  have nonempty : post.reverse ≠ [] := by
    rintro empty
    rw [List.reverse_eq_nil_iff] at empty
    subst empty
    simp [bagging, baggingLoop] at bagged
  obtain ⟨root, run⟩ := bagging_map_ok merge nonempty
  rw [← List.map_reverse] at bagged
  simp only [bagging, run, Except.ok.injEq] at bagged
  obtain ⟨info, first, append⟩ := baggingLoop_map_ok merge post.reverse none
  have leaves : (post.reverse.map Prod.snd).sum = (post.map Prod.snd).sum := by
    rw [List.map_reverse, List.sum_reverse]
  rw [run, Except.ok.injEq, bagged, leaves] at first
  rw [← List.map_reverse, ← List.map_reverse, List.reverse_append, List.reverse_append, bagging, bagging,
    append, ← first, List.reverse_singleton, List.singleton_append, List.map_cons]
  rfl

end Bagging

section Peaks

variable {m : Merge H} {hash : T → Nat → H} {values : List T} {mmr : MerkleMountainRange H}

/-- A leaf of the range at its position, with the hash the store holds for it. -/
def LeafEntry (store : List H) (x : Position × H) : Prop :=
  ∃ s, IsNode s ∧ s.height = 0 ∧ x.1 = Position.ofIndex s.root ∧ store[s.root]? = some x.2

theorem LeafEntry.extend {store store' : List H} (pre : store <+: store') {x : Position × H}
    (entry : LeafEntry store x) : LeafEntry store' x := by
  obtain ⟨s, ns, zero, pos, stored⟩ := entry
  obtain ⟨lt, same⟩ := List.getElem?_eq_some_iff.mp stored
  exact ⟨s, ns, zero, pos, by rw [← same]; exact List.prefix_iff_getElem?.mp pre _ lt⟩

/-- Mountains with their stored hashes, laid side by side from index b. -/
def Tiles (store : List H) : Nat → List (Span × H) → Prop
  | _, [] => True
  | b, y :: ms => y.1.start = b ∧ IsNode y.1 ∧ y.1.root < store.length ∧ store[y.1.root]? = some y.2 ∧
      Tiles store (y.1.root + 1) ms

/-- The peak positions of tiled mountains. -/
def peakPositions (ms : List (Span × H)) : List Position := ms.map fun y => Position.ofIndex y.1.root

/-- Their hashes with their leaf counts, as the verifier bags them. -/
def peakRoots (ms : List (Span × H)) : List (H × Nat) := ms.map fun y => (y.2, 2 ^ y.1.height)

theorem Tiles.mem {store : List H} : ∀ {b : Nat} {ms : List (Span × H)}, Tiles store b ms →
    ∀ y ∈ ms, IsNode y.1 ∧ y.1.root < store.length ∧ store[y.1.root]? = some y.2
  | _, [], _ => fun _ absent => absurd absent List.not_mem_nil
  | _, _ :: _, ⟨_, node, rootIn, stored, tiles⟩ => fun _ mem => by
    rcases List.mem_cons.mp mem with rfl | mem
    · exact ⟨node, rootIn, stored⟩
    · exact tiles.mem _ mem

theorem Tiles.extend {store store' : List H} (pre : store <+: store') :
    ∀ {b : Nat} {ms : List (Span × H)}, Tiles store b ms → Tiles store' b ms
  | _, [], _ => trivial
  | _, _ :: _, ⟨start, node, rootIn, stored, tiles⟩ =>
    ⟨start, node, Nat.lt_of_lt_of_le rootIn pre.length_le, (List.getElem?_eq_some_iff.mp stored).elim
      fun lt same => by rw [← same]; exact List.prefix_iff_getElem?.mp pre _ lt, tiles.extend pre⟩

theorem mem_subtrees_of_within {s y : Span} (ns : IsNode s) (ny : IsNode y)
    (within : y.start ≤ s.root ∧ s.root ≤ y.root) : s ∈ y.subtrees := by
  obtain ⟨H, hs⟩ := ns
  obtain ⟨H', hy⟩ := ny
  exact Span.mem_subtrees_of_root_mem (mem_tree_of_le (le_max_left H H') hs) (mem_tree_of_le (le_max_right H H') hy)
    within

theorem numLeaves_ofIndex {s : Span} (ns : IsNode s) : (Position.ofIndex s.root).numLeaves = 2 ^ s.height := by
  rw [Position.numLeaves, Position.ofIndex, indexToHeight_root ns]

theorem provePositionsLoop_bagged :
    ∀ (ms : List (Span × H)) (proofNodes : List H) (baggable : List Position),
      (∀ y ∈ ms, mmr.store[y.1.root]? = some y.2) →
      mmr.provePositionsLoop 0 (peakPositions ms) [] proofNodes baggable =
        .ok ([], proofNodes ++ ms.map Prod.snd, baggable ++ peakPositions ms)
  | [], proofNodes, baggable, _ => by simp [peakPositions, provePositionsLoop]
  | y :: ms, proofNodes, baggable, stored => by
    have rest := provePositionsLoop_bagged ms (proofNodes ++ [y.2]) (baggable ++ [Position.ofIndex y.1.root])
      fun y' mem => stored y' (List.mem_cons_of_mem _ mem)
    simp only [peakPositions, List.map_cons] at rest ⊢
    simp [provePositionsLoop, proveForPeak, stored y List.mem_cons_self, rest]

theorem peakRootsLoop_merged :
    ∀ (ps : List Position) (acc : List (H × Nat)) (h : H) (leaves : Nat),
      peakRootsLoop m ps [] [] (acc ++ [(h, leaves)]) =
        .ok ([], [], acc ++ [(h, leaves + (ps.map Position.numLeaves).sum)])
  | [], acc, h, leaves => by simp [peakRootsLoop]
  | peak :: ps, acc, h, leaves => by
    simp only [peakRootsLoop, List.findIdx?_nil, Option.getD_none, List.length_nil, if_true, List.getLast?_concat,
      List.dropLast_concat]
    rw [peakRootsLoop_merged ps acc h (leaves + peak.numLeaves), List.map_cons, List.sum_cons, Nat.add_assoc]

theorem peakRootsLoop_bagged {ps : List Position} (nonempty : ps ≠ []) (acc : List (H × Nat)) (bag : H) :
    peakRootsLoop m ps [] [bag] acc = .ok ([], [], acc ++ [(bag, (ps.map Position.numLeaves).sum)]) := by
  obtain ⟨peak, ps, rfl⟩ := List.exists_cons_of_ne_nil nonempty
  simp only [peakRootsLoop, List.findIdx?_nil, Option.getD_none, List.length_nil, if_true]
  rw [peakRootsLoop_merged, List.map_cons, List.sum_cons]

/-- Run lemma of both peak loops, in step, while positions are left. The positions under each
    peak are its leaves; the prover climbs below a peak with some and adds the stored hash of
    one with none, and the verifier reads exactly those nodes back. What is left when the
    positions run out are the peaks past the last one, whose hashes the prover still adds and
    marks baggable. -/
theorem peaks_run (consistent : Consistent m hash values mmr.store) :
    ∀ (ms : List (Span × H)) (b : Nat) (ls : List (Position × H)) (proofNodes : List H)
      (baggable : List Position) (acc : List (H × Nat)),
      Tiles mmr.store b ms → ls ≠ [] → ls.Pairwise (fun x y => x.1.index ≤ y.1.index) →
      (∀ x ∈ ls, LeafEntry mmr.store x ∧ b ≤ x.1.index ∧ ∃ y ∈ ms, x.1.index ≤ y.1.root) →
      ∃ extra pre post, ms = pre ++ post ∧
        mmr.provePositionsLoop 0 (peakPositions ms) (ls.map Prod.fst) proofNodes baggable =
          .ok ([], proofNodes ++ extra ++ post.map Prod.snd, peakPositions post) ∧
        ∀ tail, peakRootsLoop m (peakPositions ms) ls (extra ++ tail) acc =
          peakRootsLoop m (peakPositions post) [] tail (acc ++ peakRoots pre)
  | [], _, ls, _, _, _, _, nonempty, _, inside => by
    obtain ⟨x, mem⟩ := List.exists_mem_of_ne_nil ls nonempty
    obtain ⟨-, -, y, absent, -⟩ := inside x mem
    cases absent
  | y :: ms, b, ls, proofNodes, baggable, acc, tiles, nonempty, sorted, inside => by
    obtain ⟨start, node, rootIn, stored, tiles'⟩ := tiles
    -- the positions under this peak come first, those past it after
    let k := (ls.findIdx? fun x => y.1.root < x.1.index).getD ls.length
    obtain ⟨taken, dropped⟩ := take_drop_findIdx_sorted (f := fun x : Position × H => x.1.index) (t := y.1.root) sorted
    have proverOffset : ((ls.map Prod.fst).findIdx? fun pos => pos.index > (Position.ofIndex y.1.root).index).getD
        (ls.map Prod.fst).length = k := by
      rw [List.findIdx?_map, List.length_map]
      rfl
    have verifierOffset : (ls.findIdx? fun leaf => leaf.1.index > (Position.ofIndex y.1.root).index).getD ls.length = k :=
      rfl
    have numLeaves := numLeaves_ofIndex node
    have later : ∀ x ∈ ls.drop k, LeafEntry mmr.store x ∧ y.1.root + 1 ≤ x.1.index ∧ ∃ y' ∈ ms, x.1.index ≤ y'.1.root := by
      intro x mem
      rw [dropped, List.mem_filter, decide_eq_true_eq] at mem
      obtain ⟨leaf, -, y', mem', below⟩ := inside x mem.1
      rcases List.mem_cons.mp mem' with rfl | mem'
      · omega
      · exact ⟨leaf, mem.2, y', mem', below⟩
    by_cases none : k = 0
    · -- no position under this peak: the prover adds its hash, the verifier reads it
      have all : ls.drop k = ls := by rw [none, List.drop_zero]
      obtain ⟨extra, pre, post, split, prover, verifier⟩ :=
        peaks_run consistent ms (y.1.root + 1) ls (proofNodes ++ [y.2]) (baggable ++ [Position.ofIndex y.1.root])
          (acc ++ [(y.2, 2 ^ y.1.height)]) tiles' nonempty sorted (by rw [← all]; exact later)
      refine ⟨y.2 :: extra, y :: pre, post, by rw [split]; rfl, ?_, fun tail => ?_⟩
      · simp only [peakPositions, List.map_cons] at prover ⊢
        rw [provePositionsLoop, proverOffset]
        simp only [none, if_true, List.take_zero, List.drop_zero, proveForPeak, ge_iff_le, Nat.zero_le,
          Position.ofIndex_index, stored]
        rw [prover]
        simp
      · simp only [peakPositions, peakRoots, List.map_cons] at verifier ⊢
        simp only [peakRootsLoop]
        rw [verifierOffset]
        simp only [none, if_true, List.cons_append, numLeaves]
        rw [verifier]
        simp
    · -- positions under this peak: both climb below it
      have group : ls.take k ≠ [] := by
        rw [Ne, List.take_eq_nil_iff]
        exact fun h => h.elim none nonempty
      have belowPeak : ∀ x ∈ ls.take k, Below mmr.store y.1 x ∧ x.1.height = 0 := by
        intro x mem
        rw [taken, List.mem_filter, decide_eq_true_eq] at mem
        obtain ⟨⟨s, ns, zero, at_, hs⟩, low, -⟩ := inside x mem.1
        have index : x.1.index = s.root := by rw [at_, Position.ofIndex_index]
        refine ⟨⟨s, mem_subtrees_of_within ns node ⟨by omega, by omega⟩, at_, hs⟩, ?_⟩
        rw [at_, Position.ofIndex, indexToHeight_root ns, zero]
      obtain ⟨extra₁, climbs, reads⟩ := proveForPeak_climb consistent node rootIn stored group
        (fun x mem => (belowPeak x mem).1) (fun x mem => (belowPeak x mem).2) proofNodes
      have proverStep : mmr.provePositionsLoop 0 (peakPositions (y :: ms)) (ls.map Prod.fst) proofNodes baggable =
          mmr.provePositionsLoop 0 (peakPositions ms) ((ls.drop k).map Prod.fst) (proofNodes ++ extra₁) [] := by
        simp only [peakPositions, List.map_cons]
        rw [provePositionsLoop, proverOffset]
        simp only [none, if_false, ← List.map_take, climbs, List.map_drop]
      have verifierStep : ∀ tail, peakRootsLoop m (peakPositions (y :: ms)) ls (extra₁ ++ tail) acc =
          peakRootsLoop m (peakPositions ms) (ls.drop k) tail (acc ++ [(y.2, 2 ^ y.1.height)]) := by
        intro tail
        simp only [peakPositions, List.map_cons]
        simp only [peakRootsLoop]
        rw [verifierOffset]
        simp only [none, if_false, reads, numLeaves]
      by_cases last : ls.drop k = []
      · -- the last peak with positions: the rest are bagged
        refine ⟨extra₁, [y], ms, rfl, ?_, fun tail => ?_⟩
        · rw [proverStep, last, List.map_nil, provePositionsLoop_bagged ms _ [] fun y' mem => (tiles'.mem y' mem).2.2]
          simp
        · rw [verifierStep, last]
          simp [peakRoots]
      · obtain ⟨extra, pre, post, split, prover, verifier⟩ :=
          peaks_run consistent ms (y.1.root + 1) (ls.drop k) (proofNodes ++ extra₁) [] (acc ++ [(y.2, 2 ^ y.1.height)])
            tiles' last (sorted.sublist (List.drop_sublist _ _)) later
        refine ⟨extra₁ ++ extra, y :: pre, post, by rw [split]; rfl, ?_, fun tail => ?_⟩
        · rw [proverStep, prover]
          simp only [List.append_assoc]
        · rw [List.append_assoc, verifierStep, verifier]
          simp [peakRoots]

end Peaks

section Complete

variable {m : Merge H} {hash : T → Nat → H} {values : List T} {mmr : MerkleMountainRange H}

theorem tiles_layout {store : List H} :
    ∀ (hs : List Nat) (b : Nat), (∀ y ∈ layout b hs, IsNode y ∧ y.root < store.length) →
      ∃ ms : List (Span × H), ms.map Prod.fst = layout b hs ∧ Tiles store b ms
  | [], _, _ => ⟨[], rfl, trivial⟩
  | h :: hs, b, inside => by
    obtain ⟨node, rootIn⟩ := inside ⟨h, b⟩ (by simp [layout])
    obtain ⟨ms, first, tiles⟩ := tiles_layout hs (b + size h) fun y mem => inside y (by simp [layout, mem])
    have next : (⟨h, b⟩ : Span).root + 1 = b + size h := Span.root_add_one _
    refine ⟨(⟨h, b⟩, store[(⟨h, b⟩ : Span).root]) :: ms, by simp [layout, first], rfl, node, rootIn,
      List.getElem?_eq_getElem rootIn, ?_⟩
    rw [next]
    exact tiles

theorem Hashed.tiles (hashed : Hashed m hash values mmr.store) :
    ∃ ms : List (Span × H), ms.map Prod.fst = mountains values.length ∧ Tiles mmr.store 0 ms :=
  tiles_layout _ 0 fun y mem => ⟨isNode_of_mem_mountains mem, by
    have := root_lt_of_mem_layout mem
    rwa [Nat.zero_add, sum_size_mountains, ← hashed.length] at this⟩

theorem peakPositions_eq {ms : List (Span × H)} {n : Nat} (first : ms.map Prod.fst = mountains n) :
    peakPositions ms = peaks (leafNumberToIndex n) := by
  rw [peaks_eq_ofIndex, ← first, List.map_map]
  rfl

theorem Hashed.getRoot_eq (hashed : Hashed m hash values mmr.store) (nonempty : values ≠ [])
    {ms : List (Span × H)} (first : ms.map Prod.fst = mountains values.length) (tiles : Tiles mmr.store 0 ms) :
    mmr.getRoot m = bagging m.merge ((peakRoots ms).map .ok).reverse := by
  have filled : 0 < mmr.len := Nat.lt_of_le_of_lt (Nat.zero_le _) (hashed.lt_length (List.length_pos_iff.mpr nonempty))
  have stored : ∀ y ∈ ms, (match mmr.store[(Position.ofIndex y.1.root).index]? with
      | some h => (.ok (h, (Position.ofIndex y.1.root).numLeaves) : Except Error (H × Nat))
      | none => .error .inconsistentStore) = .ok (y.2, 2 ^ y.1.height) := by
    intro y mem
    obtain ⟨node, -, hy⟩ := tiles.mem y mem
    rw [Position.ofIndex_index, hy, numLeaves_ofIndex node]
  rw [MerkleMountainRange.getRoot, if_neg (by simpa [MerkleMountainRange.isEmpty] using filled.ne'),
    MerkleMountainRange.len, hashed.length, revPeaks_eq_reverse, ← peakPositions_eq first, List.map_reverse,
    peakPositions, List.map_map, peakRoots, List.map_map]
  congr 2
  exact List.map_congr_left stored

theorem Hashed.getRoot_ok (hashed : Hashed m hash values mmr.store) (nonempty : values ≠ []) :
    ∃ root, mmr.getRoot m = .ok root := by
  obtain ⟨ms, first, tiles⟩ := hashed.tiles
  have peaks : peakRoots ms ≠ [] := by
    have heights := sum_leaves_mountains values.length
    rw [← first, List.map_map] at heights
    intro empty
    simp only [peakRoots, List.map_eq_nil_iff] at empty
    simp [empty] at heights
    exact nonempty (List.length_eq_zero_iff.mp heights.symm)
  rw [hashed.getRoot_eq nonempty first tiles]
  exact bagging_ok m.merge peaks

theorem calculatePeakRoots_of_not_short {p : Proof H} {x : Position × H} {xs : List (Position × H)}
    (long : ¬ (p.mmrSize = 1 ∧ (x :: xs).length = 1 ∧ x.1.index = 0)) :
    p.calculatePeakRoots m (x :: xs) = p.peakRoots m (x :: xs) := by
  rcases xs with _ | ⟨x', xs⟩
  · rw [Proof.calculatePeakRoots, if_neg (by simpa using long)]
  · rfl

/-- The peaks of `prove_positions` and of `calculate_peak_roots`, in step: on sorted leaves below
    the mountains of n leaves of a consistent store, past the shortcut of a single node, the proof
    the prover makes gives the verifier peak roots that bag to the bagged peaks. -/
theorem provePositions_peaks (consistent : Consistent m hash values mmr.store) {n : Nat}
    {ms : List (Span × H)} (first : ms.map Prod.fst = mountains n) (tiles : Tiles mmr.store 0 ms)
    {x : Position × H} {xs : List (Position × H)} (sorted : (x :: xs).Pairwise fun a b => a.1.index ≤ b.1.index)
    (inside : ∀ e ∈ x :: xs, LeafEntry mmr.store e ∧ 0 ≤ e.1.index ∧ ∃ y ∈ ms, e.1.index ≤ y.1.root)
    (long : ¬ (leafNumberToIndex n = 1 ∧ ((x :: xs).map Prod.fst).length = 1 ∧ x.1.index = 0)) :
    ∃ nodes roots, provePositions m mmr ((x :: xs).map Prod.fst) (leafNumberToIndex n) false =
        .ok ⟨leafNumberToIndex n, nodes⟩ ∧
      Proof.calculatePeakRoots m ⟨leafNumberToIndex n, nodes⟩ (x :: xs) = .ok roots ∧
      bagging m.merge (roots.map .ok).reverse = bagging m.merge ((peakRoots ms).map .ok).reverse := by
  have peaksEq : peaks (leafNumberToIndex n) = peakPositions ms := (peakPositions_eq first).symm
  obtain ⟨extra, pre, post, split, prover, verifier⟩ :=
    peaks_run consistent ms 0 (x :: xs) [] [] [] tiles (List.cons_ne_nil x xs) sorted inside
  have short : ∀ nodes : List H, ¬ ((⟨leafNumberToIndex n, nodes⟩ : Proof H).mmrSize = 1 ∧ (x :: xs).length = 1 ∧
      x.1.index = 0) := fun _ => by simpa using long
  have provePeaks : mmr.provePositionsLoop 0 (peaks (leafNumberToIndex n)) (x.1 :: xs.map Prod.fst) [] [] =
      .ok ([], extra ++ post.map Prod.snd, peakPositions post) := by
    rw [← List.map_cons, peaksEq, prover, List.nil_append]
  have long' : ¬ (leafNumberToIndex n = 1 ∧ (x.1 :: xs.map Prod.fst).length = 1 ∧ x.1.index = 0) := by
    rwa [List.map_cons] at long
  have postNodes : ∀ y ∈ post, IsNode y.1 := fun y mem => (tiles.mem y (by rw [split]; simp [mem])).1
  by_cases bagged : post = []
  · -- every peak up to the last has positions: nothing to bag
    subst bagged
    refine ⟨extra, peakRoots pre, ?_, ?_, ?_⟩
    · rw [List.map_cons, provePositions, if_neg long']
      simp [provePeaks, peakPositions]
    · rw [calculatePeakRoots_of_not_short (short _), Proof.peakRoots]
      simp only
      rw [peaksEq, ← List.append_nil extra, verifier]
      simp [peakPositions, peakRootsLoop]
    · rw [split, List.append_nil]
  · -- the peaks past the last position are bagged into one node
    obtain ⟨bag, bagOk⟩ := bagging_ok m.merge (show peakRoots post ≠ [] by simpa [peakRoots] using bagged)
    have zipped : ((post.map Prod.snd).zip ((peakPositions post).map Position.numLeaves)) = peakRoots post := by
      rw [peakPositions, List.map_map, peakRoots, List.zip_map']
      exact List.map_congr_left fun y mem => by simp [numLeaves_ofIndex (postNodes y mem)]
    have leaves : ((peakPositions post).map Position.numLeaves).sum = ((peakRoots post).map Prod.snd).sum := by
      rw [← zipped, List.map_snd_zip (by simp [peakPositions])]
    refine ⟨extra ++ [bag], peakRoots pre ++ [(bag, ((peakPositions post).map Position.numLeaves).sum)], ?_, ?_, ?_⟩
    · have splitAt : (extra ++ post.map Prod.snd).length - (peakPositions post).length = extra.length := by
        simp [peakPositions]
      rw [List.map_cons, provePositions, if_neg long']
      simp only [Bool.false_eq_true, if_false, provePeaks, ne_eq, not_true_eq_false, if_false,
        splitAt, List.drop_left, List.take_left, zipped, bagOk]
      simp [peakPositions, bagged]
    · rw [calculatePeakRoots_of_not_short (short _), Proof.peakRoots]
      simp only
      rw [peaksEq, verifier, List.nil_append, peakRootsLoop_bagged (by simpa [peakPositions] using bagged)]
      simp
    · rw [leaves, bagging_bagged m.merge _ _ bagOk, split]
      simp only [peakRoots, List.map_append]

/-- A leaf index of the range with its value: its position and the hash `calculate_root` gives it. -/
def leafEntry (hash : T → Nat → H) (l : Nat × T) : Position × H :=
  (Position.ofIndex (leafNumberToIndex l.1), hash l.2 1)

/-- The order both sides sort leaves in: by index. -/
def byIndex (a b : Position × H) : Prop := a.1.index ≤ b.1.index

instance : DecidableRel (byIndex (H := H)) := fun a b => inferInstanceAs (Decidable (a.1.index ≤ b.1.index))

instance : Std.Total (byIndex (H := H)) := ⟨fun a b => Nat.le_total a.1.index b.1.index⟩

instance : IsTrans (Position × H) byIndex := ⟨fun _ _ _ => Nat.le_trans⟩

theorem Hashed.positions_checked {old : MerkleMountainRange H} (hashed : Hashed m hash values old.store)
    {leaves : List (Nat × T)} (below : ∀ l ∈ leaves, l.1 < values.length) :
    (leaves.map Prod.fst).mapM (fun index =>
        let pos := Position.ofIndex (leafNumberToIndex index)
        if pos.index ≥ old.len then (.error .proveInvalidLeaves : Except Error Position) else .ok pos) =
      .ok ((leaves.map Prod.fst).map fun index => Position.ofIndex (leafNumberToIndex index)) := by
  refine mapM_eq_ok_map _ fun index mem => ?_
  obtain ⟨l, lmem, rfl⟩ := List.mem_map.mp mem
  have inRange : leafNumberToIndex l.1 < old.len := hashed.lt_length (below l lmem)
  simp [Nat.not_le_of_lt inRange]

theorem sort_positions (leaves : List (Nat × T)) :
    ((leaves.map Prod.fst).map fun index => Position.ofIndex (leafNumberToIndex index)).insertionSort
        (fun a b => a.index ≤ b.index) = ((leaves.map (leafEntry hash)).insertionSort byIndex).map Prod.fst := by
  rw [List.map_insertionSort byIndex (fun a b : Position => a.index ≤ b.index) Prod.fst
    (leaves.map (leafEntry hash)) fun _ _ _ _ => Iff.rfl, List.map_map, List.map_map]
  rfl

/-- `prove` on leaves of the range: the checks pass and the positions are those of the sorted
    leaf entries. -/
theorem Hashed.prove_eq (hashed : Hashed m hash values mmr.store) {leaves : List (Nat × T)}
    (below : ∀ l ∈ leaves, l.1 < values.length) :
    mmr.prove m (leaves.map Prod.fst) none =
      provePositions m mmr (((leaves.map (leafEntry hash)).insertionSort byIndex).map Prod.fst) mmr.len false := by
  simp only [MerkleMountainRange.prove, hashed.positions_checked below]
  exact congrArg (fun ps => provePositions m mmr ps mmr.len false) (sort_positions leaves)

/-- `prove` against the state of a verifier whose range the prover's extends: the length checked
    is the verifier's. -/
theorem Hashed.prove_eq_some {old : MerkleMountainRange H} (hashed : Hashed m hash values old.store)
    (le : old.len ≤ mmr.len) {leaves : List (Nat × T)} (below : ∀ l ∈ leaves, l.1 < values.length) :
    mmr.prove m (leaves.map Prod.fst) (some old.len) =
      provePositions m mmr (((leaves.map (leafEntry hash)).insertionSort byIndex).map Prod.fst) old.len false := by
  simp only [MerkleMountainRange.prove, gt_iff_lt, Nat.not_lt.mpr le, if_false, hashed.positions_checked below]
  exact congrArg (fun ps => provePositions m mmr ps old.len false) (sort_positions leaves)

theorem Hashed.leafPositions_eq (hashed : Hashed m hash values mmr.store) {leaves : List (Nat × T)}
    (below : ∀ l ∈ leaves, l.1 < values.length) (nodes : List H) :
    (⟨mmr.len, nodes⟩ : Proof H).leafPositions hash leaves = .ok (leaves.map (leafEntry hash)) := by
  refine mapM_eq_ok_map _ fun l mem => ?_
  obtain ⟨s, ns, zero, root⟩ := isLeaf_leafNumberToIndex l.1
  have inRange : leafNumberToIndex l.1 < mmr.len := hashed.lt_length (below l mem)
  have numLeaves : (Position.ofIndex (leafNumberToIndex l.1)).numLeaves = 1 := by
    rw [← root, numLeaves_ofIndex ns, zero, Nat.pow_zero]
  simp [Nat.not_le_of_lt inRange, numLeaves, leafEntry]

theorem Hashed.leafEntry_inside (hashed : Hashed m hash values mmr.store) {ms : List (Span × H)}
    (first : ms.map Prod.fst = mountains values.length) {l : Nat × T} (valid : values[l.1]? = some l.2) :
    LeafEntry mmr.store (leafEntry hash l) ∧ 0 ≤ (leafEntry hash l).1.index ∧
      ∃ y ∈ ms, (leafEntry hash l).1.index ≤ y.1.root := by
  obtain ⟨lt, value⟩ := List.getElem?_eq_some_iff.mp valid
  obtain ⟨s, ns, zero, root⟩ := isLeaf_leafNumberToIndex l.1
  obtain ⟨_, stored⟩ := hashed.leaf l.1 (hashed.lt_length lt)
  refine ⟨⟨s, ns, zero, by rw [root]; rfl, by rw [root, stored, value]; rfl⟩, Nat.zero_le _, ?_⟩
  have covered : leafNumberToIndex l.1 < 0 + (values.length.bitIndices.reverse.map size).sum := by
    rw [Nat.zero_add, sum_size_mountains]
    exact leafNumberToIndex_strictMono lt
  obtain ⟨mnt, mem, -, high⟩ := exists_mem_layout (Nat.zero_le _) covered
  rw [← mountains, ← first] at mem
  obtain ⟨y, ymem, rfl⟩ := List.mem_map.mp mem
  exact ⟨y, ymem, high⟩

/-- Completeness of the proofs below a range: for any nonempty list of leaf indices of a range
    `old` built by pushes, with their values, `prove_positions` over the sorted leaves at the
    length of `old`, run on a consistent range extending it, makes a proof that `verify` accepts
    for these leaves against the root of `old`. -/
theorem Hashed.prove_verify_within [DecidableEq H] {vs : List T} {old : MerkleMountainRange H}
    (hashed : Hashed m hash values old.store) (consistent : Consistent m hash vs mmr.store)
    (pre : old.store <+: mmr.store) {leaves : List (Nat × T)} (nonempty : leaves ≠ [])
    (valid : ∀ l ∈ leaves, values[l.1]? = some l.2) :
    ∃ proof root, provePositions m mmr (((leaves.map (leafEntry hash)).insertionSort byIndex).map Prod.fst)
        old.len false = .ok proof ∧ old.getRoot m = .ok root ∧ proof.verify m hash root leaves = .ok true := by
  have below : ∀ l ∈ leaves, l.1 < values.length := fun l mem => (List.getElem?_eq_some_iff.mp (valid l mem)).1
  obtain ⟨l₀, mem₀⟩ := List.exists_mem_of_ne_nil leaves nonempty
  have filled : values ≠ [] := List.ne_nil_of_length_pos (Nat.lt_of_le_of_lt (Nat.zero_le _) (below l₀ mem₀))
  have len : old.len = leafNumberToIndex values.length := hashed.length
  obtain ⟨ms, first, tiles⟩ := hashed.tiles
  obtain ⟨root, rooted⟩ := hashed.getRoot_ok filled
  have sorted := List.pairwise_insertionSort byIndex (leaves.map (leafEntry hash))
  have inside : ∀ e ∈ (leaves.map (leafEntry hash)).insertionSort byIndex,
      LeafEntry old.store e ∧ 0 ≤ e.1.index ∧ ∃ y ∈ ms, e.1.index ≤ y.1.root := by
    intro e mem
    obtain ⟨l, lmem, rfl⟩ := List.mem_map.mp ((List.mem_insertionSort byIndex).mp mem)
    exact hashed.leafEntry_inside first (valid l lmem)
  obtain ⟨x, xs, sortedEq⟩ := List.exists_cons_of_ne_nil
    (show (leaves.map (leafEntry hash)).insertionSort byIndex ≠ [] by
      rw [← List.length_pos_iff, List.length_insertionSort, List.length_map]
      exact List.length_pos_iff.mpr nonempty)
  rw [sortedEq] at sorted inside
  have sortEq : (leaves.map (leafEntry hash)).insertionSort (fun a b : Position × H => a.1.index ≤ b.1.index) =
      x :: xs := sortedEq
  -- once the peak roots come out, `verify` bags them to the root of `old`
  have verifies : ∀ nodes roots, Proof.calculatePeakRoots m ⟨old.len, nodes⟩ (x :: xs) = .ok roots →
      bagging m.merge (roots.map .ok).reverse = .ok root →
      (⟨old.len, nodes⟩ : Proof H).verify m hash root leaves = .ok true := by
    intro nodes roots peaksOk bagged
    have size : old.len ≠ 0 := Nat.ne_zero_of_lt (hashed.lt_length (List.length_pos_iff.mpr filled))
    rw [Proof.verify, if_neg (fun both => size both.1), Proof.calculateRoot, hashed.leafPositions_eq below nodes]
    simp only [sortEq, peaksOk, bagged, Except.map, decide_true]
  rw [sortedEq]
  by_cases long : ¬ (old.len = 1 ∧ ((x :: xs).map Prod.fst).length = 1 ∧ x.1.index = 0)
  · have extended : ∀ e ∈ x :: xs, LeafEntry mmr.store e ∧ 0 ≤ e.1.index ∧ ∃ y ∈ ms, e.1.index ≤ y.1.root :=
      fun e mem => ⟨(inside e mem).1.extend pre, (inside e mem).2⟩
    obtain ⟨nodes, roots, prover, peaksOk, bagged⟩ :=
      provePositions_peaks consistent first (tiles.extend pre) sorted extended (by rwa [len] at long)
    rw [← len] at prover peaksOk
    exact ⟨_, root, prover, rooted,
      verifies nodes roots peaksOk (bagged.trans ((hashed.getRoot_eq filled first tiles).symm.trans rooted))⟩
  · -- a single leaf in a range of one node: both sides take their shortcut
    obtain ⟨one, single, zero⟩ := not_not.mp long
    obtain rfl : xs = [] := List.length_eq_zero_iff.mp (by simpa using single)
    obtain ⟨⟨s, -, -, pos, stored⟩, -⟩ := inside x (List.mem_singleton_self x)
    have stored₀ : old.store[0]? = some x.2 := by
      rw [← stored, ← Position.ofIndex_index s.root, ← pos, zero]
    have peaks : revPeaks 1 = [⟨0, 0, false⟩] := by decide
    have rootOk : old.getRoot m = .ok x.2 := by
      rw [MerkleMountainRange.getRoot, if_neg (by simp [MerkleMountainRange.isEmpty, one]), one, peaks]
      simp [stored₀, bagging, baggingLoop, Position.numLeaves]
    refine ⟨_, root, by simp [provePositions, one, zero], rooted, verifies [] [(x.2, 1)] ?_ ?_⟩
    · simp [Proof.calculatePeakRoots, one, zero]
    · rw [rooted] at rootOk
      simp [bagging, baggingLoop, rootOk]

/-- Completeness of the proofs of a range: for any nonempty list of leaf indices of a range
    built by pushes, with their values, `prove` makes a proof, and `verify` accepts it for these
    leaves against the root `get_root` gives. -/
theorem Hashed.prove_verify [DecidableEq H] (hashed : Hashed m hash values mmr.store) {leaves : List (Nat × T)}
    (nonempty : leaves ≠ []) (valid : ∀ l ∈ leaves, values[l.1]? = some l.2) :
    ∃ proof root, mmr.prove m (leaves.map Prod.fst) none = .ok proof ∧ mmr.getRoot m = .ok root ∧
      proof.verify m hash root leaves = .ok true := by
  have below : ∀ l ∈ leaves, l.1 < values.length := fun l mem => (List.getElem?_eq_some_iff.mp (valid l mem)).1
  obtain ⟨proof, root, proved, rooted, verified⟩ :=
    hashed.prove_verify_within hashed.toConsistent (List.prefix_refl _) nonempty valid
  exact ⟨proof, root, by rw [hashed.prove_eq below]; exact proved, rooted, verified⟩

/-- For a range built from `values` by pushes, any nonempty list of its leaves with their values
    is proven by `prove`, and `verify` accepts that proof against the range's root. -/
theorem fromLeaves_proofs_verify [DecidableEq H] (m : Merge H) (hash : T → Nat → H) (values : List T)
    {leaves : List (Nat × T)} (nonempty : leaves ≠ []) (valid : ∀ l ∈ leaves, values[l.1]? = some l.2) :
    ∃ mmr proof root, fromLeaves m hash values = .ok mmr ∧ mmr.prove m (leaves.map Prod.fst) none = .ok proof ∧
      mmr.getRoot m = .ok root ∧ proof.verify m hash root leaves = .ok true := by
  obtain ⟨mmr, run, hashed, -, -⟩ := foldlM_push_hashed values [] _ (hashed_new : Hashed m hash [] MerkleMountainRange.new.store) rfl
  obtain ⟨proof, root, proved, rooted, verified⟩ := hashed.prove_verify nonempty valid
  exact ⟨mmr, proof, root, run, proved, rooted, verified⟩

theorem first_and_last_of_three_verify :
    [(0, 1), (2, 3)] ≠ ([] : List (Nat × Nat)) ∧ (∀ l ∈ [(0, 1), (2, 3)], [1, 2, 3][l.1]? = some l.2) ∧
      ∃ mmr proof root, fromLeaves countingMerge (fun v n => v + n) [1, 2, 3] = .ok mmr ∧
        mmr.prove countingMerge ([(0, 1), (2, 3)].map Prod.fst) none = .ok proof ∧ mmr.getRoot countingMerge = .ok root ∧
        proof.verify countingMerge (fun v n => v + n) root [(0, 1), (2, 3)] = .ok true :=
  ⟨by decide, by decide, fromLeaves_proofs_verify countingMerge (fun v n => v + n) [1, 2, 3] (by decide) (by decide)⟩

/-- A prover whose range extends the verifier's proves leaves of the verifier's range against the
    verifier's root: with the verifier's length as `verifier_state`, `prove` on the range built from
    `values ++ more` makes a proof that `verify` accepts against the root of the range built from
    `values`. -/
theorem fromLeaves_proves_earlier_leaves [DecidableEq H] (m : Merge H) (hash : T → Nat → H) (values more : List T)
    {leaves : List (Nat × T)} (nonempty : leaves ≠ []) (valid : ∀ l ∈ leaves, values[l.1]? = some l.2) :
    ∃ old mmr proof root, fromLeaves m hash values = .ok old ∧ fromLeaves m hash (values ++ more) = .ok mmr ∧
      mmr.prove m (leaves.map Prod.fst) (some old.len) = .ok proof ∧ old.getRoot m = .ok root ∧
      proof.verify m hash root leaves = .ok true := by
  obtain ⟨old, run, pushed, counted, -⟩ :=
    foldlM_push_hashed values [] _ (hashed_new : Hashed m hash [] MerkleMountainRange.new.store) rfl
  have hashed : Hashed m hash values old.store := pushed
  obtain ⟨mmr, runMore, extended, -, pre⟩ := foldlM_push_hashed more values old hashed counted
  have below : ∀ l ∈ leaves, l.1 < values.length := fun l mem => (List.getElem?_eq_some_iff.mp (valid l mem)).1
  obtain ⟨proof, root, proved, rooted, verified⟩ :=
    hashed.prove_verify_within extended.toConsistent pre nonempty valid
  refine ⟨old, mmr, proof, root, run, ?_, by rw [hashed.prove_eq_some pre.length_le below]; exact proved,
    rooted, verified⟩
  rw [fromLeaves, List.foldlM_append, run]
  exact runMore

theorem first_and_last_of_three_proven_after_two_more :
    [(0, 1), (2, 3)] ≠ ([] : List (Nat × Nat)) ∧ (∀ l ∈ [(0, 1), (2, 3)], [1, 2, 3][l.1]? = some l.2) ∧
      ∃ old mmr proof root, fromLeaves countingMerge (fun v n => v + n) [1, 2, 3] = .ok old ∧
        fromLeaves countingMerge (fun v n => v + n) ([1, 2, 3] ++ [4, 5]) = .ok mmr ∧
        mmr.prove countingMerge ([(0, 1), (2, 3)].map Prod.fst) (some old.len) = .ok proof ∧
        old.getRoot countingMerge = .ok root ∧
        proof.verify countingMerge (fun v n => v + n) root [(0, 1), (2, 3)] = .ok true :=
  ⟨by decide, by decide,
    fromLeaves_proves_earlier_leaves countingMerge (fun v n => v + n) [1, 2, 3] [4, 5] (by decide) (by decide)⟩

end Complete

end Albatross.Mmr
