import Albatross.Trie.Runs
import Mathlib.Data.Set.Finite.Lattice

/- `MerkleRadixTrie::get_predecessor` (primitives/trie/src/trie.rs): the last key before a
   given one that holds a value. The first loop walks from the root toward the key and keeps
   the last candidate it passes: a node with a value, or the last child left of the path,
   whose subtree then holds the answer. The second loop goes down that subtree's last
   children. Keys are ordered as `KeyNibbles` are, nibble by nibble with a prefix first.
   A key holds at most 126 nibbles, so no walk down is longer than 127 nodes. -/
namespace Albatross

namespace MerkleRadixTrie

variable {V H : Type}

/-- The `for i in (0..child_index).rev()` scan: the last child before `childIndex`;
    `children.iter().rev().flatten().next()` is the scan over all sixteen. -/
def lastChildBefore (n : TrieNode V H) : Nat → Option (TrieNodeChild H)
  | 0 => none
  | i + 1 => if h : i < 16 then (n.children ⟨i, h⟩).or (lastChildBefore n i) else lastChildBefore n i

/-- The first loop, from `curNode` toward `key`: the candidate it ends with, a key and
    whether the answer is below it (`need_to_go_down`), or `none` where an `unwrap` panics. -/
def predecessorLoop (s : NodeStore V H) (key : KeyNibbles) :
    Nat → TrieNode V H → Option (KeyNibbles × Bool) → Option (Option (KeyNibbles × Bool))
  | 0, _, _ => none
  | fuel + 1, curNode, predecessorBranch =>
    if curNode.key ≥ key then some predecessorBranch
    else
      let predecessorBranch := if curNode.value.isSome then some (curNode.key, false) else predecessorBranch
      match curNode.childIndex key with
      | none => none
      | some index =>
        -- `unwrap_or(16)`: off the path to `key` every child is left of it
        let childIndex := match index with
          | .ok i => i.val
          | .error _ => 16
        let predecessorBranch := match lastChildBefore curNode childIndex with
          | some child => some (child.key curNode.key, true)
          | none => predecessorBranch
        match index with
        | .error _ => some predecessorBranch
        | .ok i =>
          match curNode.children i with
          | none => some predecessorBranch
          | some child =>
            (getNode s (child.key curNode.key)).bind fun next => predecessorLoop s key fuel next predecessorBranch

/-- The second loop: the last child, down to a node without children. -/
def descendLast (s : NodeStore V H) : Nat → TrieNode V H → Option (TrieNode V H)
  | 0, _ => none
  | fuel + 1, curNode =>
    match lastChildBefore curNode 16 with
    | none => some curNode
    | some child => (getNode s (child.key curNode.key)).bind (descendLast s fuel)

/-- `get_predecessor`; `none` where an `expect`, an `unwrap` or the final assert panics. -/
def getPredecessor (s : NodeStore V H) (key : KeyNibbles) : Option (Option KeyNibbles) :=
  match getNode s [] with
  | none => none
  | some root =>
    match root.rootData with
    | none => none
    | some _ =>
      match predecessorLoop s key (key.length + 1) root none with
      | none => none
      | some none => some none
      | some (some (branchKey, needToGoDown)) =>
        match getNode s branchKey with
        | none => none
        | some node =>
          let last := if needToGoDown then descendLast s 127 node else some node
          last.bind fun curNode => if curNode.value.isSome then some (some curNode.key) else none

/-- The greatest key below `key` that holds a value. -/
def IsPredecessor (s : NodeStore V H) (key p : KeyNibbles) : Prop :=
  (get s p).isSome ∧ p < key ∧ ∀ q, (get s q).isSome → q < key → q ≤ p

/-- `m` is the greatest key with a value below `b`. -/
def SubtreeMax (s : NodeStore V H) (b m : KeyNibbles) : Prop :=
  (get s m).isSome ∧ b <+: m ∧ ∀ q, (get s q).isSome → b <+: q → q ≤ m

/-- What the first loop's candidate stands for: the greatest key with a value below `key`
    among those of the region `R` passed so far, either the candidate itself or the
    greatest key below it. -/
def Candidate (s : NodeStore V H) (key : KeyNibbles) (R : KeyNibbles → Prop) : Option (KeyNibbles × Bool) → Prop
  | none => ∀ q, (get s q).isSome → q < key → ¬ R q
  | some (b, false) => (get s b).isSome ∧ b < key ∧ ∀ q, (get s q).isSome → q < key → R q → q ≤ b
  | some (b, true) => s b ≠ none ∧ b ≠ [] ∧ (∀ q, s q ≠ none → b <+: q → q < key) ∧
      ∀ q, (get s q).isSome → q < key → R q → b <+: q ∨ q < b

/-- The loop's node: stored, and reached through a prefix of `key` under which every stored
    key lies below the node. -/
structure OnPath (s : NodeStore V H) (key : KeyNibbles) (c : TrieNode V H) : Prop where
  stored : s c.key = some c
  via : ∃ P, P <+: key ∧ P <+: c.key ∧ ∀ q, s q ≠ none → P <+: q → c.key <+: q

section Scan

variable {n : TrieNode V H} {child : TrieNodeChild H}

theorem lastChildBefore_some : ∀ {ci : Nat}, lastChildBefore n ci = some child →
    ∃ j : Fin 16, j.val < ci ∧ n.children j = some child ∧ ∀ j' : Fin 16, j < j' → j'.val < ci → n.children j' = none
  | 0, found => by simp [lastChildBefore] at found
  | i + 1, found => by
    unfold lastChildBefore at found
    split at found
    · rename_i inside
      cases here : n.children ⟨i, inside⟩ with
      | some c =>
        rw [here, Option.some_or] at found
        refine ⟨⟨i, inside⟩, by simp, found ▸ here, fun j' above below => ?_⟩
        exact absurd above (by simp only [Fin.lt_def]; omega)
      | none =>
        rw [here, Option.none_or] at found
        obtain ⟨j, lt, at_j, none_above⟩ := lastChildBefore_some found
        refine ⟨j, by omega, at_j, fun j' above below => ?_⟩
        by_cases last : j'.val = i
        · rw [show j' = ⟨i, inside⟩ from Fin.ext last]
          exact here
        · exact none_above j' above (by omega)
    · obtain ⟨j, lt, at_j, none_above⟩ := lastChildBefore_some found
      exact ⟨j, by omega, at_j, fun j' above below => none_above j' above (by omega)⟩

theorem lastChildBefore_none : ∀ {ci : Nat}, lastChildBefore n ci = none →
    ∀ j : Fin 16, j.val < ci → n.children j = none
  | 0, _, _, below => absurd below (Nat.not_lt_zero _)
  | i + 1, empty, j, below => by
    unfold lastChildBefore at empty
    split at empty
    · rename_i inside
      obtain ⟨here, rest⟩ := Option.or_eq_none_iff.mp empty
      by_cases last : j.val = i
      · rw [show j = ⟨i, inside⟩ from Fin.ext last]
        exact here
      · exact lastChildBefore_none rest j (by omega)
    · exact lastChildBefore_none empty j (by omega)

end Scan

section Candidate

variable {s : NodeStore V H} {key : KeyNibbles} {c : TrieNode V H} {b : Option (KeyNibbles × Bool)}

theorem stored_of_valued {q : KeyNibbles} (valued : (get s q).isSome) : s q ≠ none := by
  intro empty
  simp [empty] at valued

theorem OnPath.before (path : OnPath s key c) {q : KeyNibbles} (stored : s q ≠ none) (out : ¬ c.key <+: q)
    (lt : q < key) : q < c.key := by
  obtain ⟨P, toKey, toNode, under⟩ := path.via
  have off : ¬ P <+: q := fun below => out (under q stored below)
  exact lt_of_lt_of_le (lt_of_lt_of_not_isPrefix toKey lt off) (le_of_isPrefix toNode)

theorem Candidate.mono {R R' : KeyNibbles → Prop} (cand : Candidate s key R b)
    (sub : ∀ q, (get s q).isSome → q < key → R' q → R q) : Candidate s key R' b := by
  rcases b with _ | ⟨b, _ | _⟩
  · exact fun q valued lt region => cand q valued lt (sub q valued lt region)
  · exact ⟨cand.1, cand.2.1, fun q valued lt region => cand.2.2 q valued lt (sub q valued lt region)⟩
  · exact ⟨cand.1, cand.2.1, cand.2.2.1, fun q valued lt region => cand.2.2.2 q valued lt (sub q valued lt region)⟩

/-- The node itself, when it holds a value, is the greatest candidate so far. -/
theorem Candidate.node (path : OnPath s key c) (lt : c.key < key) (cand : Candidate s key (fun q => ¬ c.key <+: q) b) :
    Candidate s key (fun q => ¬ c.key <+: q ∨ q = c.key) (if c.value.isSome then some (c.key, false) else b) := by
  split
  · rename_i valued
    refine ⟨by simp [path.stored, valued], lt, fun q hq qlt region => ?_⟩
    rcases region with out | rfl
    · exact (path.before (stored_of_valued hq) out qlt).le
    · exact le_rfl
  · rename_i valueless
    refine cand.mono fun q hq qlt region => ?_
    rcases region with out | rfl
    · exact out
    · simp [path.stored, valueless] at hq

/-- The scan left of index `ci`: the last child there, when there is one, holds the greatest
    candidate below it. -/
theorem Candidate.scan (inv : TrieInvariant s) (path : OnPath s key c) {ci : Nat}
    (left : ∀ j : Fin 16, j.val < ci → ∀ q, s q ≠ none → c.key ++ [j] <+: q → q < key)
    (cand : Candidate s key (fun q => ¬ c.key <+: q ∨ q = c.key) b) :
    Candidate s key (fun q => ¬ c.key <+: q ∨ q = c.key ∨ ∃ j : Fin 16, j.val < ci ∧ c.key ++ [j] <+: q)
      (match lastChildBefore c ci with
        | some child => some (child.key c.key, true)
        | none => b) := by
  have ok := inv.nodes _ _ path.stored
  cases found : lastChildBefore c ci with
  | none =>
    have empty := lastChildBefore_none found
    refine cand.mono fun q hq qlt region => ?_
    rcases region with out | same | ⟨j, below, ext⟩
    · exact Or.inl out
    · exact Or.inr same
    · exact absurd (ok.nothing_below (empty j below) ext) (stored_of_valued hq)
  | some child =>
    obtain ⟨j, below, atJ, noneAbove⟩ := lastChildBefore_some found
    have target : c.targetAt j = some (child.key c.key) := by simp [TrieNode.targetAt, atJ]
    obtain ⟨stored, ext, least⟩ := ok.sound j _ target
    have before : c.key < child.key c.key := lt_of_concat_isPrefix ext
    refine ⟨stored, fun nil => by simp [nil] at ext, fun q hq tq => left j below q hq (ext.trans tq), ?_⟩
    intro q hq qlt region
    rcases region with out | rfl | ⟨j', below', ext'⟩
    · exact Or.inr ((path.before (stored_of_valued hq) out qlt).trans before)
    · exact Or.inr before
    · -- children right of the last one are empty
      rcases lt_trichotomy j' j with smaller | rfl | larger
      · exact Or.inr (lt_of_concat_lt ext' ext smaller)
      · exact Or.inl (least q (stored_of_valued hq) ext')
      · exact absurd (ok.nothing_below (noneAbove j' larger below') ext') (stored_of_valued hq)

end Candidate

section Loop

variable {s : NodeStore V H} {key : KeyNibbles} {c : TrieNode V H} {b : Option (KeyNibbles × Bool)}

/-- Step lemma: one round of the first loop either ends with a candidate for every key below
    `key`, or moves to the child on the path with a candidate for every key off it. -/
theorem predecessorLoop_step (inv : TrieInvariant s) (path : OnPath s key c)
    (cand : Candidate s key (fun q => ¬ c.key <+: q) b) (fuel : Nat) :
    (∃ b', predecessorLoop s key (fuel + 1) c b = some b' ∧ Candidate s key (fun _ => True) b') ∨
    ∃ next b', predecessorLoop s key (fuel + 1) c b = predecessorLoop s key fuel next b' ∧ OnPath s key next ∧
      Candidate s key (fun q => ¬ next.key <+: q) b' ∧ c.key.length < next.key.length ∧
      c.key.length < key.length := by
  rw [predecessorLoop]
  by_cases ge : c.key ≥ key
  · -- everything below the node is at least `key`
    rw [if_pos ge]
    refine Or.inl ⟨b, rfl, cand.mono fun q _ qlt _ below => ?_⟩
    exact lt_irrefl q (lt_of_lt_of_le qlt (le_trans ge (le_of_isPrefix below)))
  rw [if_neg ge]
  have lt : c.key < key := lt_of_not_ge ge
  have ok := inv.nodes _ _ path.stored
  have candA := cand.node path lt
  by_cases pre : c.key <+: key
  · obtain ⟨i, onPath⟩ := exists_concat_of_ne pre (ne_of_lt lt)
    rw [TrieNode.childIndex_of_concat onPath]
    dsimp only
    have candB := candA.scan inv path
      fun (j : Fin 16) (below : j.val < i.val) q _ ext => lt_of_concat_lt ext onPath (Fin.lt_def.mpr below)
    -- every key below `key` off the branch toward `key` is in the region scanned
    have covered : ∀ q, (get s q).isSome → q < key → ¬ c.key ++ [i] <+: q →
        ¬ c.key <+: q ∨ q = c.key ∨ ∃ j : Fin 16, j.val < i.val ∧ c.key ++ [j] <+: q := by
      intro q _ qlt notI
      by_cases under : c.key <+: q
      · by_cases same : q = c.key
        · exact Or.inr (Or.inl same)
        · obtain ⟨j, ext⟩ := exists_concat_of_ne under (Ne.symm same)
          rcases lt_trichotomy j i with smaller | rfl | larger
          · exact Or.inr (Or.inr ⟨j, smaller, ext⟩)
          · exact absurd ext notI
          · exact absurd (lt_of_concat_lt onPath ext larger) (not_lt.mpr qlt.le)
      · exact Or.inl under
    cases atI : c.children i with
    | none =>
      refine Or.inl ⟨_, rfl, candB.mono fun q hq qlt _ => covered q hq qlt fun ext => ?_⟩
      exact stored_of_valued hq (ok.nothing_below atI ext)
    | some child =>
      have target : c.targetAt i = some (child.key c.key) := by simp [TrieNode.targetAt, atI]
      obtain ⟨stored, ext, least⟩ := ok.sound i _ target
      obtain ⟨next, found⟩ := Option.ne_none_iff_exists'.mp stored
      have keyed : next.key = child.key c.key := inv.keyed found
      rw [← keyed] at found ext least
      refine Or.inr ⟨next, _, by dsimp only; rw [inv.getNode_eq, ← keyed, found]; rfl, ⟨found, c.key ++ [i], onPath, ext, least⟩,
        candB.mono fun q hq qlt out => covered q hq qlt fun below => out (least q (stored_of_valued hq) below),
        length_lt_of_concat ext, length_lt_of_concat onPath⟩
  · -- off the path to `key` the whole subtree is below `key`
    rw [TrieNode.childIndex_wrong pre]
    dsimp only
    refine Or.inl ⟨_, rfl, (candA.scan inv path fun (j : Fin 16) (_ : j.val < 16) q _ ext =>
      lt_of_prefix_of_lt lt pre (prefix_of_concat ext)).mono fun q _ _ _ => ?_⟩
    by_cases under : c.key <+: q
    · by_cases same : q = c.key
      · exact Or.inr (Or.inl same)
      · obtain ⟨j, ext⟩ := exists_concat_of_ne under (Ne.symm same)
        exact Or.inr (Or.inr ⟨j, j.isLt, ext⟩)
    · exact Or.inl under

/-- Run lemma: with one round more than the nibbles the loop's node lacks of `key`, the first
    loop ends with a candidate for every key below `key`. -/
theorem predecessorLoop_run (inv : TrieInvariant s) (fuel : Nat) :
    ∀ (c : TrieNode V H) b, key.length ≤ c.key.length + fuel → OnPath s key c →
      Candidate s key (fun q => ¬ c.key <+: q) b →
        ∃ b', predecessorLoop s key (fuel + 1) c b = some b' ∧ Candidate s key (fun _ => True) b' := by
  induction fuel with
  | zero =>
    intro c b bound path cand
    rcases predecessorLoop_step inv path cand 0 with done | ⟨_, _, _, _, _, _, short⟩
    · exact done
    · omega
  | succ fuel ih =>
    intro c b bound path cand
    rcases predecessorLoop_step inv path cand (fuel + 1) with done | ⟨next, b', step, path', cand', longer, _⟩
    · exact done
    · rw [step]
      exact ih next b' (by omega) path' cand'

/-- Run lemma of the second loop: below a stored node other than the root, with more rounds
    than the stored keys below it are longer, the last children lead to the greatest key with a
    value there. -/
theorem descendLast_spec (inv : TrieInvariant s) (fuel : Nat) :
    ∀ n : TrieNode V H, s n.key = some n → n.key ≠ [] →
      (∀ q, s q ≠ none → n.key <+: q → q.length < n.key.length + fuel) →
        ∃ m, descendLast s fuel n = some m ∧ s m.key = some m ∧ SubtreeMax s n.key m.key := by
  induction fuel with
  | zero =>
    intro n stored _ bound
    have := bound n.key (by simp [stored]) (List.prefix_refl _)
    omega
  | succ fuel ih =>
    intro n stored nonempty bound
    have ok := inv.nodes _ _ stored
    rw [descendLast]
    cases found : lastChildBefore n 16 with
    | none =>
      -- a node other than the root without children holds a value
      have noChildren : ∀ j, n.children j = none := fun j => lastChildBefore_none found j j.isLt
      have valued : n.value.isSome := by
        have none : n.numChildren = 0 := by simp [TrieNode.numChildren, noChildren]
        rcases (ok.nonroot nonempty).2 with valued | two
        · exact valued
        · omega
      refine ⟨n, rfl, stored, ⟨by simp [stored, valued], List.prefix_refl _, fun q hq below => ?_⟩⟩
      exact le_of_eq (ok.under_leaf noChildren (stored_of_valued hq) below)
    | some child =>
      obtain ⟨j, -, atJ, noneAbove⟩ := lastChildBefore_some found
      have target : n.targetAt j = some (child.key n.key) := by simp [TrieNode.targetAt, atJ]
      obtain ⟨childStored, ext, least⟩ := ok.sound j _ target
      obtain ⟨next, nextFound⟩ := Option.ne_none_iff_exists'.mp childStored
      have keyed : next.key = child.key n.key := inv.keyed nextFound
      rw [← keyed] at nextFound ext least
      have deeper := length_lt_of_concat ext
      obtain ⟨m, descend, mStored, mValued, nextM, greatest⟩ := ih next nextFound (fun nil => by simp [nil] at ext)
        fun q hq below => by
          have := bound q hq ((prefix_of_concat ext).trans below)
          omega
      have getNext : getNode s (child.key n.key) = some next := by rw [inv.getNode_eq, ← keyed, nextFound]
      refine ⟨m, by dsimp only; rw [getNext]; exact descend, mStored, mValued, (prefix_of_concat ext).trans nextM, ?_⟩
      intro q hq below
      by_cases same : q = n.key
      · exact same ▸ le_of_isPrefix ((prefix_of_concat ext).trans nextM)
      · obtain ⟨j', ext'⟩ := exists_concat_of_ne below (Ne.symm same)
        rcases lt_trichotomy j' j with smaller | rfl | larger
        · exact (lt_of_concat_lt ext' ext smaller).le.trans (le_of_isPrefix nextM)
        · exact greatest q hq (least q (stored_of_valued hq) ext')
        · exact absurd (ok.nothing_below (noneAbove j' larger j'.isLt) ext') (stored_of_valued hq)

/-- On a trie with the invariant whose keys fit a `KeyNibbles`, `get_predecessor` returns the
    greatest key below `key` that holds a value, and `None` when every such key is at least
    `key`. -/
theorem getPredecessor_spec (inv : TrieInvariant s) (fits : ∀ q, s q ≠ none → q.length ≤ 126) (key : KeyNibbles) :
    ∃ r, getPredecessor s key = some r ∧
      match r with
      | some p => IsPredecessor s key p
      | none => ∀ q, (get s q).isSome → key ≤ q := by
  obtain ⟨root, rootStored, -, rootData⟩ := inv.root
  have rootKey : root.key = [] := inv.keyed rootStored
  have start : OnPath s key root :=
    ⟨rootKey ▸ rootStored, [], List.nil_prefix, rootKey ▸ List.nil_prefix, fun _ _ _ => rootKey ▸ List.nil_prefix⟩
  obtain ⟨b, loop, cand⟩ := predecessorLoop_run inv key.length root none (by simp [rootKey]) start
    fun q _ _ out => out (rootKey ▸ List.nil_prefix)
  have getRoot : getNode s [] = some root := by rw [inv.getNode_eq, rootStored]
  rcases b with _ | ⟨branch, _ | _⟩
  · refine ⟨none, by simp [getPredecessor, getRoot, rootData, loop], fun q hq => ?_⟩
    exact not_lt.mp fun lt => cand q hq lt trivial
  · obtain ⟨valued, lt, greatest⟩ := cand
    obtain ⟨node, found⟩ := Option.ne_none_iff_exists'.mp (stored_of_valued valued)
    have keyed : node.key = branch := inv.keyed found
    have nodeValued : node.value.isSome := by simpa [found] using valued
    refine ⟨some branch, ?_, valued, lt, fun q hq qlt => greatest q hq qlt trivial⟩
    simp [getPredecessor, getRoot, rootData, loop, inv.getNode_eq, found, nodeValued, keyed]
  · obtain ⟨branchStored, nonempty, below, before⟩ := cand
    obtain ⟨node, found⟩ := Option.ne_none_iff_exists'.mp branchStored
    have keyed : node.key = branch := inv.keyed found
    have getBranch : getNode s branch = some node := by rw [inv.getNode_eq, found]
    rw [← keyed] at found nonempty below before
    obtain ⟨m, descend, mStored, mValued, nodeM, greatest⟩ := descendLast_spec inv 127 node found nonempty
      fun q hq _ => by
        have := fits q hq
        omega
    have valueM : m.value.isSome := by simpa [mStored] using mValued
    refine ⟨some m.key, ?_, mValued, below m.key (stored_of_valued mValued) nodeM, fun q hq qlt => ?_⟩
    · simp [getPredecessor, getRoot, rootData, loop, getBranch, descend, valueM]
    · rcases before q hq qlt trivial with under | left
      · exact greatest q hq under
      · exact left.le.trans (le_of_isPrefix nodeM)

end Loop

section Reachable

variable {s : NodeStore V H}

/-- Below every stored key other than the root some key holds a value: the last children
    lead to one within as many rounds as stored keys are long. -/
theorem exists_valued_below (inv : TrieInvariant s) {k : KeyNibbles} (stored : s k ≠ none) (nonempty : k ≠ []) :
    ∃ m, (get s m).isSome ∧ k <+: m := by
  obtain ⟨n, found⟩ := Option.ne_none_iff_exists'.mp stored
  have keyed : n.key = k := inv.keyed found
  rw [← keyed] at found nonempty
  obtain ⟨L, bounded⟩ := Set.Finite.bddAbove (Set.Finite.image List.length inv.finite)
  obtain ⟨m, -, -, valued, below, -⟩ := descendLast_spec inv (L + 1) n found nonempty fun q hq _ => by
    have := bounded ⟨q, hq, rfl⟩
    omega
  exact ⟨m.key, valued, keyed ▸ below⟩

theorem exists_op_of_lastWrites {ops : List (TrieOp V)} {k : KeyNibbles} (written : (TrieOp.lastWrites ops k).isSome) :
    ∃ op ∈ ops, op.key = k := by
  rw [TrieOp.lastWrites_eq] at written
  cases last : (ops.filter (·.key = k)).getLast? with
  | none => simp [last] at written
  | some op =>
    have mem := List.mem_of_getLast? last
    simp only [List.mem_filter, decide_eq_true_eq] at mem
    exact ⟨op, mem⟩

theorem get_predecessor_greatest_below [DecidableEq H] [Inhabited H] (hasher : TrieHasher V H) (ops : List (TrieOp V))
    (keys : ∀ op ∈ ops, op.key ≠ [] ∧ op.key.length ≤ 126) :
    ∃ s, applyAll hasher new ops = some s ∧ (∀ k, get s k = TrieOp.lastWrites ops k) ∧
      ∀ key : KeyNibbles, ∃ r, getPredecessor s key = some r ∧
        match r with
        | some p => (get s p).isSome ∧ p < key ∧ ∀ q, (get s q).isSome → q < key → q ≤ p
        | none => ∀ q, (get s q).isSome → key ≤ q := by
  obtain ⟨s, run, inv, written⟩ := applyAll_spec hasher ops new_invariant fun op mem => (keys op mem).1
  have lastWrites : ∀ k, get s k = TrieOp.lastWrites ops k := by
    intro k
    rw [written, get_new]
    rfl
  -- every stored key lies on the way to a key some put wrote
  have fits : ∀ q, s q ≠ none → q.length ≤ 126 := by
    intro q stored
    by_cases root : q = []
    · simp [root]
    · obtain ⟨m, valued, below⟩ := exists_valued_below inv stored root
      rw [lastWrites] at valued
      obtain ⟨op, mem, opKey⟩ := exists_op_of_lastWrites valued
      exact below.length_le.trans (opKey ▸ (keys op mem).2)
  refine ⟨s, run, lastWrites, fun key => ?_⟩
  obtain ⟨r, found, spec⟩ := getPredecessor_spec inv fits key
  exact ⟨r, found, spec⟩

-- `get_predecessor_works`: after the four puts the key before 413f22 is 413b391
theorem predecessor_of_413f22_is_413b391 :
    (∀ op ∈ [TrieOp.put [4, 1, 3, 15, 2, 2] 80085, .put [4, 1, 3] 999, .put [4, 1, 3, 15, 2, 2, 7, 15, 10] 1337,
        .put [4, 1, 3, 11, 3, 9, 1] 6969], op.key ≠ [] ∧ op.key.length ≤ 126) ∧
      ∃ s, applyAll (⟨id, fun _ => 0⟩ : TrieHasher Nat Nat) new [TrieOp.put [4, 1, 3, 15, 2, 2] 80085,
          .put [4, 1, 3] 999, .put [4, 1, 3, 15, 2, 2, 7, 15, 10] 1337, .put [4, 1, 3, 11, 3, 9, 1] 6969] = some s ∧
        getPredecessor s [4, 1, 3, 15, 2, 2] = some (some [4, 1, 3, 11, 3, 9, 1]) := by
  refine ⟨by decide, ?_⟩
  obtain ⟨s, run, written, spec⟩ := get_predecessor_greatest_below (⟨id, fun _ => 0⟩ : TrieHasher Nat Nat)
    [TrieOp.put [4, 1, 3, 15, 2, 2] 80085, .put [4, 1, 3] 999, .put [4, 1, 3, 15, 2, 2, 7, 15, 10] 1337,
      .put [4, 1, 3, 11, 3, 9, 1] 6969] (by decide)
  refine ⟨s, run, ?_⟩
  -- the keys holding a value are the four put keys
  have valuedKeys : ∀ q, (get s q).isSome → q = [4, 1, 3, 15, 2, 2] ∨ q = [4, 1, 3] ∨
      q = [4, 1, 3, 15, 2, 2, 7, 15, 10] ∨ q = [4, 1, 3, 11, 3, 9, 1] := by
    intro q valued
    rw [written] at valued
    obtain ⟨op, mem, rfl⟩ := exists_op_of_lastWrites valued
    simp only [List.mem_cons, List.mem_nil_iff, or_false] at mem
    rcases mem with rfl | rfl | rfl | rfl <;> simp [TrieOp.key]
  have lastValued : (get s [4, 1, 3, 11, 3, 9, 1]).isSome := by
    rw [written]
    decide
  obtain ⟨r, found, rSpec⟩ := spec [4, 1, 3, 15, 2, 2]
  rw [found]
  cases r with
  | none => exact absurd (rSpec _ lastValued) (by decide)
  | some p =>
    obtain ⟨valued, below, greatest⟩ := rSpec
    have atLeast := greatest _ lastValued (by decide)
    rcases valuedKeys p valued with rfl | rfl | rfl | rfl
    · exact absurd below (by decide)
    · exact absurd atLeast (by decide)
    · exact absurd below (by decide)
    · rfl

end Reachable

end MerkleRadixTrie

end Albatross
