import Albatross.Trie.Invariant

/- The walk of `put_raw` and `remove_raw` down to a key. On a table with the
   invariant it needs one step per nibble of the key, so the fuel `key.length + 1`
   suffices, and it stops at the node of the key, at the longest stored prefix of the
   key whose entry toward the key is empty, or at an entry that leaves the key. -/
namespace Albatross

namespace MerkleRadixTrie

variable {V H : Type}

/-- The root path as `descend` builds it: a stack of the stored nodes passed on the
    way down, each the parent of the node above it, the root at the bottom. -/
inductive RootPath (s : NodeStore V H) : TrieNode V H → List (TrieNode V H) → Prop
  | root {r : TrieNode V H} : s [] = some r → RootPath s r []
  | child {p n : TrieNode V H} {path : List (TrieNode V H)} (i : Fin 16) :
      RootPath s p path → p.targetAt i = some n.key → s n.key = some n → RootPath s n (p :: path)

/-- What the walk's exit tells about the key. -/
def DescentOk (s : NodeStore V H) (key : KeyNibbles) : Descent V H → List (TrieNode V H) → Prop
  | .found curNode, path => s key = some curNode ∧ RootPath s curNode path
  | .noChild curNode, path => RootPath s curNode path ∧ ∃ i, curNode.key ++ [i] <+: key ∧ curNode.children i = none
  | .notPrefix curNode, path => RootPath s curNode path ∧ ¬ curNode.key <+: key ∧
      ∃ p rest i, path = p :: rest ∧ p.key ++ [i] <+: key ∧ p.targetAt i = some curNode.key

section Path

variable {s : NodeStore V H} {top : TrieNode V H} {path : List (TrieNode V H)}

theorem RootPath.stored (inv : TrieInvariant s) : RootPath s top path → s top.key = some top
  | .root stored => by rw [inv.keyed stored]; exact stored
  | .child _ _ _ stored => stored

theorem RootPath.key_eq_nil (inv : TrieInvariant s) (chain : RootPath s top []) : top.key = [] := by
  cases chain with
  | root stored => exact inv.keyed stored

theorem RootPath.ancestor_concat (inv : TrieInvariant s) (chain : RootPath s top path) :
    ∀ q ∈ path, ∃ i, q.key ++ [i] <+: top.key := by
  induction chain with
  | root _ => simp
  | child i chain target _ ih =>
    have ext := ((inv.nodes _ _ (chain.stored inv)).sound i _ target).2.1
    intro q mem
    rcases List.mem_cons.mp mem with rfl | older
    · exact ⟨i, ext⟩
    · obtain ⟨j, below⟩ := ih q older
      exact ⟨j, below.trans (prefix_of_concat ext)⟩

theorem RootPath.path_stored (inv : TrieInvariant s) (chain : RootPath s top path) :
    ∀ q ∈ path, s q.key = some q := by
  induction chain with
  | root _ => simp
  | child i chain _ _ ih =>
    intro q mem
    rcases List.mem_cons.mp mem with rfl | older
    · exact chain.stored inv
    · exact ih q older

theorem RootPath.toward (inv : TrieInvariant s) (chain : RootPath s top path) :
    ∀ p rest, path = p :: rest → ∃ i, p.targetAt i = some top.key ∧ p.key ++ [i] <+: top.key := by
  rintro p rest rfl
  cases chain with
  | child i chainP target _ => exact ⟨i, target, ((inv.nodes _ _ (chainP.stored inv)).sound i _ target).2.1⟩

theorem RootPath.length_lt (inv : TrieInvariant s) (chain : RootPath s top path) :
    ∀ q ∈ path, q.key.length < top.key.length := by
  intro q mem
  obtain ⟨i, ext⟩ := chain.ancestor_concat inv q mem
  exact length_lt_of_concat ext

theorem RootPath.key_ne_nil (inv : TrieInvariant s) {p : TrieNode V H} {rest : List (TrieNode V H)}
    (chain : RootPath s top (p :: rest)) : top.key ≠ [] := by
  obtain ⟨i, ext⟩ := chain.ancestor_concat inv p List.mem_cons_self
  intro empty
  rw [empty] at ext
  simp at ext

end Path

section Walk

variable {s : NodeStore V H} {key : KeyNibbles}

/-- One step of the walk from a stored node toward `key`, and by induction the whole
    walk: with enough fuel it stops, and its exit is described by `DescentOk`. -/
theorem descend_spec (inv : TrieInvariant s) :
    ∀ fuel (cur : TrieNode V H) path, RootPath s cur path → key.length - cur.key.length < fuel →
      (∀ p rest, path = p :: rest → ∃ i, p.key ++ [i] <+: key ∧ p.targetAt i = some cur.key) →
      ∃ exit path', descend s key fuel cur path = some (exit, path') ∧ DescentOk s key exit path'
  | 0, _, _, _, enough, _ => absurd enough (Nat.not_lt_zero _)
  | fuel + 1, cur, path, chain, enough, toward => by
    have ok := inv.nodes _ _ (chain.stored inv)
    by_cases pre : cur.key <+: key
    · by_cases same : cur.key = key
      · refine ⟨.found cur, path, by simp [descend, same], same ▸ chain.stored inv, chain⟩
      · obtain ⟨i, ext⟩ := exists_concat_of_ne pre same
        cases entry : cur.children i with
        | none =>
          refine ⟨.noChild cur, path, ?_, chain, i, ext, entry⟩
          simp [descend, pre, same, TrieNode.childKey_of_no_child ext entry]
        | some c =>
          -- the entry toward the key leads to a stored child one nibble deeper at least
          have target : cur.targetAt i = some (c.key cur.key) := by simp [TrieNode.targetAt, entry]
          obtain ⟨stored, extc, _⟩ := ok.sound i _ target
          obtain ⟨child, hchild⟩ := Option.ne_none_iff_exists'.mp stored
          have keyed : child.key = c.key cur.key := inv.keyed hchild
          have step : descend s key (fuel + 1) cur path = descend s key fuel child (cur :: path) := by
            simp [descend, pre, same, TrieNode.childKey_of_target ext target, inv.getNode_eq, hchild]
          rw [step]
          have deeper := length_lt_of_concat (ok.keyed ▸ extc)
          have shorter := length_lt_of_concat ext
          apply descend_spec inv fuel child (cur :: path)
          · exact .child i chain (keyed ▸ target) (keyed ▸ hchild)
          · rw [keyed]
            omega
          · rintro p rest ⟨⟩
            exact ⟨i, ok.keyed ▸ ext, keyed ▸ target⟩
    · refine ⟨.notPrefix cur, path, by simp [descend, pre], chain, pre, ?_⟩
      cases path with
      | nil => exact absurd (by rw [chain.key_eq_nil inv]; exact List.nil_prefix) pre
      | cons p rest =>
        obtain ⟨i, ext, target⟩ := toward p rest rfl
        exact ⟨p, rest, i, rfl, ext, target⟩

theorem descend_root (inv : TrieInvariant s) (key : KeyNibbles) (root : TrieNode V H) (stored : s [] = some root) :
    ∃ exit path, descend s key (key.length + 1) root [] = some (exit, path) ∧ DescentOk s key exit path :=
  descend_spec inv _ root [] (.root stored) (by rw [inv.keyed stored]; omega) (by simp)

theorem DescentOk.not_found (inv : TrieInvariant s) {exit : Descent V H} {path : List (TrieNode V H)}
    (ok : DescentOk s key exit path) (missed : ∀ cur, exit ≠ .found cur) : s key = none := by
  cases exit with
  | found cur => exact absurd rfl (missed cur)
  | noChild cur =>
    obtain ⟨chain, i, ext, empty⟩ := ok
    exact (inv.nodes _ _ (chain.stored inv)).nothing_below empty ext
  | notPrefix cur =>
    obtain ⟨chain, notPre, p, rest, i, rfl, ext, target⟩ := ok
    by_contra stored
    exact notPre (((inv.nodes _ _ (chain.path_stored inv p List.mem_cons_self)).sound i _ target).2.2 key stored ext)

end Walk

end MerkleRadixTrie

end Albatross
