import Mathlib.Logic.Encodable.Pi
import Albatross.Trie.Proof

/- Soundness of trie proofs: with a node hash and a value hash that are injective,
   every node of a proof that `verify` accepts hashes as the node stored under its
   key, so `verify_values` reports for each requested key exactly the value the
   trie holds there. The argument follows `verify`'s stack: each node but the last
   is popped by a node that names it with its hash, and the last one is the root,
   so every node is reached from the root along a chain of such names. -/
namespace Albatross

namespace MerkleRadixTrie

variable {V H : Type}

section Genuine

variable [DecidableEq H] [Inhabited H] (hasher : TrieHasher V H)

/-- Every entry of a stored node carries the hash of the node it points to: what
    `update_root` leaves behind. -/
def HashesOk (s : NodeStore V H) : Prop :=
  ∀ p n i c, s p = some n → n.children i = some c →
    ∃ m, s (c.key p) = some m ∧ m.hash hasher = some c.hash

/-- `parent` names `child`: its entry toward the child's key holds the child's key
    and hash, which `verify` checks before it pops the child. -/
def Names (parent child : TrieProofNode V H) : Prop :=
  ∃ c, parent.child child.key = some (.ok c) ∧ c.hash = child.hash hasher ∧ c.key parent.key = child.key

/-- A proof node is genuine when it hashes as the node stored under its key. -/
def Genuine (s : NodeStore V H) (n : TrieProofNode V H) : Prop :=
  ∃ m, s n.key = some m ∧ m.hash hasher = some (n.hash hasher)

/-- Reached from the stack: named, through a chain of names, by a node on it. -/
def Reached (stack : List (TrieProofNode V H)) (x : TrieProofNode V H) : Prop :=
  ∃ y ∈ stack, Relation.ReflTransGen (Names hasher) y x

end Genuine

section Stack

variable [DecidableEq H] {hasher : TrieHasher V H}

theorem popChildren_eq_some {node : TrieProofNode V H} :
    ∀ {stack rest : List (TrieProofNode V H)}, popChildren hasher node stack = some (some rest) →
      ∃ popped, stack = popped ++ rest ∧ ∀ y ∈ popped, Names hasher node y
  | [], rest, h => by
    simp only [popChildren, Option.some.injEq] at h
    subst h
    exact ⟨[], rfl, by simp⟩
  | child :: children, rest, h => by
    unfold popChildren at h
    split at h
    · -- the node prefixes the child: it must name it, and the loop goes on below
      cases found : node.child child.key with
      | none => simp [found] at h
      | some c =>
        cases c with
        | error e => simp [found, TrieProofNode.childKey, Except.map] at h
        | ok c =>
          simp only [found, TrieProofNode.childKey_of_child found, Option.bind_eq_bind, Option.bind_some] at h
          split at h
          · cases h
          · rename_i checked
            simp only [not_or, not_not] at checked
            obtain ⟨popped, rfl, named⟩ := popChildren_eq_some h
            refine ⟨child :: popped, rfl, ?_⟩
            intro y mem
            rcases List.mem_cons.mp mem with rfl | later
            · exact ⟨c, found, checked.1, checked.2⟩
            · exact named y later
    · simp only [Option.some.injEq] at h
      subst h
      exact ⟨[], rfl, by simp⟩

/-- The run of `verify`'s loop: every node it has seen, and every node reached from
    the stack it started with, is reached from the stack it ends with. -/
theorem verifyLoop_reached :
    ∀ {nodes stack final : List (TrieProofNode V H)}, verifyLoop hasher nodes stack = some (some final) →
      ∀ x, x ∈ nodes ∨ Reached hasher stack x → Reached hasher final x
  | [], stack, final, h, x, seen => by
    simp only [verifyLoop, Option.some.injEq] at h
    subst h
    simpa using seen
  | node :: nodes, stack, final, h, x, seen => by
    unfold verifyLoop at h
    have onTop : ∀ rest, Reached hasher (node :: rest) node := fun rest =>
      ⟨node, List.mem_cons_self, .refl⟩
    split at h
    · cases popped : popChildren hasher node stack with
      | none => simp [popped] at h
      | some r =>
        cases r with
        | none => simp [popped] at h
        | some rest =>
          simp only [popped] at h
          obtain ⟨taken, rfl, named⟩ := popChildren_eq_some popped
          apply verifyLoop_reached h
          rcases seen with mem | ⟨y, mem, chain⟩
          · rcases List.mem_cons.mp mem with rfl | later
            · exact .inr (onTop rest)
            · exact .inl later
          · -- a node popped now is reached through `node`, which stays on the stack
            rcases List.mem_append.mp mem with inTaken | inRest
            · exact .inr ⟨node, List.mem_cons_self, .head (named y inTaken) chain⟩
            · exact .inr ⟨y, List.mem_cons_of_mem _ inRest, chain⟩
    · apply verifyLoop_reached h
      rcases seen with mem | ⟨y, mem, chain⟩
      · rcases List.mem_cons.mp mem with rfl | later
        · exact .inr (onTop stack)
        · exact .inl later
      · exact .inr ⟨y, List.mem_cons_of_mem _ mem, chain⟩

/-- An accepted proof ends with a root of the root hash from which every node of the
    proof is reached. -/
theorem verify_eq_true {p : TrieProof V H} {rootHash : H} (ok : p.verify hasher rootHash = some true) :
    ∃ top, top.key = [] ∧ top.hash hasher = rootHash ∧ ∀ x ∈ p.nodes, Relation.ReflTransGen (Names hasher) top x := by
  unfold TrieProof.verify at ok
  split at ok
  · cases ok
  · split at ok
    · cases ok
    · cases ok
    · rename_i top run
      simp only [Option.some.injEq, Bool.and_eq_true, decide_eq_true_eq] at ok
      refine ⟨top, ok.1, ok.2, fun x mem => ?_⟩
      obtain ⟨y, onStack, chain⟩ := verifyLoop_reached run x (.inl mem)
      rw [List.mem_singleton] at onStack
      exact onStack ▸ chain
    · cases ok

end Stack

section Chain

variable [DecidableEq H] [Inhabited H] {hasher : TrieHasher V H} {s : NodeStore V H}

theorem hash_eq_some {m : TrieNode V H} {x : H} (h : m.hash hasher = some x) :
    hasher.hashNode ⟨m.key, m.valuePart hasher, m.children⟩ = x := by
  unfold TrieNode.hash at h
  split at h
  · exact Option.some.inj h
  · cases h

/-- Under an injective node hash a genuine proof node agrees with the stored node in
    all that the hash covers. -/
theorem Genuine.content (nodeInj : Function.Injective hasher.hashNode) {n : TrieProofNode V H}
    (gen : Genuine hasher s n) :
    ∃ m, s n.key = some m ∧ m.valuePart hasher = n.value.part hasher ∧ m.children = n.children := by
  obtain ⟨m, stored, hashed⟩ := gen
  have same := nodeInj (hash_eq_some hashed)
  simp only [HashInput.mk.injEq] at same
  exact ⟨m, stored, same.2.1, same.2.2⟩

/-- A genuine node vouches for each child it names: the entry's hash is the hash of
    the node stored under the entry's key. -/
theorem Genuine.of_names (nodeInj : Function.Injective hasher.hashNode) (hashes : HashesOk hasher s)
    {parent child : TrieProofNode V H} (gen : Genuine hasher s parent) (names : Names hasher parent child) :
    Genuine hasher s child := by
  obtain ⟨m, stored, -, children⟩ := gen.content nodeInj
  obtain ⟨c, found, hashed, keyed⟩ := names
  obtain ⟨i, -, entry⟩ := TrieProofNode.child_eq_ok found
  obtain ⟨m', stored', hashed'⟩ := hashes _ m i c stored (children ▸ entry)
  exact ⟨m', keyed ▸ stored', hashed ▸ hashed'⟩

theorem Genuine.of_chain (nodeInj : Function.Injective hasher.hashNode) (hashes : HashesOk hasher s)
    {top x : TrieProofNode V H} (gen : Genuine hasher s top)
    (chain : Relation.ReflTransGen (Names hasher) top x) : Genuine hasher s x := by
  induction chain with
  | refl => exact gen
  | tail _ names ih => exact ih.of_names nodeInj hashes names

theorem verify_genuine (nodeInj : Function.Injective hasher.hashNode) (inv : TrieInvariant s)
    (hashes : HashesOk hasher s) {h : H} (root : rootHash hasher s = some h) {p : TrieProof V H}
    (ok : p.verify hasher h = some true) : ∀ x ∈ p.nodes, Genuine hasher s x := by
  obtain ⟨top, topKey, topHash, chains⟩ := verify_eq_true ok
  have gen : Genuine hasher s top := by
    obtain ⟨r, stored, -⟩ := inv.root
    rw [rootHash, inv.getNode_eq, stored, Option.bind_some] at root
    exact ⟨r, topKey ▸ stored, topHash ▸ root⟩
  intro x mem
  exact gen.of_chain nodeInj hashes (chains x mem)

theorem Genuine.intoValue (nodeInj : Function.Injective hasher.hashNode)
    (valueInj : Function.Injective hasher.hashValue) {n : TrieProofNode V H} (gen : Genuine hasher s n)
    {v : Option V} (out : n.intoValue = .ok v) : get s n.key = v := by
  obtain ⟨m, stored, part, -⟩ := gen.content nodeInj
  rw [get_eq, stored, Option.bind_some]
  -- the proof's value and the stored one are written alike, by the same tags
  unfold TrieNode.valuePart at part
  cases value : n.value <;> cases children : m.hasChildren <;> cases stored : m.value <;>
    simp_all [TrieProofNode.intoValue, ProofValue.part, valueInj.eq_iff]

/-- A genuine node that is a proper prefix of `k` and has no entry leading toward `k`
    shows that nothing is stored under `k`. -/
theorem Genuine.absent (nodeInj : Function.Injective hasher.hashNode) (inv : TrieInvariant s)
    {n : TrieProofNode V H} (gen : Genuine hasher s n) {k : KeyNibbles} (below : n.key <+: k) (ne : n.key ≠ k)
    (off : ∀ ck, n.childKey k = some (.ok ck) → ¬ ck <+: k) : get s k = none := by
  obtain ⟨m, stored, -, children⟩ := gen.content nodeInj
  have ok := inv.nodes _ _ stored
  by_contra present
  have kStored : s k ≠ none := fun empty => present (by simp [empty])
  obtain ⟨i, ext⟩ := exists_concat_of_ne below ne
  obtain ⟨t, target, tk⟩ := ok.complete i k ext kStored
  -- the stored entry toward `k` is the proof node's, and it leads to a prefix of `k`
  obtain ⟨c, entry, rfl⟩ := Option.map_eq_some_iff.mp target
  have found := TrieProofNode.child_of_entry ext (children ▸ entry)
  exact off _ (TrieProofNode.childKey_of_child found) (by rwa [ok.keyed] at tk)

end Chain

section Results

variable {s : NodeStore V H}

/-- Every value a result map holds is the value the trie holds under its key. -/
def Faithful (s : NodeStore V H) (result : ProvenValues V) : Prop :=
  ∀ k v, result k = some v → get s k = v

theorem Faithful.update {result : ProvenValues V} (faithful : Faithful s result) {k : KeyNibbles}
    {v : Option V} (value : get s k = v) : Faithful s (Function.update result k (some v)) := by
  intro k' v' found
  by_cases same : k' = k
  · subst same
    simp only [Function.update_self, Option.some.injEq] at found
    rw [value, found]
  · rw [Function.update_of_ne same] at found
    exact faithful k' v' found

theorem answered_update {result m : ProvenValues V} {k : KeyNibbles} {v : Option V} {rest : List KeyNibbles}
    (taken : ∀ k', (m k').isSome ↔ (Function.update result k (some v) k').isSome ∨ k' ∈ rest) :
    ∀ k', (m k').isSome ↔ (result k').isSome ∨ k' ∈ k :: rest := by
  intro k'
  rw [taken]
  by_cases same : k' = k
  · subst same
    simp
  · simp [same]

end Results

section Values

variable [DecidableEq H] [Inhabited H] {hasher : TrieHasher V H} {s : NodeStore V H}

/-- The merge loop of `verify_values`, by induction along its own recursion: over
    genuine nodes, every key it takes is added with the value the trie holds there. -/
theorem verifyValuesLoop_sound (nodeInj : Function.Injective hasher.hashNode)
    (valueInj : Function.Injective hasher.hashValue) (inv : TrieInvariant s)
    (keys : List (KeyNibbles × KeyNibbles)) (nodes : List (TrieProofNode V H)) (result : ProvenValues V)
    {m : ProvenValues V} :
    (∀ n ∈ nodes, Genuine hasher s n) → Faithful s result → verifyValuesLoop keys nodes result = some (.ok m) →
      Faithful s m ∧ ∀ k, (m k).isSome ↔ (result k).isSome ∨ k ∈ keys.map Prod.snd := by
  fun_induction verifyValuesLoop keys nodes result with
  | case1 result =>
    intro _ faithful done
    simp only [Option.some.injEq, Except.ok.injEq] at done
    subst done
    exact ⟨faithful, by simp⟩
  | case4 n nodes result _ ih =>
    intro gen faithful rest
    exact ih (fun x mem => gen x (List.mem_cons_of_mem _ mem)) faithful rest
  | case7 kp k keys n nodes result _ _ ih =>
    intro gen faithful rest
    exact ih (fun x mem => gen x (List.mem_cons_of_mem _ mem)) faithful rest
  | case11 kp keys n nodes result _ value out _ _ ih =>
    -- the node is the key's own: its value is the stored one
    intro gen faithful rest
    have here := (gen n List.mem_cons_self).intoValue nodeInj valueInj out
    obtain ⟨faithful', taken⟩ :=
      ih (fun x mem => gen x (List.mem_cons_of_mem _ mem)) (faithful.update here) rest
    exact ⟨faithful', answered_update taken⟩
  | case15 kp k keys n nodes result _ pre ne childKey child off _ ih =>
    -- the node's entry toward the key leaves it: the key is absent
    intro gen faithful rest
    have absent : get s k = none := by
      refine (gen n List.mem_cons_self).absent nodeInj inv (List.isPrefixOf_iff_prefix.mp (by simpa using pre)) ne ?_
      intro ck found
      rw [child, Option.some.injEq, Except.ok.injEq] at found
      subst found
      exact fun below => off (List.isPrefixOf_iff_prefix.mpr below)
    obtain ⟨faithful', taken⟩ := ih gen (faithful.update absent) rest
    exact ⟨faithful', answered_update taken⟩
  | case17 kp k keys n nodes result _ pre ne e child _ ih =>
    -- the node has no entry toward the key: the key is absent
    intro gen faithful rest
    have absent : get s k = none := by
      refine (gen n List.mem_cons_self).absent nodeInj inv (List.isPrefixOf_iff_prefix.mp (by simpa using pre)) ne ?_
      intro ck found
      rw [child] at found
      cases found
    obtain ⟨faithful', taken⟩ := ih gen (faithful.update absent) rest
    exact ⟨faithful', answered_update taken⟩
  | _ => intro _ _ failed; simp at failed

/-- Soundness of `verify_values`: with injective hashes, a proof it accepts against
    the root hash of a trie answers exactly the requested keys, each with the value
    the trie holds there, whatever nodes and absence map the proof brings. -/
theorem verifyValues_sound (nodeInj : Function.Injective hasher.hashNode)
    (valueInj : Function.Injective hasher.hashValue) (inv : TrieInvariant s) (hashes : HashesOk hasher s)
    {h : H} (root : rootHash hasher s = some h) (p : TrieProof V H) (keys : List KeyNibbles)
    {m : ProvenValues V} (accepted : p.verifyValues hasher h keys = some (.ok m)) :
    (∀ k, (m k).isSome ↔ k ∈ keys) ∧ ∀ k ∈ keys, m k = some (get s k) := by
  unfold TrieProof.verifyValues at accepted
  split at accepted
  · cases accepted
  · cases accepted
  · rename_i verified
    have gen := verify_genuine nodeInj inv hashes root verified
    obtain ⟨faithful, taken⟩ :=
      verifyValuesLoop_sound nodeInj valueInj inv _ _ _ gen (fun _ _ found => by cases found) accepted
    -- the sorted pairs carry the requested keys and no other
    have sameKeys : ∀ k, k ∈ (p.sortedKeys keys).map Prod.snd ↔ k ∈ keys := by
      intro k
      rw [((p.sortedKeys_perm keys).map Prod.snd).mem_iff]
      simp
    have dom : ∀ k, (m k).isSome ↔ k ∈ keys := fun k => by simpa [sameKeys] using taken k
    refine ⟨dom, fun k mem => ?_⟩
    obtain ⟨v, found⟩ := Option.isSome_iff_exists.mp ((dom k).mpr mem)
    rw [found, faithful k v found]

end Values

section Witness

/-- The trie `new` makes: the root alone, whose hash covers an empty node. -/
theorem hashesOk_new [DecidableEq H] [Inhabited H] (hasher : TrieHasher V H) :
    HashesOk hasher (new : NodeStore V H) := by
  intro p n i c stored entry
  simp only [new, putNode_apply, TrieNode.newRoot] at stored
  split at stored
  · cases stored
    cases entry
  · cases stored

theorem rootHash_new [DecidableEq H] [Inhabited H] (hasher : TrieHasher V H) :
    rootHash hasher (new : NodeStore V H) = some (hasher.hashNode ⟨[], .none, fun _ => none⟩) := by
  simp [rootHash, new, getNode, putNode_apply, TrieNode.newRoot, TrieNode.hash, TrieNode.canHash,
    TrieNode.valuePart, TrieNode.hasChildren, TrieNode.numChildren]

/-- How the encoding hasher writes a value part. -/
def partCode : ValuePart Nat Nat → Option (Bool × Nat)
  | .none => none
  | .leaf v => some (false, v)
  | .hybrid h => some (true, h)

/-- A hasher without collisions: a node's hash encodes all that is written for it. -/
def encodingHasher : TrieHasher Nat Nat where
  hashValue := id
  hashNode input := Encodable.encode
    (input.key, partCode input.valuePart, fun i => (input.children i).map fun c => ((c.suffix, c.hash) : KeyNibbles × Nat))

theorem encodingHasher_injective : Function.Injective encodingHasher.hashNode := by
  intro a b same
  have parts := Encodable.encode_injective same
  simp only [Prod.mk.injEq] at parts
  obtain ⟨key, part, children⟩ := parts
  obtain ⟨ka, pa, ca⟩ := a
  obtain ⟨kb, pb, cb⟩ := b
  simp only at key part children
  have samePart : pa = pb := by
    cases pa <;> cases pb <;> simp_all [partCode]
  have sameChildren : ca = cb := by
    funext i
    have entry := congrFun children i
    cases ha : ca i <;> cases hb : cb i <;> simp_all
    rename_i c d
    cases c
    cases d
    simp_all
  rw [key, samePart, sameChildren]

/-- The root alone proves a key absent when the proof names the root as its prover. -/
theorem empty_trie_absence_sound :
    TrieProof.verifyValues encodingHasher
        ⟨[TrieProofNode.new encodingHasher false TrieNode.newRoot], fun k => if k = [5] then some [] else none⟩
        (encodingHasher.hashNode ⟨[], .none, fun _ => none⟩) [[5]] =
      some (.ok (Function.update (fun _ => none) [5] (some none))) ∧
    (∀ k : KeyNibbles, (Function.update (fun _ => none) [5] (some none) k : Option (Option Nat)).isSome ↔
      k ∈ [[5]]) ∧
      ∀ k ∈ ([[5]] : List KeyNibbles),
        Function.update (fun _ => none) [5] (some none) k = some (get (new : NodeStore Nat Nat) k) := by
  have accepted : TrieProof.verifyValues encodingHasher
      ⟨[TrieProofNode.new encodingHasher false TrieNode.newRoot], fun k => if k = [5] then some [] else none⟩
      (encodingHasher.hashNode ⟨[], .none, fun _ => none⟩) [[5]] =
        some (.ok (Function.update (fun _ => none) [5] (some none))) := by
    simp [TrieProof.verifyValues, TrieProof.verify, verifyLoop, TrieProofNode.hasChildren, TrieProofNode.new,
      TrieNode.newRoot, TrieNode.hasChildren, TrieNode.numChildren, TrieProofNode.hash, ProofValue.part,
      TrieProof.sortedKeys, verifyValuesLoop, postOrderCmp_self, TrieProofNode.childKey, TrieProofNode.child,
      TrieProofNode.childIndex, TrieProofNode.intoValue, Except.bind, Except.map, Except.toOption]
  exact ⟨accepted, verifyValues_sound encodingHasher_injective (fun _ _ same => same) new_invariant
    (hashesOk_new encodingHasher) (rootHash_new encodingHasher) _ [[5]] accepted⟩

end Witness

end MerkleRadixTrie

end Albatross
