import Albatross.Mmr.MerkleMountainRange

/- The proof of historic transactions in a history tree
   (primitives/transaction/src/history_proof.rs): a Merkle mountain range proof with
   the positions and the transactions it proves, all three deserialized from a peer. -/
namespace Albatross.Mmr

variable {H T : Type}

structure HistoryTreeProof (H T : Type) where
  proof : Proof H
  positions : List Nat
  history : List T

/-- `HistoryTreeProof::verify`: `none` is the panic of its `assert_eq!` on the two
    lengths, and a proof that fails with an error gives `some none`. -/
def HistoryTreeProof.verify [DecidableEq H] (m : Merge H) (hash : T → Nat → H)
    (p : HistoryTreeProof H T) (expectedRoot : H) : Option (Option Bool) :=
  if p.history.length ≠ p.positions.length then none
  else
    some (match p.proof.verify m hash expectedRoot (p.positions.zip p.history) with
      | .ok res => some res
      | .error _ => none)

theorem fromLeaves_nil_root (m : Merge H) (hash : T → Nat → H) :
    (MerkleMountainRange.fromLeaves m hash ([] : List T)).bind (·.getRoot m) = .ok (m.empty 0) :=
  rfl

theorem emptyProof_verify [DecidableEq H] (m : Merge H) (hash : T → Nat → H) (root : H)
    (leaves : List (Nat × T)) :
    (⟨0, []⟩ : Proof H).verify m hash root leaves = .ok (decide (root = m.empty 0)) := by
  simp [Proof.verify]

theorem HistoryTreeProof.verify_eq_none_iff [DecidableEq H] (m : Merge H) (hash : T → Nat → H)
    (p : HistoryTreeProof H T) (expectedRoot : H) :
    p.verify m hash expectedRoot = none ↔ p.history.length ≠ p.positions.length := by
  unfold HistoryTreeProof.verify
  split
  · rename_i differ
    simp [differ]
  · rename_i same
    simp [same]

/-- Against the root of the empty history (no leaf pushed), the proof of an empty range
    verifies every list of claimed leaves, none of which is a leaf of it; and a history
    proof whose positions and transactions differ in number panics. -/
theorem empty_history_accepts_any_leaves [DecidableEq H] (m : Merge H) (hash : T → Nat → H)
    (claimed : List (Nat × T)) (p : HistoryTreeProof H T) (expectedRoot : H) :
    (MerkleMountainRange.fromLeaves m hash ([] : List T)).bind (·.getRoot m) = .ok (m.empty 0) ∧
      (⟨0, []⟩ : Proof H).verify m hash (m.empty 0) claimed = .ok true ∧
      (p.verify m hash expectedRoot = none ↔ p.history.length ≠ p.positions.length) := by
  refine ⟨fromLeaves_nil_root m hash, ?_, HistoryTreeProof.verify_eq_none_iff m hash p expectedRoot⟩
  rw [emptyProof_verify]
  simp

end Albatross.Mmr
