import Albatross.Mmr.Position

/- Merkle proofs over a mountain range (primitives/mmr/src/mmr/proof.rs). A proof is
   the verifier-side size of the range and a list of nodes read in order; leaves
   arrive as (leaf index, value) pairs and are hashed with `hash value prefix`. The
   source sorts the leaf positions with `sort_unstable_by_key`; the model sorts
   stably, which differs only in the order of pairs naming the same leaf. -/
namespace Albatross.Mmr

variable {H T : Type}

structure Proof (H : Type) where
  mmrSize : Nat
  nodes : List H

/-- The queue loop of `calculate_root_for_peak`: the peak hash and the proof nodes left
    unread. A node is merged with its sibling, read from the front of the queue when it
    is there and from the proof otherwise; the parent goes to the back. -/
def rootForPeakLoop (m : Merge H) (peak : Position) :
    Nat → List (Position × H) → List H → Except Error (H × List H)
  | 0, _, _ => .error .invalidProof
  | _ + 1, [], _ => .error .invalidProof
  | fuel + 1, (position, hash) :: queue, proof =>
    if position.index = peak.index then .ok (hash, proof)
    else
      let sibling := position.sibling
      let taken : Option (H × List (Position × H) × List H) :=
        match queue with
        | (front, frontHash) :: rest =>
          if front.index = sibling.index then some (frontHash, rest, proof)
          else proof.head?.map fun node => (node, queue, proof.tail)
        | [] => proof.head?.map fun node => (node, queue, proof.tail)
      match taken with
      | none => .error .invalidProof
      | some (siblingHash, queue, proof) =>
        let parentPos := position.parent
        let parentHash :=
          if position.rightNode then m.merge siblingHash hash parentPos.numLeaves
          else m.merge hash siblingHash parentPos.numLeaves
        rootForPeakLoop m peak fuel (queue ++ [(parentPos, parentHash)]) proof

/-- `calculate_root_for_peak`. Each round lifts one queued node a level, and the
    queue never grows, so `(leaves + 1) * (height + 2)` rounds are more than enough. -/
def calculateRootForPeak (m : Merge H) (peak : Position) (leaves : List (Position × H))
    (proof : List H) : Except Error (H × List H) :=
  match leaves with
  | [(position, hash)] =>
    if position.index = peak.index then .ok (hash, proof)
    else rootForPeakLoop m peak ((leaves.length + 1) * (peak.height + 2)) leaves proof
  | _ => rootForPeakLoop m peak ((leaves.length + 1) * (peak.height + 2)) leaves proof

/-- The loop of `calculate_peak_roots` over the peaks of `mmr_size`, with the sorted
    leaves not yet used, the unread proof nodes and the peak hashes so far. A peak with
    no leaf takes a proof node; when none is left its leaves join the last bagged
    peak, and before any peak the loop breaks. -/
def peakRootsLoop (m : Merge H) :
    List Position → List (Position × H) → List H → List (H × Nat) →
      Except Error (List (Position × H) × List H × List (H × Nat))
  | [], leaves, proof, acc => .ok (leaves, proof, acc)
  | peak :: peaks, leaves, proof, acc =>
    let iOffset := (leaves.findIdx? fun leaf => leaf.1.index > peak.index).getD leaves.length
    if iOffset = 0 then
      match proof, acc.getLast? with
      | node :: proof, _ => peakRootsLoop m peaks leaves proof (acc ++ [(node, peak.numLeaves)])
      | [], some (hash, numLeaves) =>
        peakRootsLoop m peaks leaves [] (acc.dropLast ++ [(hash, numLeaves + peak.numLeaves)])
      | [], none => .ok (leaves, [], acc)
    else
      match calculateRootForPeak m peak (leaves.take iOffset) proof with
      | .error e => .error e
      | .ok (hash, proof) =>
        peakRootsLoop m peaks (leaves.drop iOffset) proof (acc ++ [(hash, peak.numLeaves)])

/-- The peak loop of `calculate_peak_roots` and its final check that every leaf and
    every proof node was used. -/
def Proof.peakRoots (m : Merge H) (p : Proof H) (leaves : List (Position × H)) :
    Except Error (List (H × Nat)) :=
  match peakRootsLoop m (peaks p.mmrSize) leaves p.nodes [] with
  | .error e => .error e
  | .ok (rest, proof, acc) => if rest ≠ [] ∨ proof ≠ [] then .error .invalidProof else .ok acc

/-- `calculate_peak_roots`, with its shortcut for a tree of size one. -/
def Proof.calculatePeakRoots (m : Merge H) (p : Proof H) (leaves : List (Position × H)) :
    Except Error (List (H × Nat)) :=
  match leaves with
  | [(position, hash)] =>
    if p.mmrSize = 1 ∧ position.index = 0 then .ok [(hash, 1)] else p.peakRoots m leaves
  | _ => p.peakRoots m leaves

/-- The leaf positions of `calculate_root`, in the order of the pairs: a pair naming a
    position outside the proof's range is rejected. -/
def Proof.leafPositions (p : Proof H) (hash : T → Nat → H) (leaves : List (Nat × T)) :
    Except Error (List (Position × H)) :=
  leaves.mapM fun (index, value) =>
    let pos := Position.ofIndex (leafNumberToIndex index)
    if pos.index ≥ p.mmrSize then .error .proveInvalidLeaves
    else .ok (pos, hash value pos.numLeaves)

def Proof.calculateRoot (m : Merge H) (hash : T → Nat → H) (p : Proof H)
    (leaves : List (Nat × T)) : Except Error H :=
  match p.leafPositions hash leaves with
  | .error e => .error e
  | .ok positions =>
    match p.calculatePeakRoots m (positions.insertionSort fun a b => a.1.index ≤ b.1.index) with
    | .error e => .error e
    | .ok peakRoots => bagging m.merge (peakRoots.map .ok).reverse

/-- `Proof::verify`. A proof of an empty range is checked against the empty root only. -/
def Proof.verify [DecidableEq H] (m : Merge H) (hash : T → Nat → H) (p : Proof H) (root : H)
    (leaves : List (Nat × T)) : Except Error Bool :=
  if p.mmrSize = 0 ∧ p.nodes = [] then .ok (decide (root = m.empty 0))
  else (p.calculateRoot m hash leaves).map fun calculatedRoot => decide (calculatedRoot = root)

/-- `RangeProof`: a proof with the `assume_previous` flag of consecutive range proofs. -/
structure RangeProof (H : Type) where
  proof : Proof H
  assumePrevious : Bool

/-- `convert_leaves_with_start`: the values numbered from `leafIndex`. -/
def RangeProof.convertLeavesWithStart (r : RangeProof H) (leafIndex : Nat) (leaves : List T) :
    Except Error (List (Nat × T)) :=
  if leaves ≠ [] ∧ leafNumberToIndex (leafIndex + leaves.length - 1) ≥ r.proof.mmrSize then
    .error .proveInvalidLeaves
  else .ok (leaves.zipIdx leafIndex |>.map fun (t, i) => (i, t))

def RangeProof.verifyWithStart [DecidableEq H] (m : Merge H) (hash : T → Nat → H)
    (r : RangeProof H) (root : H) (leafIndex : Nat) (leaves : List T) : Except Error Bool :=
  if r.assumePrevious then .error .incompleteProof
  else match r.convertLeavesWithStart leafIndex leaves with
    | .error e => .error e
    | .ok leaves => r.proof.verify m hash root leaves

end Albatross.Mmr
