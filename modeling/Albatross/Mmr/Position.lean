import Mathlib

/- Node positions of a Merkle mountain range (primitives/mmr/src/mmr/position.rs,
   peaks.rs and the bagging of utils.rs). Nodes are numbered in post-order, leaves
   and inner nodes alike. The usize bit loops run on fuel their input bounds: each
   round halves a number, lowers an index or lowers a height, so none runs out. -/
namespace Albatross.Mmr

/-- `bit_length`: `USIZE_BITS - v.leading_zeros()`, the number of significant bits. -/
def bitLength (v : Nat) : Nat := if v = 0 then 0 else Nat.log2 v + 1

def countOnesLoop : Nat → Nat → Nat
  | 0, _ => 0
  | fuel + 1, n => n % 2 + countOnesLoop fuel (n / 2)

/-- `usize::count_ones`, one round per significant bit. -/
def countOnes (n : Nat) : Nat := countOnesLoop (bitLength n) n

/-- `all_ones`; `is_power_of_two` is `count_ones() == 1`. -/
def allOnes (num : Nat) : Bool := num ≠ 0 && countOnes (num + 1) = 1

/-- `move_left` on a 1-based index. -/
def moveLeft (index : Nat) : Nat := index - (2 ^ (bitLength index - 1) - 1)

def moveLeftLoop : Nat → Nat → Nat
  | 0, index => index
  | fuel + 1, index => if allOnes index then index else moveLeftLoop fuel (moveLeft index)

/-- `index_to_height`: move left while the 1-based index is not all ones. Every move
    lowers the index, so the index bounds the moves. -/
def indexToHeight (index : Nat) : Nat := countOnes (moveLeftLoop (index + 1) (index + 1)) - 1

def leafNumberToIndex (leafNumber : Nat) : Nat := 2 * leafNumber - countOnes leafNumber

/-- `Position`; two positions are equal and ordered by their index alone, so every
    comparison below reads `index`. -/
structure Position where
  index : Nat
  height : Nat
  rightNode : Bool
  deriving DecidableEq, Repr

namespace Position

def sibling (p : Position) : Position :=
  let siblingOffset := 2 ^ (p.height + 1) - 1
  ⟨if p.rightNode then p.index - siblingOffset else p.index + siblingOffset, p.height, !p.rightNode⟩

def parent (p : Position) : Position :=
  let index := if p.rightNode then p.index + 1 else p.index + 2 ^ (p.height + 1)
  ⟨index, p.height + 1, decide (indexToHeight (index + 1) > p.height + 1)⟩

def leftChild (p : Position) : Option Position :=
  if p.height > 0 then some ⟨p.index - 2 ^ p.height, p.height - 1, false⟩ else none

def rightChild (p : Position) : Option Position :=
  if p.height > 0 then some ⟨p.index - 1, p.height - 1, true⟩ else none

/-- The first leaf below: `2^(h+1) - 2` before the root, a left node. -/
def leftmostLeaf (p : Position) : Position :=
  if p.height = 0 then p else ⟨p.index - (2 ^ (p.height + 1) - 2), 0, false⟩

/-- The last leaf below: one index per level before the root, a right node. -/
def rightmostLeaf (p : Position) : Position :=
  if p.height = 0 then p else ⟨p.index - p.height, 0, true⟩

def numLeaves (p : Position) : Nat := 2 ^ p.height

/-- `From<usize> for Position`. -/
def ofIndex (index : Nat) : Position :=
  let height := indexToHeight index
  ⟨index, height, decide (indexToHeight (index + 1) > height)⟩

end Position

/-- The doubling loop of `PeakIterator::new`: the least `k = 2^n` with `k - 1 > size`. -/
def firstPeakLoop : Nat → Nat → Nat → Nat
  | 0, _, k => k
  | fuel + 1, size, k => if k - 1 ≤ size then firstPeakLoop fuel size (k <<< 1) else k

/-- `PeakIterator::new`: the first peak sits at 0-based index `2^n - 2` for the largest
    `n` with `2^n - 1 ≤ size`, and is a left node. -/
def firstPeak (size : Nat) : Option Position :=
  if size = 0 then none
  else
    let k := firstPeakLoop (size + 2) size 1
    let peakIndexOneBased := (k >>> 1) - 1
    some ⟨peakIndexOneBased - 1, countOnes peakIndexOneBased - 1, false⟩

/-- The `while` of `PeakIterator::next`: left children until one lies in the range. -/
def descendLeftLoop : Nat → Nat → Option Position → Option Position
  | 0, _, candidate => candidate
  | fuel + 1, size, candidate =>
    match candidate with
    | some p => if p.index > size - 1 then descendLeftLoop fuel size p.leftChild else candidate
    | none => none

/-- `PeakIterator::next` after returning `current`: below its right sibling, which is
    never in the range. -/
def nextPeak (size : Nat) (current : Position) : Option Position :=
  let sibling := current.sibling
  descendLeftLoop (sibling.height + 1) size sibling.leftChild

def peaksLoop : Nat → Nat → Option Position → List Position
  | 0, _, _ => []
  | fuel + 1, size, current =>
    match current with
    | none => []
    | some p => p :: peaksLoop fuel size (nextPeak size p)

/-- The peaks `PeakIterator` yields, leftmost (biggest) first. Each is lower than the
    one before, so there are fewer than `size + 1`. -/
def peaks (size : Nat) : List Position := peaksLoop (size + 1) size (firstPeak size)

def revPeaksLoop : Nat → Option Position → List Position
  | 0, _ => []
  | _ + 1, none => []
  | fuel + 1, some p =>
    let treeNodes := 2 ^ (p.height + 1) - 1
    p :: revPeaksLoop fuel
      (if p.index + 1 = treeNodes then none
       else let index := p.index - treeNodes; some ⟨index, indexToHeight index, false⟩)

/-- The peaks `RevPeakIterator` yields, rightmost first: each previous peak ends just
    before the tree of the current one, so the index falls at every step. -/
def revPeaks (size : Nat) : List Position :=
  revPeaksLoop (size + 1) (if size = 0 then none else some ⟨size - 1, indexToHeight (size - 1), false⟩)

inductive Error
  | inconsistentStore
  | emptyTree
  | proveInvalidLeaves
  | invalidProof
  | incompleteProof
  | proofOutOfOrder
  deriving DecidableEq, Repr

/-- The `Merge` trait of the hashes of a range. -/
structure Merge (H : Type) where
  empty : Nat → H
  merge : H → H → Nat → H

variable {H : Type}

def baggingLoop (merge : H → H → Nat → H) :
    Option (H × Nat) → List (Except Error (H × Nat)) → Except Error (Option (H × Nat))
  | info, [] => .ok info
  | _, .error e :: _ => .error e
  | info, .ok (peakHash, peakLeaves) :: rest =>
    baggingLoop merge
      (match info with
        | none => some (peakHash, peakLeaves)
        | some (rootHash, rootLeaves) =>
          some (merge peakHash rootHash (rootLeaves + peakLeaves), rootLeaves + peakLeaves))
      rest

/-- `bagging` over the peaks in reverse order: the first error stops it, and each peak is
    merged in front of the running root, prefixed by the leaves below both. -/
def bagging (merge : H → H → Nat → H) (peaksRev : List (Except Error (H × Nat))) :
    Except Error H :=
  match baggingLoop merge none peaksRev with
  | .error e => .error e
  | .ok none => .error .proveInvalidLeaves
  | .ok (some (root, _)) => .ok root

end Albatross.Mmr
