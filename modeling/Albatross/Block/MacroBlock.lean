import Albatross.Policy

/- Macro block headers (primitives/block/src/macro_block.rs). The fields that
   the modelled functions read are explicit; every other header field (round,
   timestamps, seed, roots, validators, punished set) is one opaque `content`
   value of type `C`, which enters only the header hashes. -/
namespace Albatross

/-- The variants of `BlockError` that the modelled checks return. -/
inductive BlockError where
  | invalidBlockType
  | invalidForkProof
  | duplicateForkProof
  | forkProofsNotOrdered
  | duplicateTransaction
  | expiredTransaction
  | invalidSkipBlockBody
  deriving DecidableEq, Repr

structure MacroHeader (H C : Type) where
  network : Nat
  blockNumber : Nat
  parentElectionHash : H
  interlink : Option (List H)
  content : C
  deriving DecidableEq, Repr

structure MacroBlock (H C J : Type) where
  header : MacroHeader H C
  justification : Option J
  deriving DecidableEq, Repr

namespace MacroHeader

variable {H C : Type}

/-- A header is its tuple of fields; with countable fields it has an injective
    encoding into the naturals, our model of a collision-free header hash. -/
def equivProd : MacroHeader H C ≃ Nat × Nat × H × Option (List H) × C where
  toFun h := (h.network, h.blockNumber, h.parentElectionHash, h.interlink, h.content)
  invFun x := ⟨x.1, x.2.1, x.2.2.1, x.2.2.2.1, x.2.2.2.2⟩
  left_inv _ := rfl
  right_inv _ := rfl

instance [Encodable H] [Encodable C] : Encodable (MacroHeader H C) := Encodable.ofEquiv _ equivProd

end MacroHeader

namespace MacroBlock

variable {H C J : Type}

def blockNumber (b : MacroBlock H C J) : Nat := b.header.blockNumber

def network (b : MacroBlock H C J) : Nat := b.header.network

/-- `MacroHeader::is_election`. -/
def isElection (p : Policy) (b : MacroBlock H C J) : Bool := p.isElectionBlockAt b.blockNumber

end MacroBlock

end Albatross
