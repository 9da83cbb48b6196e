import Albatross.Collections.BitSet
import Albatross.Lib.IdealAggregate
import Albatross.Primitives.SlotsAllocation
import Albatross.Block.MacroBlock

/- Quorum certificates of macro blocks and skip blocks
   (primitives/block/src/tendermint.rs, skip_block.rs, multisig.rs), over ideal
   BLS aggregation. Both checks count `signers.len()`, but collect keys
   differently: `TendermintProof` walks the slot keys and tests membership,
   `SkipBlockProof` walks the signers and casts each to u16. A result of `none`
   is a panic. -/
namespace Albatross
open IdealAggregate

inductive TendermintStep where
  | preVote
  | preCommit
  | propose
  deriving DecidableEq, Repr

structure TendermintIdentifier where
  network : Nat
  blockNumber : Nat
  roundNumber : Nat
  step : TendermintStep
  deriving DecidableEq, Repr

structure TendermintVote (S : Type) where
  proposalHash : Option S
  id : TendermintIdentifier
  deriving DecidableEq, Repr

structure MultiSignature (K M : Type) where
  signature : AggregateSignature K M
  signers : BitSet

structure TendermintProof (K S : Type) where
  round : Nat
  sig : MultiSignature K (TendermintVote S)

structure SkipBlockProof (K M : Type) where
  sig : MultiSignature K M

variable {K S H C M : Type}

/-- The loop of `TendermintProof::verify`: slot `i`'s key is aggregated when
    `i` is a signer. -/
def aggregateSlotKeys (keys : List K) (signers : BitSet) : AggregatePublicKey K :=
  keys.zipIdx.foldl (fun agg e => if signers.contains e.2 then agg.aggregate e.1 else agg)
    AggregatePublicKey.new

namespace TendermintProof

/-- `votes`: `signers.len() as u16`. -/
def votes (j : TendermintProof K S) : Nat := j.sig.signers.len % 2 ^ 16

/-- The PreCommit vote for the block that the validators actually signed. -/
def message (hashBlake2s : MacroHeader H C → S) (block : MacroBlock H C (TendermintProof K S))
    (j : TendermintProof K S) : TendermintVote S :=
  ⟨some (hashBlake2s block.header), ⟨block.network, block.blockNumber, j.round, .preCommit⟩⟩

def verify [DecidableEq K] [DecidableEq S] (hashBlake2s : MacroHeader H C → S)
    (block : MacroBlock H C (TendermintProof K S)) (vs : Validators K) : Bool :=
  match block.justification with
  | none => false
  | some j =>
    if j.votes < Policy.TWO_F_PLUS_ONE then false
    else IdealAggregate.verify (aggregateSlotKeys (Validators.votingKeys vs) j.sig.signers)
      (message hashBlake2s block j) j.sig.signature

end TendermintProof

namespace SkipBlockProof

/-- The fold of `SkipBlockProof::verify`: each signer `slot` contributes the key
    of `get_validator_by_slot_number(slot as u16)`, which panics out of range. -/
def aggregateSigners (vs : Validators K) (signers : List Nat) : Option (AggregatePublicKey K) :=
  signers.foldlM (fun agg slot =>
    (vs.getValidatorBySlotNumber (slot % 2 ^ 16)).map fun v => agg.aggregate v.votingKey)
    AggregatePublicKey.new

/-- `verify`, with `message` the `hash_with_prefix` of the skip block info. -/
def verify [DecidableEq K] [DecidableEq M] (proof : SkipBlockProof K M) (message : M)
    (vs : Validators K) : Option Bool :=
  if proof.sig.signers.len < Policy.TWO_F_PLUS_ONE then some false
  else (aggregateSigners vs proof.sig.signers.iter).map fun agg =>
    IdealAggregate.verify agg message proof.sig.signature

end SkipBlockProof

/-- The conclusion of quorum soundness: 2f+1 distinct slots, all signed `m`. -/
def QuorumSigned (vs : Validators K) (sig : AggregateSignature K M) (m : M) : Prop :=
  ∃ slots : Finset Nat, (∀ s ∈ slots, s < Policy.SLOTS) ∧ Policy.TWO_F_PLUS_ONE ≤ slots.card ∧
    ∀ s ∈ slots, ∃ k, (Validators.votingKeys vs)[s]? = some k ∧ Signed sig k m

theorem foldl_aggregate_filter (signers : BitSet) (l : List (K × Nat)) (acc : AggregatePublicKey K) :
    l.foldl (fun agg e => if signers.contains e.2 then agg.aggregate e.1 else agg) acc =
      acc + ((l.filter fun e => signers.contains e.2).map Prod.fst : List K) := by
  induction l generalizing acc with
  | nil => simp
  | cons e l ih =>
    rw [List.foldl_cons, ih, List.filter_cons]
    by_cases member : signers.contains e.2 = true
    · simp only [member, ↓reduceIte, AggregatePublicKey.aggregate, List.map_cons]
      rw [← Multiset.cons_coe, add_assoc, Multiset.singleton_add]
    · simp [member]

theorem mem_aggregateSlotKeys (keys : List K) (signers : BitSet) (k : K) :
    k ∈ aggregateSlotKeys keys signers ↔ ∃ i, keys[i]? = some k ∧ signers.contains i = true := by
  rw [aggregateSlotKeys, foldl_aggregate_filter]
  simp only [AggregatePublicKey.new, zero_add, Multiset.mem_coe, List.mem_map, List.mem_filter,
    List.mem_zipIdx_iff_getElem?]
  constructor
  · rintro ⟨⟨k', i⟩, ⟨at_i, member⟩, rfl⟩
    exact ⟨i, at_i, member⟩
  · rintro ⟨i, at_i, member⟩
    exact ⟨⟨k, i⟩, ⟨at_i, member⟩, rfl⟩

theorem aggregateSlotKeys_ne_zero {keys : List K} {signers : BitSet} {i : Nat} {k : K}
    (at_i : keys[i]? = some k) (member : signers.contains i = true) :
    aggregateSlotKeys keys signers ≠ 0 := by
  intro empty
  have mem := (mem_aggregateSlotKeys keys signers k).mpr ⟨i, at_i, member⟩
  rw [empty] at mem
  exact Multiset.notMem_zero k mem

theorem len_ge_of_votes_ge {j : TendermintProof K S} (enough : ¬ j.votes < Policy.TWO_F_PLUS_ONE) :
    Policy.TWO_F_PLUS_ONE ≤ j.sig.signers.len := by
  have truncated : j.votes ≤ j.sig.signers.len := Nat.mod_le _ _
  omega

/-- A justification carrying the signature of exactly its signers' slot keys
    verifies once it counts enough votes, unless no signer is a slot. -/
theorem verify_of_slot_signature [DecidableEq K] [DecidableEq S] (hashBlake2s : MacroHeader H C → S)
    {block : MacroBlock H C (TendermintProof K S)} {j : TendermintProof K S} {vs : Validators K}
    (just : block.justification = some j) (enough : ¬ j.votes < Policy.TWO_F_PLUS_ONE)
    (nonempty : aggregateSlotKeys (Validators.votingKeys vs) j.sig.signers ≠ 0)
    (signature : j.sig.signature = aggregateOf (aggregateSlotKeys (Validators.votingKeys vs)
      j.sig.signers) (TendermintProof.message hashBlake2s block j)) :
    TendermintProof.verify hashBlake2s block vs = true := by
  simp only [TendermintProof.verify, just, enough, ↓reduceIte]
  rw [signature]
  exact verify_aggregateOf nonempty _

/- Soundness when every signer index is a slot: the members of the bit set are
   2f+1 distinct slots, and each slot's key is in the verified aggregate. -/
theorem tendermint_proof_sound_for_slot_signers [DecidableEq K] [DecidableEq S]
    (hashBlake2s : MacroHeader H C → S) {block : MacroBlock H C (TendermintProof K S)}
    {j : TendermintProof K S} {vs : Validators K}
    (bands : Validators.Partition 0 Policy.SLOTS vs) (just : block.justification = some j)
    (exact : j.sig.signers.CountExact) (inRange : ∀ i ∈ j.sig.signers.iter, i < Policy.SLOTS)
    (ok : TendermintProof.verify hashBlake2s block vs = true) :
    QuorumSigned vs j.sig.signature (TendermintProof.message hashBlake2s block j) := by
  simp only [TendermintProof.verify, just] at ok
  split at ok
  · cases ok
  · rename_i enough
    have keys := Validators.partition_votingKeys_length bands
    refine ⟨j.sig.signers.iter.toFinset, fun s mem => inRange s (List.mem_toFinset.mp mem), ?_, ?_⟩
    · rw [List.toFinset_card_of_nodup (BitSet.iter_nodup _), ← BitSet.len_eq_iter_length exact]
      exact len_ge_of_votes_ge enough
    · intro s mem
      have member := List.mem_toFinset.mp mem
      have slot := inRange s member
      obtain ⟨k, at_s⟩ : ∃ k, (Validators.votingKeys vs)[s]? = some k :=
        ⟨_, List.getElem?_eq_getElem (by omega)⟩
      refine ⟨k, at_s, (signed_of_verify ok k).mpr ?_⟩
      exact (mem_aggregateSlotKeys _ _ k).mpr ⟨s, at_s, (BitSet.mem_iter _ s).mp member⟩

/-- Against the aggregate of the signer slots' keys, every slot of a quorum
    shares its key with a signer slot. -/
theorem QuorumSigned.signer_keys {vs : Validators K} {signers : BitSet} {m : M}
    (quorum : QuorumSigned vs (aggregateOf (aggregateSlotKeys (Validators.votingKeys vs) signers) m) m) :
    ∃ slots : Finset Nat, Policy.TWO_F_PLUS_ONE ≤ slots.card ∧ ∀ s ∈ slots, ∃ i k,
      (Validators.votingKeys vs)[s]? = some k ∧ (Validators.votingKeys vs)[i]? = some k ∧
        signers.contains i = true := by
  obtain ⟨slots, -, enough, signed⟩ := quorum
  refine ⟨slots, enough, fun s mem => ?_⟩
  obtain ⟨k, at_s, sig⟩ := signed s mem
  obtain ⟨i, at_i, member⟩ := (mem_aggregateSlotKeys _ _ k).mp ((signed_aggregateOf _ k m).mp sig)
  exact ⟨i, k, at_s, at_i, member⟩

/-- One validator owning every slot. -/
def soleValidator : Validators Nat := [⟨7, 0, 512⟩]

theorem soleValidator_bands : Validators.Partition 0 Policy.SLOTS soleValidator :=
  .cons rfl (by decide) (.nil _)

/-- Signer words with slots 0 to 341 set. -/
def inRangeSigners : BitSet :=
  BitSet.visitSeq [0xFFFFFFFFFFFFFFFF, 0xFFFFFFFFFFFFFFFF, 0xFFFFFFFFFFFFFFFF,
    0xFFFFFFFFFFFFFFFF, 0xFFFFFFFFFFFFFFFF, 0x3FFFFF]

def signedHeader : MacroHeader Nat Unit := ⟨0, 43200, 0, some [], ()⟩

/-- The PreCommit of `signedHeader` at round 0, hashing every header to 0. -/
def signedVote : TendermintVote Nat := ⟨some 0, ⟨0, 43200, 0, .preCommit⟩⟩

/-- The aggregate of the signers' own signatures of `signedVote`. -/
def signedProof : TendermintProof Nat Nat :=
  ⟨0, ⟨aggregateOf (aggregateSlotKeys (Validators.votingKeys soleValidator) inRangeSigners) signedVote,
    inRangeSigners⟩⟩

def signedBlock : MacroBlock Nat Unit (TendermintProof Nat Nat) := ⟨signedHeader, some signedProof⟩

theorem inRangeSigners_in_slots (i : Nat) (mem : i ∈ inRangeSigners.iter) : i < Policy.SLOTS := by
  have member := (BitSet.mem_iter _ i).mp mem
  by_contra outside
  have beyond : inRangeSigners.store[i / 64]? = none := by
    apply List.getElem?_eq_none
    simp only [inRangeSigners, BitSet.visitSeq, List.length_cons, List.length_nil]
    unfold Policy.SLOTS at outside
    omega
  simp [BitSet.contains_eq, beyond] at member

theorem signedBlock_quorum :
    Validators.Partition 0 Policy.SLOTS soleValidator ∧ signedBlock.justification = some signedProof ∧
    signedProof.sig.signers.CountExact ∧ (∀ i ∈ signedProof.sig.signers.iter, i < Policy.SLOTS) ∧
    TendermintProof.verify (fun _ => 0) signedBlock soleValidator = true ∧
    QuorumSigned soleValidator signedProof.sig.signature
      (TendermintProof.message (fun _ => 0) signedBlock signedProof) := by
  have enough : ¬ signedProof.votes < Policy.TWO_F_PLUS_ONE := by
    simp only [TendermintProof.votes, Policy.two_f_plus_one_eq]
    decide
  -- membership, not evaluation: unfolding `aggregateOf` would run the slot fold
  have nonempty : aggregateSlotKeys (Validators.votingKeys soleValidator) inRangeSigners ≠ 0 :=
    aggregateSlotKeys_ne_zero (i := 0) (k := 7) rfl (by decide)
  have ok : TendermintProof.verify (fun _ => 0) signedBlock soleValidator = true :=
    verify_of_slot_signature _ rfl enough nonempty (by simp only [signedProof]; rfl)
  exact ⟨soleValidator_bands, rfl, BitSet.visitSeq_countExact _, inRangeSigners_in_slots, ok,
    tendermint_proof_sound_for_slot_signers (fun _ => 0) soleValidator_bands rfl
      (BitSet.visitSeq_countExact _) inRangeSigners_in_slots ok⟩

theorem aggregateSigners_panics {vs : Validators K} {signers : List Nat} {slot : Nat}
    (member : slot ∈ signers) (panics : vs.getValidatorBySlotNumber (slot % 2 ^ 16) = none) :
    SkipBlockProof.aggregateSigners vs signers = none := by
  unfold SkipBlockProof.aggregateSigners
  generalize (AggregatePublicKey.new : AggregatePublicKey K) = acc
  induction signers generalizing acc with
  | nil => cases member
  | cons head rest ih =>
    rw [List.foldlM_cons]
    rcases List.mem_cons.mp member with rfl | later
    · rw [panics]; rfl
    · cases step : (vs.getValidatorBySlotNumber (head % 2 ^ 16)).map
          (fun v => acc.aggregate v.votingKey) with
      | none => rfl
      | some next => exact ih later next

/-- Signer words as the binary deserializer accepts them: 342 members, all at
    indices 512 to 853, none of them a slot. -/
def outOfRangeSigners : BitSet :=
  BitSet.visitSeq [0, 0, 0, 0, 0, 0, 0, 0, 0xFFFFFFFFFFFFFFFF, 0xFFFFFFFFFFFFFFFF,
    0xFFFFFFFFFFFFFFFF, 0xFFFFFFFFFFFFFFFF, 0xFFFFFFFFFFFFFFFF, 0x3FFFFF]

theorem outOfRangeSigners_len : outOfRangeSigners.len = 342 := by decide

/-- Two validators of 256 slots each: neither holds 2f+1 of them. -/
def twoValidators : Validators Nat := [⟨7, 0, 256⟩, ⟨8, 256, 512⟩]

theorem twoValidators_bands : Validators.Partition 0 Policy.SLOTS twoValidators :=
  .cons rfl (by decide) (.cons rfl (by decide) (.nil _))

-- `simp only`: the full simp set would unfold the 256 copies
theorem twoValidators_votingKeys :
    Validators.votingKeys twoValidators = List.replicate 256 7 ++ List.replicate 256 8 := by
  simp only [Validators.votingKeys, twoValidators, List.flatMap_cons, List.flatMap_nil,
    List.append_nil, Validator.numSlots]

theorem twoValidators_key_zero : (Validators.votingKeys twoValidators)[0]? = some 7 := by
  rw [twoValidators_votingKeys, List.getElem?_append_left (by rw [List.length_replicate]; omega),
    List.getElem?_replicate, if_pos (by omega)]

theorem twoValidators_first_key {s : Nat} (at_s : (Validators.votingKeys twoValidators)[s]? = some 7) :
    s < 256 := by
  by_contra upper
  rw [twoValidators_votingKeys, List.getElem?_append_right (by rw [List.length_replicate]; omega),
    List.getElem?_replicate] at at_s
  split at at_s
  · cases at_s
  · cases at_s

/-- The out-of-range signers with slot 0 added: 343 members, one of them a slot. -/
def minoritySigners : BitSet :=
  BitSet.visitSeq [1, 0, 0, 0, 0, 0, 0, 0, 0xFFFFFFFFFFFFFFFF, 0xFFFFFFFFFFFFFFFF,
    0xFFFFFFFFFFFFFFFF, 0xFFFFFFFFFFFFFFFF, 0xFFFFFFFFFFFFFFFF, 0x3FFFFF]

theorem minoritySigners_len : minoritySigners.len = 343 := by decide

theorem minoritySigners_slot {i : Nat} (slot : i < Policy.SLOTS)
    (member : minoritySigners.contains i = true) : i = 0 := by
  rw [BitSet.contains_eq] at member
  have low : i / 64 < 8 := by unfold Policy.SLOTS at slot; omega
  -- below slot 512 only the first word has a bit, its lowest
  have word : minoritySigners.store[i / 64]? = some (if i / 64 = 0 then 1 else 0) := by
    generalize i / 64 = q at low ⊢
    interval_cases q <;> rfl
  rw [word] at member
  by_cases first : i / 64 = 0
  · simp [first, Nat.testBit_one_eq_true_iff_self_eq_zero] at member
    omega
  · simp [first] at member

/-- The first validator's signature of `signedVote`, the only slot key among the
    signers. -/
def minorityProof : TendermintProof Nat Nat :=
  ⟨0, ⟨aggregateOf (aggregateSlotKeys (Validators.votingKeys twoValidators) minoritySigners) signedVote,
    minoritySigners⟩⟩

def minorityBlock : MacroBlock Nat Unit (TendermintProof Nat Nat) := ⟨signedHeader, some minorityProof⟩

theorem tendermint_proof_accepts_minority_block :
    Validators.Partition 0 Policy.SLOTS twoValidators ∧
      TendermintProof.verify (fun _ => 0) minorityBlock twoValidators = true ∧
      ¬ QuorumSigned twoValidators minorityProof.sig.signature
        (TendermintProof.message (fun _ => 0) minorityBlock minorityProof) := by
  have keys : (Validators.votingKeys twoValidators).length = Policy.SLOTS :=
    Validators.partition_votingKeys_length twoValidators_bands
  have votes : ¬ minorityProof.votes < Policy.TWO_F_PLUS_ONE := by
    simp only [TendermintProof.votes, Policy.two_f_plus_one_eq]
    rw [show minorityProof.sig.signers = minoritySigners from rfl, minoritySigners_len]
    decide
  have nonempty : aggregateSlotKeys (Validators.votingKeys twoValidators) minoritySigners ≠ 0 :=
    aggregateSlotKeys_ne_zero twoValidators_key_zero (by decide : minoritySigners.contains 0 = true)
  have signature : minorityProof.sig.signature = aggregateOf (aggregateSlotKeys
      (Validators.votingKeys twoValidators) minoritySigners)
      (TendermintProof.message (fun _ => 0) minorityBlock minorityProof) := by
    simp only [minorityProof]
    rfl
  refine ⟨twoValidators_bands, verify_of_slot_signature _ rfl votes nonempty signature, ?_⟩
  intro quorum
  rw [signature] at quorum
  obtain ⟨slots, enough, shared⟩ := quorum.signer_keys
  -- slot 0 is the only signer slot, so every quorum slot carries its key
  have first : ∀ s ∈ slots, s < 256 := by
    intro s mem
    obtain ⟨i, k, at_s, at_i, member⟩ := shared s mem
    have bound : i < Policy.SLOTS := keys ▸ (List.getElem?_eq_some_iff.mp at_i).1
    obtain rfl := minoritySigners_slot bound member
    obtain rfl : k = 7 := by
      rw [twoValidators_key_zero] at at_i
      exact (Option.some_inj.mp at_i).symm
    exact twoValidators_first_key at_s
  have small : slots.card ≤ 256 :=
    calc slots.card ≤ (Finset.range 256).card :=
          Finset.card_le_card fun s mem => Finset.mem_range.mpr (first s mem)
      _ = 256 := Finset.card_range 256
  rw [Policy.two_f_plus_one_eq] at enough
  omega

theorem skip_block_proof_panics_out_of_range (message : Nat) :
    SkipBlockProof.verify (⟨⟨0, outOfRangeSigners⟩⟩ : SkipBlockProof Nat Nat) message
      soleValidator = none := by
  have enough : ¬ outOfRangeSigners.len < Policy.TWO_F_PLUS_ONE := by
    rw [outOfRangeSigners_len, Policy.two_f_plus_one_eq]; decide
  have member : 512 ∈ outOfRangeSigners.iter := (BitSet.mem_iter _ 512).mpr (by decide)
  have panics : soleValidator.getValidatorBySlotNumber (512 % 2 ^ 16) = none := by decide
  simp [SkipBlockProof.verify, enough, aggregateSigners_panics member panics]

end Albatross
