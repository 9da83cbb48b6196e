import Albatross.History.ValidityStore
import Albatross.Block.MacroBlock

/- The replay defences on the path that extends the main chain
   (blockchain/src/blockchain/push.rs, verify.rs; primitives/block/src/micro_block.rs).
   `MicroBody::verify` checks each equivocation proof's reporting window and each
   transaction's validity window; `verify_equivocation_proofs` rejects a proof
   whose locator the validity store holds; `check_and_commit` rejects a micro
   block with a transaction the validity store holds; the commit adds the block's
   historic transactions to the store and records the block. -/
namespace Albatross

structure Transaction (H : Type) where
  hash : H
  rawTxHash : H
  validityStartHeight : Nat
  deriving DecidableEq, Repr

namespace Transaction

variable {H : Type}

/-- `is_valid_at`; the window's end is a wrapping u32 sum. -/
def isValidAt (p : Policy) (tx : Transaction H) (blockHeight : Nat) : Bool :=
  let window := p.transactionValidityWindowBlocks
  decide (blockHeight ≥ tx.validityStartHeight - p.blocksPerBatch) &&
    decide (blockHeight < (tx.validityStartHeight + window) % u32Bound)

end Transaction

/-- An equivocation proof, by what the replay defences read: its locator, the
    block number of the offence and its sort key (the proof's hash). -/
structure EquivocationProof (L : Type) where
  locator : L
  blockNumber : Nat
  sortKey : Nat
  deriving DecidableEq, Repr

/-- `is_valid_at`: up to `last_block_of_reporting_window`, a wrapping u32 sum. -/
def EquivocationProof.isValidAt {L : Type} (p : Policy) (proof : EquivocationProof L)
    (blockNumber : Nat) : Bool :=
  decide (blockNumber ≤ (proof.blockNumber + p.blocksPerEpoch) % u32Bound) &&
    decide (p.batchAt blockNumber ≥ p.batchAt proof.blockNumber)

structure MicroBody (H L : Type) where
  equivocationProofs : List (EquivocationProof L)
  transactions : List (Transaction H)
  deriving DecidableEq, Repr

inductive Block (H L : Type) where
  | microBlock (blockNumber : Nat) (isSkip : Bool) (body : MicroBody H L) (inherentHashes : List H)
  | macroBlock (blockNumber : Nat) (inherentHashes : List H)
  deriving DecidableEq, Repr

inductive PushError (L : Type) where
  | orphan
  | invalidBlock (error : BlockError)
  | equivocationAlreadyIncluded (locator : L)
  | duplicateTransaction
  deriving DecidableEq, Repr

variable {H L : Type}

namespace MicroBody

/-- The proof loop of `MicroBody::verify`: in the reporting window, sorted by
    sort key, without repeats. -/
def verifyProofs (p : Policy) (blockNumber : Nat) :
    Option (EquivocationProof L) → List (EquivocationProof L) → Except BlockError Unit
  | _, [] => .ok ()
  | previous, proof :: rest =>
    if !proof.isValidAt p blockNumber then .error .invalidForkProof
    else match previous with
      | some previous =>
        if previous.sortKey = proof.sortKey then .error .duplicateForkProof
        else if previous.sortKey > proof.sortKey then .error .forkProofsNotOrdered
        else verifyProofs p blockNumber (some proof) rest
      | none => verifyProofs p blockNumber (some proof) rest

/-- The transaction loop of `MicroBody::verify`: in the validity window, with
    hashes not seen before in the body. -/
def verifyTransactions [DecidableEq H] (p : Policy) (blockNumber : Nat) :
    List H → List (Transaction H) → Except BlockError Unit
  | _, [] => .ok ()
  | uniq, tx :: rest =>
    if !tx.isValidAt p blockNumber then .error .expiredTransaction
    else if tx.hash ∈ uniq then .error .duplicateTransaction
    else verifyTransactions p blockNumber (tx.hash :: uniq) rest

/-- `MicroBody::verify`, without the size limit. -/
def verify [DecidableEq H] (p : Policy) (body : MicroBody H L) (isSkip : Bool) (blockNumber : Nat) :
    Except BlockError Unit :=
  if isSkip && (!body.equivocationProofs.isEmpty || !body.transactions.isEmpty) then
    .error .invalidSkipBlockBody
  else do
    verifyProofs p blockNumber none body.equivocationProofs
    verifyTransactions p blockNumber [] body.transactions

end MicroBody

namespace Block

def blockNumber : Block H L → Nat
  | .microBlock blockNumber .. => blockNumber
  | .macroBlock blockNumber _ => blockNumber

def isMacro : Block H L → Bool
  | .microBlock .. => false
  | .macroBlock .. => true

/-- The `tx_hash` of each historic transaction the block adds to the history:
    its transactions' raw hashes, its equivocation events and its inherents. -/
def historicHashes (eventHash : L → H) : Block H L → List H
  | .microBlock _ _ body inherentHashes =>
    body.transactions.map (·.rawTxHash) ++
      body.equivocationProofs.map (fun proof => eventHash proof.locator) ++ inherentHashes
  | .macroBlock _ inherentHashes => inherentHashes

/-- The block at height `k` with nothing in it. -/
def empty (p : Policy) (k : Nat) : Block H L :=
  if p.isMacroBlockAt k then .macroBlock k [] else .microBlock k false ⟨[], []⟩ []

end Block

/-- The chain as the replay defences see it: the head's block number and the
    validity store. -/
structure ChainState (H : Type) where
  head : Nat
  store : ValidityStore H

section Push

variable [DecidableEq H] [Inhabited H] (p : Policy) (eventHash : L → H)

/-- `add_to_history` as it reaches the validity store. -/
def commitToStore (store : ValidityStore H) (blockNumber : Nat) (hashes : List H) :
    ValidityStore H :=
  (hashes.foldl (fun s h => s.addTransaction blockNumber h) store).updateValidityStore p blockNumber

/-- The first of the given locators that the validity store holds, if any. -/
def firstIncludedLocator (store : ValidityStore H) : List (EquivocationProof L) → Option L
  | [] => none
  | proof :: rest =>
    if store.hasTransaction p (eventHash proof.locator) then some proof.locator
    else firstIncludedLocator store rest

/-- `Blockchain::push` extending the head: the block type, the body, the
    equivocation proofs against the store, the replay check of
    `check_and_commit`, then the commit. -/
def push (state : ChainState H) (block : Block H L) : Except (PushError L) (ChainState H) :=
  if block.blockNumber ≠ state.head + 1 then .error .orphan
  else if block.isMacro ≠ p.isMacroBlockAt block.blockNumber then
    .error (.invalidBlock .invalidBlockType)
  else match block with
    | .microBlock blockNumber isSkip body _ =>
      match body.verify p isSkip blockNumber with
      | .error e => .error (.invalidBlock e)
      | .ok () =>
        match firstIncludedLocator p eventHash state.store body.equivocationProofs with
        | some locator => .error (.equivocationAlreadyIncluded locator)
        | none =>
          if body.transactions.any fun tx => state.store.hasTransaction p tx.rawTxHash then
            .error .duplicateTransaction
          else .ok ⟨blockNumber, commitToStore p state.store blockNumber
            (block.historicHashes eventHash)⟩
    | .macroBlock blockNumber _ =>
      .ok ⟨blockNumber, commitToStore p state.store blockNumber (block.historicHashes eventHash)⟩

/-- Blocks pushed one after another; the first error stops the run. -/
def pushChain (state : ChainState H) (blocks : List (Block H L)) : Except (PushError L) (ChainState H) :=
  blocks.foldlM (push p eventHash) state

end Push

section Runs

variable [DecidableEq H] [Inhabited H] {p : Policy} {eventHash : L → H}

theorem push_microBlock {state : ChainState H} {isSkip : Bool} {body : MicroBody H L}
    {inherentHashes : List H} (micro : p.isMacroBlockAt (state.head + 1) = false)
    (valid : body.verify p isSkip (state.head + 1) = .ok ())
    (noLocator : firstIncludedLocator p eventHash state.store body.equivocationProofs = none)
    (fresh : (body.transactions.any fun tx => state.store.hasTransaction p tx.rawTxHash) = false) :
    push p eventHash state (.microBlock (state.head + 1) isSkip body inherentHashes) =
      .ok ⟨state.head + 1, commitToStore p state.store (state.head + 1)
        ((Block.microBlock (state.head + 1) isSkip body inherentHashes).historicHashes eventHash)⟩ := by
  simp [push, Block.blockNumber, Block.isMacro, micro, valid, noLocator, fresh]

theorem push_macroBlock {state : ChainState H} {inherentHashes : List H}
    (isMacro : p.isMacroBlockAt (state.head + 1) = true) :
    push p eventHash state (.macroBlock (state.head + 1) inherentHashes) =
      .ok ⟨state.head + 1, commitToStore p state.store (state.head + 1) inherentHashes⟩ := by
  simp [push, Block.blockNumber, Block.isMacro, isMacro, Block.historicHashes]

theorem push_empty (state : ChainState H) :
    push p eventHash state (Block.empty p (state.head + 1)) =
      .ok ⟨state.head + 1, commitToStore p state.store (state.head + 1) []⟩ := by
  unfold Block.empty
  split
  · rename_i isMacro
    exact push_macroBlock isMacro
  · rename_i micro
    rw [push_microBlock (by simpa using micro) rfl rfl rfl]
    rfl

theorem commitToStore_spans {s : ValidityStore H} {first last bn : Nat}
    (spans : s.Spans first last) (after : last ≤ bn)
    (fits : bn - first + 1 ≤ p.transactionValidityWindowBlocks + p.blocksPerBatch) (hashes : List H) :
    (commitToStore p s bn hashes).txnHashes =
        hashes.foldl (fun m h => Function.update m h (some bn)) s.txnHashes ∧
      (commitToStore p s bn hashes).Spans first bn := by
  obtain ⟨last', -, below, added⟩ := spans.foldl_addTransaction hashes after
  obtain ⟨same, recorded⟩ := added.updateValidityStore p below fits
  unfold commitToStore
  rw [same, ValidityStore.foldl_addTransaction_txnHashes]
  exact ⟨rfl, recorded⟩

theorem pushChain_cons {state state' : ChainState H} {block : Block H L} {blocks : List (Block H L)}
    (step : push p eventHash state block = .ok state') :
    pushChain p eventHash state (block :: blocks) = pushChain p eventHash state' blocks := by
  rw [pushChain, List.foldlM_cons, step]
  rfl

theorem pushChain_append {state state' : ChainState H} {blocks more : List (Block H L)}
    (run : pushChain p eventHash state blocks = .ok state') :
    pushChain p eventHash state (blocks ++ more) = pushChain p eventHash state' more := by
  rw [pushChain, List.foldlM_append, ← pushChain, run]
  rfl

variable (eventHash) in
/-- The run lemma: `k` empty blocks after `m`, in a store that keeps them all,
    leave every recorded hash in place and make `m + k` the last block. -/
theorem pushChain_empty_blocks (k : Nat) :
    ∀ (m first : Nat) (s : ValidityStore H), s.Spans first m →
      m + k - first + 1 ≤ p.transactionValidityWindowBlocks + p.blocksPerBatch →
      ∃ s', pushChain p eventHash ⟨m, s⟩ ((List.range' (m + 1) k).map (Block.empty p)) =
          .ok ⟨m + k, s'⟩ ∧ s'.txnHashes = s.txnHashes ∧ s'.Spans first (m + k) := by
  induction k with
  | zero =>
    intro m first s spans _
    exact ⟨s, rfl, rfl, spans⟩
  | succ k ih =>
    intro m first s spans fits
    obtain ⟨same, recorded⟩ := commitToStore_spans (p := p) spans (Nat.le_succ m) (by omega) []
    obtain ⟨s', run, same', spans'⟩ := ih (m + 1) first _ recorded (by omega)
    refine ⟨s', ?_, same'.trans same, by rwa [show m + (k + 1) = m + 1 + k by omega]⟩
    rw [List.range'_succ, List.map_cons, pushChain_cons (push_empty ⟨m, s⟩),
      show m + (k + 1) = m + 1 + k by omega]
    exact run

omit [Inhabited H] in
theorem spans_addTransaction_new (bn : Nat) (txnHash : H) :
    ((ValidityStore.new : ValidityStore H).addTransaction bn txnHash).Spans bn bn :=
  ⟨by simp [ValidityStore.addTransaction, ValidityStore.new, ValidityStore.putDup],
    ⟨(bn, txnHash), by simp [ValidityStore.addTransaction, ValidityStore.new, ValidityStore.putDup], rfl⟩,
    ⟨(bn, txnHash), by simp [ValidityStore.addTransaction, ValidityStore.new, ValidityStore.putDup], rfl⟩⟩

theorem commitToStore_new {bn : Nat} (pos : 0 < bn) (hashes : List H) :
    (commitToStore p ValidityStore.new bn hashes).txnHashes =
        hashes.foldl (fun m h => Function.update m h (some bn)) (fun _ => none) ∧
      (commitToStore p ValidityStore.new bn hashes).Spans bn bn := by
  have keep : bn - bn + 1 ≤ p.transactionValidityWindowBlocks + p.blocksPerBatch := by
    have := p.blocksPerBatch_pos; omega
  cases hashes with
  | nil =>
    have empty : (ValidityStore.new : ValidityStore H).lastBn = 0 := rfl
    have recorded : (⟨ValidityStore.new.txnHashes,
        ValidityStore.putDup ValidityStore.new.blockTxns bn default⟩ : ValidityStore H).Spans bn bn :=
      ⟨by simp [ValidityStore.new, ValidityStore.putDup],
        ⟨(bn, default), by simp [ValidityStore.new, ValidityStore.putDup], rfl⟩,
        ⟨(bn, default), by simp [ValidityStore.new, ValidityStore.putDup], rfl⟩⟩
    unfold commitToStore ValidityStore.updateValidityStore
    simp only [List.foldl_nil, empty, if_pos pos]
    rw [ValidityStore.pruneValidityStore_of_fits p recorded keep]
    exact ⟨rfl, recorded⟩
  | cons h rest =>
    exact commitToStore_spans (spans_addTransaction_new bn h) le_rfl keep rest

end Runs

section Revert

variable [DecidableEq H] [Inhabited H] (p : Policy)

/-- `remove_block` on the validity store of a history that holds one block only:
    `delete_block_transactions` returns early when the first and the last block
    are the same, so the block's hashes stay recorded, and its entries too. -/
theorem remove_only_block_keeps_hashes {bn : Nat} (pos : 0 < bn) (hashes : List H) :
    (ValidityStore.deleteBlockTransactions (commitToStore p ValidityStore.new bn hashes) bn).blockTxns ≠ [] ∧
      ∀ h ∈ hashes,
        (ValidityStore.deleteBlockTransactions (commitToStore p ValidityStore.new bn hashes) bn).txnHashes h =
          some bn := by
  obtain ⟨txnHashes, spans⟩ := commitToStore_new (p := p) pos hashes
  have untouched : ValidityStore.deleteBlockTransactions (commitToStore p ValidityStore.new bn hashes) bn =
      commitToStore p ValidityStore.new bn hashes := by
    unfold ValidityStore.deleteBlockTransactions
    rw [if_pos (spans.firstBn_eq.trans spans.lastBn_eq.symm)]
  rw [untouched]
  constructor
  · obtain ⟨e, mem, -⟩ := spans.first_mem
    exact List.ne_nil_of_mem mem
  · intro h mem
    rw [txnHashes, ValidityStore.foldl_update_apply, if_pos mem]

end Revert

/-- A transaction with validity start height 61: under the default policy it is
    valid at heights 1 to 7260. -/
def replayTx : Transaction Nat := ⟨5, 1, 61⟩

/-- The equivocation event hash, injective on locators and apart from the raw
    transaction hashes used here. -/
def eventHashOf (locator : Nat) : Nat := locator + 2

def firstInclusion : Block Nat Nat := .microBlock 1 false ⟨[], [replayTx]⟩ []

def replayInclusion : Block Nat Nat := .microBlock 7202 false ⟨[], [replayTx]⟩ []

/-- Block 1 of a chain, with `replayTx`, is added to the empty history and removed
    again: the validity store still holds it. -/
theorem first_block_removed_still_recorded :
    (ValidityStore.deleteBlockTransactions (commitToStore Policy.default ValidityStore.new 1 [replayTx.rawTxHash]) 1).blockTxns ≠ [] ∧
      ∀ h ∈ [replayTx.rawTxHash],
        (ValidityStore.deleteBlockTransactions
          (commitToStore Policy.default ValidityStore.new 1 [replayTx.rawTxHash]) 1).txnHashes h = some 1 :=
  remove_only_block_keeps_hashes Policy.default Nat.one_pos [replayTx.rawTxHash]

/-- Replay protection fails: block 1 includes `replayTx`, 7200 empty blocks
    follow, and block 7202 includes it again while it is still valid. -/
theorem replayed_transaction_accepted :
    (∃ final, pushChain Policy.default eventHashOf ⟨0, ValidityStore.new⟩
      (firstInclusion :: (List.range' 2 7200).map (Block.empty Policy.default) ++ [replayInclusion]) =
        .ok final) ∧
    replayTx.isValidAt Policy.default 1 = true ∧ replayTx.isValidAt Policy.default 7202 = true := by
  have fits : Policy.default.transactionValidityWindowBlocks + Policy.default.blocksPerBatch = 7260 :=
    rfl
  -- block 1: the first inclusion, into the empty store
  have first : push Policy.default eventHashOf ⟨0, ValidityStore.new⟩ firstInclusion =
      .ok ⟨1, commitToStore Policy.default ValidityStore.new 1 [1]⟩ :=
    push_microBlock (by decide) (by decide) rfl rfl
  obtain ⟨txnHashes₁, spans₁⟩ := commitToStore_new (p := Policy.default) (H := Nat) Nat.one_pos [1]
  -- blocks 2 to 7201: empty
  obtain ⟨s, run, same, spans⟩ := pushChain_empty_blocks (p := Policy.default)
    eventHashOf 7200 1 1 _ spans₁ (by omega)
  have middle : pushChain Policy.default eventHashOf
      ⟨1, commitToStore Policy.default ValidityStore.new 1 [1]⟩
      ((List.range' 2 7200).map (Block.empty Policy.default)) = .ok ⟨7201, s⟩ := run
  have recorded : s.txnHashes 1 = some 1 := by
    rw [same, txnHashes₁]
    simp
  -- block 7202: the store's last block is 7201, so it looks back only to block 2
  have notSeen : s.hasTransaction Policy.default 1 = false := by
    have last := spans.lastBn_eq
    simp [ValidityStore.hasTransaction, recorded, last]
    decide
  have again : push Policy.default eventHashOf ⟨7201, s⟩ replayInclusion =
      .ok ⟨7202, commitToStore Policy.default s 7202 [1]⟩ :=
    push_microBlock (show Policy.default.isMacroBlockAt 7202 = false by decide)
      (show MicroBody.verify Policy.default ⟨[], [replayTx]⟩ false 7202 = .ok () by decide) rfl
      (by simp [replayTx, notSeen])
  refine ⟨⟨⟨7202, commitToStore Policy.default s 7202 [1]⟩, ?_⟩, by decide, by decide⟩
  rw [List.cons_append, pushChain_cons first, pushChain_append middle, pushChain_cons again]
  rfl

/-- An equivocation of block 1 with locator 3. -/
def reportedProof : EquivocationProof Nat := ⟨3, 1, 0⟩

def firstReport : Block Nat Nat := .microBlock 2 false ⟨[reportedProof], []⟩ []

def repeatedReport : Block Nat Nat := .microBlock 7203 false ⟨[reportedProof], []⟩ []

/-- One equivocation is punished twice: block 2 includes its proof, 7200 empty
    blocks follow, and block 7203, still in the reporting window, includes it
    again. -/
theorem repeated_equivocation_proof_accepted :
    (∃ final, pushChain Policy.default eventHashOf ⟨0, ValidityStore.new⟩
      (Block.empty Policy.default 1 :: firstReport ::
        (List.range' 3 7200).map (Block.empty Policy.default) ++ [repeatedReport]) = .ok final) ∧
    reportedProof.isValidAt Policy.default 2 = true ∧
    reportedProof.isValidAt Policy.default 7203 = true := by
  have fits : Policy.default.transactionValidityWindowBlocks + Policy.default.blocksPerBatch = 7260 :=
    rfl
  obtain ⟨txnHashes₁, spans₁⟩ := commitToStore_new (p := Policy.default) (H := Nat) Nat.one_pos []
  -- block 2: the first report, of an equivocation the store has not seen
  have unseen : firstIncludedLocator Policy.default eventHashOf
      (commitToStore Policy.default ValidityStore.new 1 []) [reportedProof] = none := by
    simp [firstIncludedLocator, ValidityStore.hasTransaction, txnHashes₁]
  have reported : push Policy.default eventHashOf
      ⟨1, commitToStore Policy.default ValidityStore.new 1 []⟩ firstReport =
      .ok ⟨2, commitToStore Policy.default (commitToStore Policy.default ValidityStore.new 1 []) 2 [5]⟩ :=
    push_microBlock (by decide) (by decide) unseen rfl
  obtain ⟨txnHashes₂, spans₂⟩ := commitToStore_spans (p := Policy.default) spans₁
    (show 1 ≤ 2 by omega) (by omega) [5]
  -- blocks 3 to 7202: empty
  obtain ⟨s, run, same, spans⟩ := pushChain_empty_blocks (p := Policy.default)
    eventHashOf 7200 2 1 _ spans₂ (by omega)
  have middle : pushChain Policy.default eventHashOf
      ⟨2, commitToStore Policy.default (commitToStore Policy.default ValidityStore.new 1 []) 2 [5]⟩
      ((List.range' 3 7200).map (Block.empty Policy.default)) = .ok ⟨7202, s⟩ := run
  have recorded : s.txnHashes 5 = some 2 := by
    rw [same, txnHashes₂]
    simp
  -- block 7203: the store's last block is 7202, so it looks back only to block 3
  have forgotten : firstIncludedLocator Policy.default eventHashOf s [reportedProof] = none := by
    have last := spans.lastBn_eq
    simp [firstIncludedLocator, ValidityStore.hasTransaction, reportedProof, eventHashOf, recorded,
      last]
    decide
  have again : push Policy.default eventHashOf ⟨7202, s⟩ repeatedReport =
      .ok ⟨7203, commitToStore Policy.default s 7203 [5]⟩ :=
    push_microBlock (show Policy.default.isMacroBlockAt 7203 = false by decide)
      (show MicroBody.verify Policy.default ⟨[reportedProof], []⟩ false 7203 = .ok () by decide)
      forgotten rfl
  have opening : push Policy.default eventHashOf ⟨0, ValidityStore.new⟩ (Block.empty Policy.default 1) =
      .ok ⟨1, commitToStore Policy.default ValidityStore.new 1 []⟩ :=
    push_empty ⟨0, ValidityStore.new⟩
  refine ⟨⟨⟨7203, commitToStore Policy.default s 7203 [5]⟩, ?_⟩, by decide, by decide⟩
  rw [List.cons_append, pushChain_cons opening, List.cons_append, pushChain_cons reported,
    pushChain_append middle, pushChain_cons again]
  rfl

end Albatross
