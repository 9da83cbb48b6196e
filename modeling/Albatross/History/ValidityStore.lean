import Albatross.Policy

/- The validity store (blockchain/src/history/validity_store.rs). `txn_hashes`
   maps a transaction hash to the last block that added it; `block_txns` is the
   duplicate table from block numbers to hashes, whose least and greatest keys
   are the store's first and last block. `has_transaction` looks back
   `transaction_validity_window_blocks` from the last block; pruning keeps
   that many blocks plus one batch. -/
namespace Albatross

structure ValidityStore (H : Type) where
  txnHashes : H → Option Nat
  blockTxns : List (Nat × H)

namespace ValidityStore

variable {H : Type} (p : Policy)

def new : ValidityStore H := ⟨fun _ => none, []⟩

/-- `first_bn`: the least key of `block_txns`, 0 for an empty table. -/
def firstBn (s : ValidityStore H) : Nat := ((s.blockTxns.map Prod.fst).min?).getD 0

/-- `last_bn`: the greatest key of `block_txns`, 0 for an empty table. -/
def lastBn (s : ValidityStore H) : Nat := ((s.blockTxns.map Prod.fst).max?).getD 0

def hasTransaction (s : ValidityStore H) (rawTxHash : H) : Bool :=
  let validityWindowStart := s.lastBn - p.transactionValidityWindowBlocks
  match s.txnHashes rawTxHash with
  | some blockNumber => decide (blockNumber > validityWindowStart)
  | none => false

/-- A put into a duplicate table stores each key-value pair once. -/
def putDup [DecidableEq H] (table : List (Nat × H)) (key : Nat) (value : H) : List (Nat × H) :=
  if (key, value) ∈ table then table else table ++ [(key, value)]

def addTransaction [DecidableEq H] (s : ValidityStore H) (blockNumber : Nat) (transactionHash : H) :
    ValidityStore H :=
  ⟨Function.update s.txnHashes transactionHash (some blockNumber),
    putDup s.blockTxns blockNumber transactionHash⟩

def deleteBlockTransactions [DecidableEq H] (s : ValidityStore H) (blockNumber : Nat) : ValidityStore H :=
  if s.firstBn = s.lastBn then s
  else
    let blockTxns := (s.blockTxns.filter fun e => e.1 = blockNumber).map Prod.snd
    ⟨blockTxns.foldl (fun m txnHash => Function.update m txnHash none) s.txnHashes,
      s.blockTxns.filter fun e => e.1 ≠ blockNumber⟩

/-- `prune_validity_store`. Its assert `first_bn <= last_bn` always holds
    (`firstBn_le_lastBn`). -/
def pruneValidityStore [DecidableEq H] (s : ValidityStore H) : ValidityStore H :=
  let firstBn := s.firstBn
  let lastBn := s.lastBn
  let numBlocks := lastBn - firstBn + 1
  let numBlocksToKeep := p.transactionValidityWindowBlocks + p.blocksPerBatch
  if numBlocks > numBlocksToKeep then
    (List.range' firstBn (numBlocks - numBlocksToKeep)).foldl deleteBlockTransactions s
  else s

/-- `update_validity_store`: an empty block is recorded under the default hash. -/
def updateValidityStore [DecidableEq H] [Inhabited H] (s : ValidityStore H) (latestBn : Nat) : ValidityStore H :=
  let s := if latestBn > s.lastBn then ⟨s.txnHashes, putDup s.blockTxns latestBn default⟩ else s
  pruneValidityStore p s

theorem firstBn_le_lastBn (s : ValidityStore H) : s.firstBn ≤ s.lastBn := by
  unfold firstBn lastBn
  cases keys : s.blockTxns.map Prod.fst with
  | nil => simp
  | cons k rest =>
    have mem : k ∈ s.blockTxns.map Prod.fst := by rw [keys]; exact List.mem_cons_self
    rw [← keys]
    exact Nat.le_trans (List.min?_getD_le_of_mem mem) (List.le_max?_getD_of_mem mem)

theorem hasTransaction_iff (s : ValidityStore H) (rawTxHash : H) :
    s.hasTransaction p rawTxHash = true ↔
      ∃ blockNumber, s.txnHashes rawTxHash = some blockNumber ∧
        s.lastBn - p.transactionValidityWindowBlocks < blockNumber := by
  unfold hasTransaction
  cases s.txnHashes rawTxHash <;> simp

theorem mem_putDup [DecidableEq H] {table : List (Nat × H)} {key : Nat} {value : H} {e : Nat × H} :
    e ∈ putDup table key value ↔ e ∈ table ∨ e = (key, value) := by
  unfold putDup
  split
  · rename_i present
    constructor
    · exact Or.inl
    · rintro (mem | rfl)
      · exact mem
      · exact present
  · simp

/-- The keys of the store run from `first` to `last`, both present. -/
structure Spans (s : ValidityStore H) (first last : Nat) : Prop where
  bounded : ∀ e ∈ s.blockTxns, first ≤ e.1 ∧ e.1 ≤ last
  first_mem : ∃ e ∈ s.blockTxns, e.1 = first
  last_mem : ∃ e ∈ s.blockTxns, e.1 = last

section Spans

variable {s : ValidityStore H} {first last : Nat}

theorem Spans.firstBn_eq (spans : Spans s first last) : s.firstBn = first := by
  obtain ⟨e, mem, key⟩ := spans.first_mem
  have least : (s.blockTxns.map Prod.fst).min? = some first := by
    rw [List.min?_eq_some_iff]
    refine ⟨List.mem_map.mpr ⟨e, mem, key⟩, ?_⟩
    intro k inKeys
    obtain ⟨e', mem', rfl⟩ := List.mem_map.mp inKeys
    exact (spans.bounded e' mem').1
  simp [firstBn, least]

theorem Spans.lastBn_eq (spans : Spans s first last) : s.lastBn = last := by
  obtain ⟨e, mem, key⟩ := spans.last_mem
  have greatest : (s.blockTxns.map Prod.fst).max? = some last := by
    rw [List.max?_eq_some_iff]
    refine ⟨List.mem_map.mpr ⟨e, mem, key⟩, ?_⟩
    intro k inKeys
    obtain ⟨e', mem', rfl⟩ := List.mem_map.mp inKeys
    exact (spans.bounded e' mem').2
  simp [lastBn, greatest]

theorem Spans.putDup [DecidableEq H] (spans : Spans s first last) {bn : Nat} (after : last ≤ bn)
    (txnHashes : H → Option Nat) (value : H) :
    Spans ⟨txnHashes, ValidityStore.putDup s.blockTxns bn value⟩ first bn := by
  obtain ⟨e, mem, key⟩ := spans.first_mem
  refine ⟨?_, ⟨e, mem_putDup.mpr (Or.inl mem), key⟩, ⟨(bn, value), mem_putDup.mpr (Or.inr rfl), rfl⟩⟩
  intro e' mem'
  have firstLe := spans.bounded e mem
  rcases mem_putDup.mp mem' with old | rfl
  · have := spans.bounded e' old; omega
  · simp only; omega

theorem pruneValidityStore_of_fits [DecidableEq H] (spans : Spans s first last)
    (fits : last - first + 1 ≤ p.transactionValidityWindowBlocks + p.blocksPerBatch) :
    s.pruneValidityStore p = s := by
  unfold pruneValidityStore
  rw [spans.firstBn_eq, spans.lastBn_eq, if_neg (by omega)]

theorem Spans.addTransaction [DecidableEq H] (spans : Spans s first last) {bn : Nat}
    (after : last ≤ bn) (txnHash : H) : Spans (s.addTransaction bn txnHash) first bn :=
  spans.putDup after _ txnHash

/-- Recording block `bn` after the last one, in a store that keeps it whole,
    leaves the hashes as they are and makes `bn` the last block. -/
theorem Spans.updateValidityStore [DecidableEq H] [Inhabited H] (spans : Spans s first last)
    {bn : Nat} (after : last ≤ bn)
    (fits : bn - first + 1 ≤ p.transactionValidityWindowBlocks + p.blocksPerBatch) :
    (s.updateValidityStore p bn).txnHashes = s.txnHashes ∧
      Spans (s.updateValidityStore p bn) first bn := by
  unfold ValidityStore.updateValidityStore
  rw [spans.lastBn_eq]
  by_cases later : bn > last
  · have recorded := spans.putDup after s.txnHashes default
    rw [if_pos later, pruneValidityStore_of_fits p recorded fits]
    exact ⟨rfl, recorded⟩
  · obtain rfl : bn = last := by omega
    rw [if_neg later, pruneValidityStore_of_fits p spans fits]
    exact ⟨rfl, spans⟩

end Spans

theorem foldl_addTransaction_txnHashes [DecidableEq H] (bn : Nat) (hashes : List H) :
    ∀ s : ValidityStore H, (hashes.foldl (fun s h => s.addTransaction bn h) s).txnHashes =
      hashes.foldl (fun m h => Function.update m h (some bn)) s.txnHashes := by
  induction hashes with
  | nil => intro s; rfl
  | cons h rest ih => intro s; exact ih _

/-- After the updates of `add_transaction`, a hash holds the block number exactly
    when it was among the hashes added. -/
theorem foldl_update_apply [DecidableEq H] {V : Type} (v : V) (h : H) (hashes : List H) :
    ∀ m : H → V, hashes.foldl (fun m h => Function.update m h v) m h = if h ∈ hashes then v else m h := by
  induction hashes with
  | nil => intro m; simp
  | cons x rest ih =>
    intro m
    rw [List.foldl_cons, ih]
    by_cases later : h ∈ rest
    · simp [later]
    · by_cases same : h = x
      · subst same
        simp
      · simp [later, same]

theorem Spans.foldl_addTransaction [DecidableEq H] {s : ValidityStore H} {first last bn : Nat}
    (hashes : List H) (spans : Spans s first last) (after : last ≤ bn) :
    ∃ last', last ≤ last' ∧ last' ≤ bn ∧
      Spans (hashes.foldl (fun s h => s.addTransaction bn h) s) first last' := by
  induction hashes generalizing s last with
  | nil => exact ⟨last, le_rfl, after, spans⟩
  | cons h rest ih =>
    obtain ⟨last', grown, below, rest'⟩ := ih (spans.addTransaction after h) le_rfl
    exact ⟨last', by omega, below, rest'⟩

end ValidityStore

end Albatross
