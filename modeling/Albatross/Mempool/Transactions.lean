import Albatross.Account.Interaction
import Albatross.Lib.AssocMap
import Albatross.Policy
import Albatross.Lib.Binary64

/- The containers of mempool/src/mempool_transactions.rs. A `HashMap` and each
   `KeyedPriorityQueue` are lists with distinct keys (Lib/AssocMap); `pop` and `peek`
   take an entry of greatest priority. A transaction is what the mempool reads of it:
   `hash()`, `serialized_size()` and the parse of its staking data and proof are
   fields, and `fee_per_byte()` divides the two as binary64 numbers. A serialized
   transaction is never empty, so the quotient is never infinite or NaN. -/
namespace Albatross.Mempool

inductive TxPriority
  | low
  | medium
  | high
  deriving DecidableEq, Repr

/-- `priority as u8`. -/
def TxPriority.toNat : TxPriority → Nat
  | low => 1
  | medium => 2
  | high => 3

inductive OutgoingStakingTransactionData
  | deleteValidator
  | removeStake
  deriving DecidableEq, Repr

structure Transaction (H A : Type) where
  hash : H
  sender : A
  senderType : AccountType
  recipientType : AccountType
  value : Coin
  fee : Coin
  validityStartHeight : Nat
  serializedSize : Nat
  -- `OutgoingStakingTransactionData::parse` of the data with the signer of the
  -- deserialized proof, or the error either of them returns
  outgoingStaking : Except (AccountError A) (OutgoingStakingTransactionData × A)

namespace Transaction

variable {H A : Type}

/-- `total_value`: saturating, since it may be called before `verify`. -/
def totalValue (tx : Transaction H A) : Coin := tx.value.saturatingAdd tx.fee

/-- `u64::from(self.fee) as f64 / self.serialized_size() as f64`. -/
def feePerByte (tx : Transaction H A) : ℚ :=
  Binary64.div (Binary64.ofNat tx.fee.val) (Binary64.ofNat tx.serializedSize)

/-- `is_valid_at`; the window's end is a wrapping u32 sum. -/
def isValidAt (p : Policy) (tx : Transaction H A) (blockHeight : Nat) : Bool :=
  let window := p.transactionValidityWindowBlocks
  decide (blockHeight ≥ tx.validityStartHeight - p.blocksPerBatch) &&
    decide (blockHeight < (tx.validityStartHeight + window) % u32Bound)

end Transaction

structure BestTxOrder where
  priority : TxPriority
  feePerByte : ℚ
  insertionOrder : Nat

instance : Ord BestTxOrder :=
  ⟨fun a b => ((compare a.priority.toNat b.priority.toNat).then (compare a.feePerByte b.feePerByte)).then
    (compare a.insertionOrder b.insertionOrder).swap⟩

structure WorstTxOrder where
  priority : TxPriority
  feePerByte : ℚ
  insertionOrder : Nat

instance : Ord WorstTxOrder :=
  ⟨fun a b => (compare a.priority.toNat b.priority.toNat).swap.then
    ((compare a.feePerByte b.feePerByte).swap.then (compare a.insertionOrder b.insertionOrder))⟩

structure MempoolTransactions (H A : Type) where
  transactions : List (H × Transaction H A)
  bestTransactions : List (H × BestTxOrder)
  worstTransactions : List (H × WorstTxOrder)
  oldestTransactions : List (H × Reverse Nat)
  totalSizeLimit : Nat
  totalSize : Nat
  txCounter : Nat

namespace MempoolTransactions

variable {H A : Type} [DecidableEq H]

def new (sizeLimit : Nat) : MempoolTransactions H A := ⟨[], [], [], [], sizeLimit, 0, 0⟩

def containsKey (c : MempoolTransactions H A) (hash : H) : Bool := (findKey hash c.transactions).isSome

def get (c : MempoolTransactions H A) (hash : H) : Option (Transaction H A) := findKey hash c.transactions

def insert (c : MempoolTransactions H A) (tx : Transaction H A) (priority : TxPriority) :
    Bool × MempoolTransactions H A :=
  if c.containsKey tx.hash then (false, c)
  else
    (true,
      { transactions := insertKey tx.hash tx c.transactions
        bestTransactions := insertKey tx.hash ⟨priority, tx.feePerByte, c.txCounter⟩ c.bestTransactions
        worstTransactions := insertKey tx.hash ⟨priority, tx.feePerByte, c.txCounter⟩ c.worstTransactions
        oldestTransactions := insertKey tx.hash ⟨tx.validityStartHeight⟩ c.oldestTransactions
        totalSizeLimit := c.totalSizeLimit
        totalSize := c.totalSize + tx.serializedSize
        txCounter := c.txCounter + 1 })

/-- `delete`; the usize `total_size -= ...` cannot go below zero while `total_size`
    is the sum of the sizes (`Consistent`). -/
def delete (c : MempoolTransactions H A) (txHash : H) : Option (Transaction H A × MempoolTransactions H A) :=
  (c.get txHash).map fun tx =>
    (tx,
      { c with
        transactions := eraseKey txHash c.transactions
        bestTransactions := eraseKey txHash c.bestTransactions
        worstTransactions := eraseKey txHash c.worstTransactions
        oldestTransactions := eraseKey txHash c.oldestTransactions
        totalSize := c.totalSize - tx.serializedSize })

/-- The loop of `get_expired_txns`, one round per unit of fuel. Each round that goes on
    takes an entry off `oldest_transactions`, so as many rounds as it has entries
    reach the loop's end; the `unwrap` of a missing transaction is `none`. -/
def collectExpired (p : Policy) (blockNumber : Nat) : Nat → MempoolTransactions H A →
    Option (List H × MempoolTransactions H A)
  | 0, c => some ([], c)
  | fuel + 1, c =>
    match peekMax c.oldestTransactions with
    | none => some ([], c)
    | some (txHash, _) =>
      match c.get txHash with
      | none => none
      | some tx =>
        if tx.isValidAt p blockNumber then some ([], c)
        else
          (collectExpired p blockNumber fuel { c with oldestTransactions := eraseKey txHash c.oldestTransactions }).map
            fun r => (txHash :: r.1, r.2)

def getExpiredTxns (c : MempoolTransactions H A) (p : Policy) (blockNumber : Nat) :
    Option (List H × MempoolTransactions H A) :=
  collectExpired p blockNumber c.oldestTransactions.length c

/-- The bookkeeping of one container: the three indices hold the keys of the map
    (`oldest_transactions` may have lost some to `get_expired_txns`), each transaction
    is kept under its own hash, and `total_size` is the sum of the sizes. -/
structure Consistent (c : MempoolTransactions H A) : Prop where
  distinct : (c.transactions.map Prod.fst).Nodup
  hashes : ∀ h tx, c.get h = some tx → tx.hash = h
  best : ∀ h, (findKey h c.bestTransactions).isSome = (c.get h).isSome
  worst : ∀ h, (findKey h c.worstTransactions).isSome = (c.get h).isSome
  oldest : ∀ h, (findKey h c.oldestTransactions).isSome → (c.get h).isSome
  totalSize : c.totalSize = (c.transactions.map fun e => e.2.serializedSize).sum

theorem new_consistent (sizeLimit : Nat) : (new sizeLimit : MempoolTransactions H A).Consistent :=
  ⟨List.nodup_nil, (fun _ _ found => nomatch found), (fun _ => rfl), (fun _ => rfl), (fun _ => id), rfl⟩

theorem Consistent.worst_ne_nil {c : MempoolTransactions H A} (cons : c.Consistent)
    (overLimit : c.totalSizeLimit < c.totalSize) : c.worstTransactions ≠ [] := by
  obtain ⟨⟨h, tx⟩, member⟩ : ∃ e, e ∈ c.transactions := by
    cases stored : c.transactions with
    | nil =>
      rw [cons.totalSize, stored] at overLimit
      cases overLimit
    | cons e rest => exact ⟨e, List.mem_cons_self⟩
  have indexed : (findKey h c.worstTransactions).isSome := by
    rw [cons.worst h]
    exact findKey_isSome_of_mem member
  intro empty
  rw [empty] at indexed
  cases indexed

section Insert

variable {c : MempoolTransactions H A} {tx : Transaction H A}

theorem insert_of_get_eq_none (absent : c.get tx.hash = none) (priority : TxPriority) :
    c.insert tx priority =
      (true,
        { transactions := insertKey tx.hash tx c.transactions
          bestTransactions := insertKey tx.hash ⟨priority, tx.feePerByte, c.txCounter⟩ c.bestTransactions
          worstTransactions := insertKey tx.hash ⟨priority, tx.feePerByte, c.txCounter⟩ c.worstTransactions
          oldestTransactions := insertKey tx.hash ⟨tx.validityStartHeight⟩ c.oldestTransactions
          totalSizeLimit := c.totalSizeLimit
          totalSize := c.totalSize + tx.serializedSize
          txCounter := c.txCounter + 1 }) := by
  have fresh : c.containsKey tx.hash = false := by
    simpa [containsKey, get] using absent
  simp [insert, fresh]

theorem get_insert (absent : c.get tx.hash = none) (priority : TxPriority) (h : H) :
    (c.insert tx priority).2.get h = if h = tx.hash then some tx else c.get h := by
  rw [insert_of_get_eq_none absent]
  exact findKey_insertKey h tx.hash tx c.transactions

theorem insert_consistent (cons : c.Consistent) (absent : c.get tx.hash = none) (priority : TxPriority) :
    (c.insert tx priority).2.Consistent := by
  have got := get_insert absent priority
  rw [insert_of_get_eq_none absent] at got ⊢
  refine ⟨keys_nodup_insertKey cons.distinct absent, ?_, ?_, ?_, ?_, ?_⟩
  · intro h tx' found
    rw [got] at found
    split at found
    · cases found
      rename_i here
      exact here.symm
    · exact cons.hashes h tx' found
  · intro h
    rw [got, findKey_insertKey]
    split
    · rfl
    · exact cons.best h
  · intro h
    rw [got, findKey_insertKey]
    split
    · rfl
    · exact cons.worst h
  · intro h
    rw [got, findKey_insertKey]
    split
    · exact id
    · exact cons.oldest h
  · show c.totalSize + tx.serializedSize = ((insertKey tx.hash tx c.transactions).map fun e => e.2.serializedSize).sum
    rw [sum_map_insertKey _ absent, cons.totalSize]

theorem sum_insert (absent : c.get tx.hash = none) (priority : TxPriority) (g : H × Transaction H A → Nat) :
    ((c.insert tx priority).2.transactions.map g).sum = (c.transactions.map g).sum + g (tx.hash, tx) := by
  rw [insert_of_get_eq_none absent]
  exact sum_map_insertKey g absent

end Insert

section Delete

variable {c c' : MempoolTransactions H A} {txHash : H} {tx : Transaction H A}

theorem delete_eq_none_iff : c.delete txHash = none ↔ c.get txHash = none := by
  simp [delete]

theorem delete_eq_some (deleted : c.delete txHash = some (tx, c')) :
    c.get txHash = some tx ∧
      c' = { c with
        transactions := eraseKey txHash c.transactions
        bestTransactions := eraseKey txHash c.bestTransactions
        worstTransactions := eraseKey txHash c.worstTransactions
        oldestTransactions := eraseKey txHash c.oldestTransactions
        totalSize := c.totalSize - tx.serializedSize } := by
  simp only [delete, Option.map_eq_some_iff, Prod.mk.injEq] at deleted
  obtain ⟨found, got, rfl, rfl⟩ := deleted
  exact ⟨got, rfl⟩

theorem get_delete (deleted : c.delete txHash = some (tx, c')) (h : H) :
    c'.get h = if h = txHash then none else c.get h := by
  obtain ⟨-, rfl⟩ := delete_eq_some deleted
  exact findKey_eraseKey h txHash c.transactions

theorem delete_consistent (cons : c.Consistent) (deleted : c.delete txHash = some (tx, c')) : c'.Consistent := by
  have got := get_delete deleted
  obtain ⟨found, rfl⟩ := delete_eq_some deleted
  refine ⟨cons.distinct.sublist (keys_eraseKey_sublist txHash c.transactions), ?_, ?_, ?_, ?_, ?_⟩
  · intro h tx' found'
    rw [got] at found'
    split at found'
    · cases found'
    · exact cons.hashes h tx' found'
  · intro h
    rw [got, findKey_eraseKey]
    split
    · rfl
    · exact cons.best h
  · intro h
    rw [got, findKey_eraseKey]
    split
    · rfl
    · exact cons.worst h
  · intro h
    rw [got, findKey_eraseKey]
    split
    · exact id
    · exact cons.oldest h
  · -- the deleted size is part of the sum, so the subtraction is exact
    have sum := sum_map_eraseKey (fun e : H × Transaction H A => e.2.serializedSize) cons.distinct found
    dsimp only at sum
    show c.totalSize - tx.serializedSize = ((eraseKey txHash c.transactions).map fun e => e.2.serializedSize).sum
    rw [cons.totalSize]
    omega

theorem sum_delete (cons : c.Consistent) (deleted : c.delete txHash = some (tx, c'))
    (g : H × Transaction H A → Nat) :
    (c'.transactions.map g).sum + g (txHash, tx) = (c.transactions.map g).sum := by
  obtain ⟨found, rfl⟩ := delete_eq_some deleted
  exact sum_map_eraseKey g cons.distinct found

theorem delete_worst_sublist (deleted : c.delete txHash = some (tx, c')) :
    c'.worstTransactions.Sublist c.worstTransactions := by
  obtain ⟨-, rfl⟩ := delete_eq_some deleted
  exact eraseKey_sublist txHash c.worstTransactions

end Delete

section Expired

variable (p : Policy) (blockNumber : Nat)

/-- The expiry loop only takes entries off `oldest_transactions`, and it finds every
    transaction it looks up while the container is consistent. -/
theorem collectExpired_spec (fuel : Nat) {c : MempoolTransactions H A} (cons : c.Consistent) :
    ∃ expired q, collectExpired p blockNumber fuel c = some (expired, { c with oldestTransactions := q }) ∧
      ∀ h, (findKey h q).isSome → (findKey h c.oldestTransactions).isSome := by
  induction fuel generalizing c with
  | zero => exact ⟨[], c.oldestTransactions, rfl, fun _ => id⟩
  | succ fuel ih =>
    cases peeked : peekMax c.oldestTransactions with
    | none => exact ⟨[], c.oldestTransactions, by simp [collectExpired, peeked], fun _ => id⟩
    | some entry =>
      obtain ⟨txHash, priority⟩ := entry
      -- the peeked hash is an index entry, so `unwrap` finds its transaction
      obtain ⟨tx, found⟩ := Option.isSome_iff_exists.mp
        (cons.oldest txHash (findKey_isSome_of_mem (peekMax_mem peeked)))
      by_cases valid : tx.isValidAt p blockNumber = true
      · exact ⟨[], c.oldestTransactions, by simp [collectExpired, peeked, found, valid], fun _ => id⟩
      · let c₁ := { c with oldestTransactions := eraseKey txHash c.oldestTransactions }
        have shrunk : ∀ h, (findKey h c₁.oldestTransactions).isSome → (findKey h c.oldestTransactions).isSome := by
          intro h kept
          simp only [c₁, findKey_eraseKey] at kept
          split at kept
          · cases kept
          · exact kept
        have cons₁ : c₁.Consistent :=
          ⟨cons.distinct, cons.hashes, cons.best, cons.worst, fun h kept => cons.oldest h (shrunk h kept), cons.totalSize⟩
        obtain ⟨expired, q, run, sub⟩ := ih cons₁
        refine ⟨txHash :: expired, q, ?_, fun h kept => shrunk h (sub h kept)⟩
        simp [collectExpired, peeked, found, valid, c₁, run]

/-- Fuel beyond the entries of `oldest_transactions` changes nothing: the loop has
    ended by then, as the source's loop does. -/
theorem collectExpired_succ (fuel : Nat) {c : MempoolTransactions H A}
    (bound : c.oldestTransactions.length ≤ fuel) :
    collectExpired p blockNumber (fuel + 1) c = collectExpired p blockNumber fuel c := by
  induction fuel generalizing c with
  | zero =>
    have empty : c.oldestTransactions = [] := List.eq_nil_of_length_eq_zero (by omega)
    simp [collectExpired, empty, peekMax]
  | succ fuel ih =>
    cases peeked : peekMax c.oldestTransactions with
    | none => simp [collectExpired, peeked]
    | some entry =>
      obtain ⟨txHash, priority⟩ := entry
      obtain ⟨v, found⟩ := Option.isSome_iff_exists.mp (findKey_isSome_of_mem (peekMax_mem peeked))
      have shorter : (eraseKey txHash c.oldestTransactions).length ≤ fuel := by
        have := length_eraseKey_lt found
        omega
      conv_lhs => rw [collectExpired.eq_2]
      conv_rhs => rw [collectExpired.eq_2]
      simp only [peeked]
      cases c.get txHash with
      | none => rfl
      | some tx =>
        simp only
        split
        · rfl
        · rw [ih shorter]

theorem getExpiredTxns_spec {c : MempoolTransactions H A} (cons : c.Consistent) :
    ∃ expired c', c.getExpiredTxns p blockNumber = some (expired, c') ∧ c'.Consistent ∧
      c'.transactions = c.transactions ∧ c'.worstTransactions = c.worstTransactions := by
  obtain ⟨expired, q, run, sub⟩ := collectExpired_spec p blockNumber c.oldestTransactions.length cons
  exact ⟨expired, _, run,
    ⟨cons.distinct, cons.hashes, cons.best, cons.worst, fun h kept => cons.oldest h (sub h kept), cons.totalSize⟩,
    rfl, rfl⟩

end Expired

end MempoolTransactions

end Albatross.Mempool
