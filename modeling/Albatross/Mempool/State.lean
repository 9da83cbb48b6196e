import Albatross.Mempool.Transactions

/- The mempool's state (mempool/src/mempool_state.rs) with the account side of
   `Blockchain::reserve_balance` and `release_balance` (primitives/account/src:
   accounts.rs, the account types' `reserve_balance` and `release_balance`). An
   account's own checks are functions of the transaction and the block state; the
   blockchain holds the staking contract at its address and nowhere else. A `HashSet`
   of hashes is a list without duplicates, iterated in list order. -/
namespace Albatross.Mempool

/-- An account as `reserve_balance` and `release_balance` read it. A vesting
    contract's or an HTLC's `can_change_balance`, and the staking contract's lookups and
    checks of the signer (`expect_validator` and `can_delete_validator`, or
    `expect_staker`, `can_remove_stake` and `enforce_min_stake`) with the deposit or
    retired balance they leave to draw on, are given as functions; `none` is a panic
    inside them. -/
inductive Account (H A : Type) where
  | basic (balance : Coin)
  | vesting (balance : Coin)
      (canChangeBalance : Transaction H A → Coin → BlockState → Option (Except (AccountError A) Unit))
  | htlc (balance : Coin)
      (canChangeBalance : Transaction H A → Coin → BlockState → Option (Except (AccountError A) Unit))
  | staking
      (reservable : OutgoingStakingTransactionData → A → Transaction H A → BlockState →
        Option (Except (AccountError A) Coin))

namespace Account

variable {H A : Type}

def accountType : Account H A → AccountType
  | basic _ => .basic
  | vesting _ _ => .vesting
  | htlc _ _ => .htlc
  | staking _ => .staking

end Account

/-- A state of the blockchain as the mempool reads it. -/
structure Blockchain (H A : Type) (stakingContract : A) where
  getAccountIfComplete : A → Option (Account H A)
  blockState : BlockState
  -- the staking contract is created at `STAKING_CONTRACT_ADDRESS` and no transaction
  -- creates another one
  staking_iff : ∀ address account, getAccountIfComplete address = some account →
    (account.accountType = .staking ↔ address = stakingContract)

namespace Transaction

variable {H A : Type}

/-- The address `reserve_balance` reserves a transaction's total value on: the
    signer of an outgoing staking transaction, the sender otherwise. -/
def reservationAddress (tx : Transaction H A) : A :=
  match tx.senderType, tx.outgoingStaking with
  | .staking, .ok (_, signer) => signer
  | _, _ => tx.sender

/-- What a pending transaction keeps reserved for `sender` on `address`. -/
def reservedOn [DecidableEq A] (tx : Transaction H A) (sender address : A) : Nat :=
  if tx.sender = sender ∧ tx.reservationAddress = address then tx.totalValue.val else 0

/-- What the acceptance of a transaction by `reserve_balance` tells of it: a staking
    sender is the staking contract, and its data and proof parse. -/
structure Accepted (stakingContract : A) (tx : Transaction H A) : Prop where
  staking_iff : tx.senderType = .staking ↔ tx.sender = stakingContract
  parsed : tx.senderType = .staking → ∃ data signer, tx.outgoingStaking = .ok (data, signer)

theorem reservationAddress_of_ne {tx : Transaction H A} (other : tx.senderType ≠ .staking) :
    tx.reservationAddress = tx.sender := by
  cases kind : tx.senderType with
  | staking => exact absurd kind other
  | basic => simp [reservationAddress, kind]
  | vesting => simp [reservationAddress, kind]
  | htlc => simp [reservationAddress, kind]

theorem reservationAddress_of_staking {tx : Transaction H A} {data : OutgoingStakingTransactionData} {signer : A}
    (staking : tx.senderType = .staking) (parsed : tx.outgoingStaking = .ok (data, signer)) :
    tx.reservationAddress = signer := by
  simp [reservationAddress, staking, parsed]

end Transaction

section Balances

variable {H A : Type} [DecidableEq A]

/-- The `reserve_balance` of a vesting contract and of an HTLC, which are the same. -/
def reserveContractBalance (balance : Coin)
    (canChangeBalance : Transaction H A → Coin → BlockState → Option (Except (AccountError A) Unit))
    (tx : Transaction H A) (reservedBalance : ReservedBalance A) (blockState : BlockState) :
    Option (Except (AccountError A) (ReservedBalance A)) :=
  match reservedBalance.balance.checkedAdd tx.totalValue with
  | none => some (.error .invalidCoinValue)
  | some needed =>
    match balance.safeSub needed with
    | .error e => some (.error (.ofUnderflow e))
    | .ok newBalance =>
      (canChangeBalance tx newBalance blockState).map
        (Except.bind · fun _ => reservedBalance.reserve balance tx.totalValue)

/-- `Accounts::reserve_balance`: the type check, then the account's own. -/
def reserveBalance (blockState : BlockState) (account : Account H A) (tx : Transaction H A)
    (reservedBalance : ReservedBalance A) : Option (Except (AccountError A) (ReservedBalance A)) :=
  if account.accountType ≠ tx.senderType then
    some (.error (.typeMismatch tx.senderType account.accountType))
  else
    match account with
    | .basic balance => some (reservedBalance.reserve balance tx.totalValue)
    | .vesting balance canChangeBalance => reserveContractBalance balance canChangeBalance tx reservedBalance blockState
    | .htlc balance canChangeBalance => reserveContractBalance balance canChangeBalance tx reservedBalance blockState
    | .staking reservable =>
      match tx.outgoingStaking with
      | .error e => some (.error e)
      | .ok (data, signer) =>
        (reservable data signer tx blockState).map
          (Except.bind · fun available => reservedBalance.reserveFor signer available tx.totalValue)

/-- `Accounts::release_balance`, which dispatches on the account it is given with no
    type check; `release_for` panics when it would go below zero. -/
def releaseBalance (account : Account H A) (tx : Transaction H A) (reservedBalance : ReservedBalance A) :
    Option (Except (AccountError A) (ReservedBalance A)) :=
  match account with
  | .staking _ =>
    match tx.outgoingStaking with
    | .error e => some (.error e)
    | .ok (_, signer) => (reservedBalance.releaseFor signer tx.totalValue).map .ok
  | _ => (reservedBalance.release tx.totalValue).map .ok

theorem reserveContractBalance_ok {balance : Coin}
    {canChangeBalance : Transaction H A → Coin → BlockState → Option (Except (AccountError A) Unit)}
    {tx : Transaction H A} {reservedBalance reservedBalance' : ReservedBalance A} {blockState : BlockState}
    (reserved : reserveContractBalance balance canChangeBalance tx reservedBalance blockState = some (.ok reservedBalance')) :
    reservedBalance.reserve balance tx.totalValue = .ok reservedBalance' := by
  unfold reserveContractBalance at reserved
  split at reserved
  · cases reserved
  · split at reserved
    · cases reserved
    · obtain ⟨checked, -, bound⟩ := Option.map_eq_some_iff.mp reserved
      cases checked with
      | error e => cases bound
      | ok u => exact bound

/-- A successful reservation passed the type check, parsed a staking transaction, and
    added its total value at its reservation address. -/
theorem reserveBalance_ok {blockState : BlockState} {account : Account H A} {tx : Transaction H A}
    {reservedBalance reservedBalance' : ReservedBalance A} (owner : reservedBalance.address = tx.sender)
    (reserved : reserveBalance blockState account tx reservedBalance = some (.ok reservedBalance')) :
    account.accountType = tx.senderType ∧
      (tx.senderType = .staking → ∃ data signer, tx.outgoingStaking = .ok (data, signer)) ∧
      reservedBalance'.address = reservedBalance.address ∧
      ∀ a, (reservedBalance'.balanceFor a).val = (reservedBalance.balanceFor a).val + tx.reservedOn tx.sender a := by
  unfold reserveBalance at reserved
  split at reserved
  · cases reserved
  rename_i sameType
  have typed : account.accountType = tx.senderType := not_not.mp sameType
  -- a reservation on the owner's own address counts the transaction there
  have onSender : ∀ {available : Coin}, reservedBalance.reserve available tx.totalValue = .ok reservedBalance' →
      tx.senderType ≠ .staking → reservedBalance'.address = reservedBalance.address ∧
        ∀ a, (reservedBalance'.balanceFor a).val = (reservedBalance.balanceFor a).val + tx.reservedOn tx.sender a := by
    intro available ok other
    obtain ⟨same, balances⟩ := ReservedBalance.reserveFor_balances ok
    refine ⟨same, fun a => ?_⟩
    rw [balances a, owner]
    simp [Transaction.reservedOn, Transaction.reservationAddress_of_ne other, eq_comm]
  cases account with
  | basic balance =>
    have other : tx.senderType ≠ .staking := by rw [← typed]; simp [Account.accountType]
    simp only at reserved
    exact ⟨typed, fun staking => absurd staking other, onSender (Option.some.inj reserved) other⟩
  | vesting balance canChangeBalance =>
    have other : tx.senderType ≠ .staking := by rw [← typed]; simp [Account.accountType]
    exact ⟨typed, fun staking => absurd staking other, onSender (reserveContractBalance_ok reserved) other⟩
  | htlc balance canChangeBalance =>
    have other : tx.senderType ≠ .staking := by rw [← typed]; simp [Account.accountType]
    exact ⟨typed, fun staking => absurd staking other, onSender (reserveContractBalance_ok reserved) other⟩
  | staking reservable =>
    have staking : tx.senderType = .staking := typed.symm
    simp only at reserved
    split at reserved
    · cases reserved
    rename_i data signer parsed
    obtain ⟨checked, -, bound⟩ := Option.map_eq_some_iff.mp reserved
    cases checked with
    | error e => cases bound
    | ok available =>
      obtain ⟨same, balances⟩ := ReservedBalance.reserveFor_balances bound
      refine ⟨typed, fun _ => ⟨data, signer, parsed⟩, same, fun a => ?_⟩
      rw [balances a]
      simp [Transaction.reservedOn, Transaction.reservationAddress_of_staking staking parsed, eq_comm]

/-- A release by an account of the transaction's own type, of an accepted transaction
    whose value is still reserved, does not panic and takes the value off again. -/
theorem releaseBalance_of_le {account : Account H A} {tx : Transaction H A} {reservedBalance : ReservedBalance A}
    (sameKind : account.accountType = .staking ↔ tx.senderType = .staking)
    (parsed : tx.senderType = .staking → ∃ data signer, tx.outgoingStaking = .ok (data, signer))
    (owner : reservedBalance.address = tx.sender)
    (enough : tx.totalValue.val ≤ (reservedBalance.balanceFor tx.reservationAddress).val) :
    ∃ reservedBalance', releaseBalance account tx reservedBalance = some (.ok reservedBalance') ∧
      reservedBalance'.address = reservedBalance.address ∧
      ∀ a, (reservedBalance'.balanceFor a).val + tx.reservedOn tx.sender a = (reservedBalance.balanceFor a).val := by
  -- the release of the owner's own address, for every account type but staking
  have onSender : tx.senderType ≠ .staking → ∃ reservedBalance', (reservedBalance.release tx.totalValue).map .ok =
      some (Except.ok (ε := AccountError A) reservedBalance') ∧ reservedBalance'.address = reservedBalance.address ∧
      ∀ a, (reservedBalance'.balanceFor a).val + tx.reservedOn tx.sender a = (reservedBalance.balanceFor a).val := by
    intro other
    rw [Transaction.reservationAddress_of_ne other, ← owner] at enough
    obtain ⟨released, ok, same, balances⟩ := ReservedBalance.releaseFor_of_le enough
    refine ⟨released, by simp [ReservedBalance.release, ok], same, fun a => ?_⟩
    rw [← balances a, owner]
    simp [Transaction.reservedOn, Transaction.reservationAddress_of_ne other, eq_comm]
  cases account with
  | staking reservable =>
    have staking : tx.senderType = .staking := sameKind.mp rfl
    obtain ⟨data, signer, parsedAs⟩ := parsed staking
    rw [Transaction.reservationAddress_of_staking staking parsedAs] at enough
    obtain ⟨released, ok, same, balances⟩ := ReservedBalance.releaseFor_of_le enough
    refine ⟨released, by simp [releaseBalance, parsedAs, ok], same, fun a => ?_⟩
    rw [← balances a]
    simp [Transaction.reservedOn, Transaction.reservationAddress_of_staking staking parsedAs, eq_comm]
  | basic balance => exact onSender (fun staking => by simpa [Account.accountType] using sameKind.mpr staking)
  | vesting balance canChangeBalance =>
    exact onSender (fun staking => by simpa [Account.accountType] using sameKind.mpr staking)
  | htlc balance canChangeBalance =>
    exact onSender (fun staking => by simpa [Account.accountType] using sameKind.mpr staking)

end Balances

inductive VerifyErr (A : Type)
  | invalidTransaction (e : TransactionError)
  | alreadyIncluded
  | invalidBlockNumber
  | invalidAccount (e : AccountError A)
  | known
  | filtered
  | noConsensus

structure SenderPendingState (H A : Type) where
  reservedBalance : ReservedBalance A
  txns : List H

structure MempoolState (H A : Type) where
  regularTransactions : MempoolTransactions H A
  controlTransactions : MempoolTransactions H A
  stateBySender : List (A × SenderPendingState H A)

/-- The two containers, which `put` treats alike. -/
inductive Container
  | regular
  | control
  deriving DecidableEq, Repr

namespace MempoolState

variable {H A : Type} [DecidableEq H] [DecidableEq A]

def new (regularTxnsLimit controlTxnsLimit : Nat) : MempoolState H A :=
  ⟨.new regularTxnsLimit, .new controlTxnsLimit, []⟩

def contains (st : MempoolState H A) (hash : H) : Bool :=
  st.regularTransactions.containsKey hash || st.controlTransactions.containsKey hash

def get (st : MempoolState H A) (hash : H) : Option (Transaction H A) :=
  match st.regularTransactions.get hash with
  | some tx => some tx
  | none => st.controlTransactions.get hash

def container (st : MempoolState H A) : Container → MempoolTransactions H A
  | .regular => st.regularTransactions
  | .control => st.controlTransactions

def setContainer (st : MempoolState H A) : Container → MempoolTransactions H A → MempoolState H A
  | .regular, c => { st with regularTransactions := c }
  | .control, c => { st with controlTransactions := c }

/-- Staking transactions, by sender or recipient, are control transactions. -/
def containerFor (tx : Transaction H A) : Container :=
  if tx.senderType = .staking ∨ tx.recipientType = .staking then .control else .regular

/-- `regular_transactions.delete(hash).or_else(|| control_transactions.delete(hash))`. -/
def deleteTx (st : MempoolState H A) (txHash : H) : Option (Transaction H A × MempoolState H A) :=
  match st.regularTransactions.delete txHash with
  | some (tx, regular) => some (tx, { st with regularTransactions := regular })
  | none =>
    (st.controlTransactions.delete txHash).map fun deleted =>
      (deleted.1, { st with controlTransactions := deleted.2 })

/-- The loop of `remove` over a sender's hashes, whose deletions are not looked at. -/
def discardAll (st : MempoolState H A) (hashes : List H) : MempoolState H A :=
  hashes.foldl (fun st hash => match st.deleteTx hash with
    | some (_, st') => st'
    | none => st) st

variable {stakingContract : A}

def remove (blockchain : Blockchain H A stakingContract) (st : MempoolState H A) (txHash : H) :
    Option (Option (Transaction H A) × MempoolState H A) :=
  match st.deleteTx txHash with
  | none => some (none, st)
  | some (tx, st) =>
    match findKey tx.sender st.stateBySender with
    | none => some (some tx, st)
    | some senderState =>
      match blockchain.getAccountIfComplete tx.sender with
      | none =>
        -- the sender's balance cannot be tracked: all its transactions go
        let st := st.discardAll senderState.txns
        some (some tx, { st with stateBySender := eraseKey tx.sender st.stateBySender })
      | some senderAccount =>
        if txHash ∉ senderState.txns then some (some tx, st)
        else
          match releaseBalance senderAccount tx senderState.reservedBalance with
          | some (.ok reservedBalance) =>
            let txns := senderState.txns.erase txHash
            if txns.isEmpty then some (some tx, { st with stateBySender := eraseKey tx.sender st.stateBySender })
            else
              some (some tx, { st with stateBySender := insertKey tx.sender ⟨reservedBalance, txns⟩ st.stateBySender })
          -- `expect("Failed to release balance")`, or the panic of `release_for`
          | _ => none

/-- One of the two `while` loops that end `put`: while the container is over its
    limit, its worst transaction is popped and removed. Each round pops an entry off
    `worst_transactions`, which `remove` only shrinks, so as many rounds as it has
    entries reach the loop's end, where the queue is empty; the `unwrap` of an empty
    queue is `none`. -/
def evictLoop (blockchain : Blockchain H A stakingContract) (which : Container) :
    Nat → MempoolState H A → Option (MempoolState H A)
  | 0, st =>
    let c := st.container which
    if c.totalSizeLimit < c.totalSize then none else some st
  | fuel + 1, st =>
    let c := st.container which
    if c.totalSizeLimit < c.totalSize then
      match popMax c.worstTransactions with
      | some ((txHash, _), worst) =>
        (remove blockchain (st.setContainer which { c with worstTransactions := worst }) txHash).bind
          fun removed => evictLoop blockchain which fuel removed.2
      | none => none
    else some st

def evictWhileFull (blockchain : Blockchain H A stakingContract) (which : Container) (st : MempoolState H A) :
    Option (MempoolState H A) :=
  evictLoop blockchain which (st.container which).worstTransactions.length st

/-- `put`; a panic inside the sender account's own checks is `none`. -/
def put (blockchain : Blockchain H A stakingContract) (st : MempoolState H A) (tx : Transaction H A)
    (priority : TxPriority) : Option (Except (VerifyErr A) Unit × MempoolState H A) :=
  if st.contains tx.hash then some (.error .known, st)
  else
    match blockchain.getAccountIfComplete tx.sender with
    | none => some (.error .noConsensus, st)
    | some senderAccount =>
      let senderState := findKey tx.sender st.stateBySender
      let reservedBalance := match senderState with
        | some senderState => senderState.reservedBalance
        | none => ReservedBalance.new tx.sender
      match reserveBalance blockchain.blockState senderAccount tx reservedBalance with
      | none => none
      | some (.error e) => some (.error (.invalidAccount e), st)
      | some (.ok reservedBalance) =>
        let txns := match senderState with
          | some senderState => senderState.txns.insert tx.hash
          | none => [tx.hash]
        let st := { st with stateBySender := insertKey tx.sender ⟨reservedBalance, txns⟩ st.stateBySender }
        let st := st.setContainer (containerFor tx) ((st.container (containerFor tx)).insert tx priority).2
        (st.evictWhileFull blockchain .regular).bind fun st =>
          (st.evictWhileFull blockchain .control).map fun st => (.ok (), st)

def getExpiredTxns (st : MempoolState H A) (p : Policy) (blockNumber : Nat) :
    Option (List H × MempoolState H A) :=
  (st.controlTransactions.getExpiredTxns p blockNumber).bind fun control =>
    (st.regularTransactions.getExpiredTxns p blockNumber).map fun regular =>
      (control.1 ++ regular.1, { st with controlTransactions := control.2, regularTransactions := regular.2 })

inductive MempoolCall (H A : Type)
  | put (tx : Transaction H A) (priority : TxPriority)
  | remove (txHash : H)
  | getExpiredTxns (blockNumber : Nat)

/-- A call on the state under some state of the blockchain; what it returns is not
    looked at. -/
def call (p : Policy) (blockchain : Blockchain H A stakingContract) (st : MempoolState H A) :
    MempoolCall H A → Option (MempoolState H A)
  | .put tx priority => (st.put blockchain tx priority).map Prod.snd
  | .remove txHash => (st.remove blockchain txHash).map Prod.snd
  | .getExpiredTxns blockNumber => (st.getExpiredTxns p blockNumber).map Prod.snd

end MempoolState

end Albatross.Mempool
