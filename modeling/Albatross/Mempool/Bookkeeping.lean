import Albatross.Mempool.State

/- The bookkeeping that `MempoolState::put` and `remove` keep in step: the indices
   and the size counter of each container, the hash set of each sender, and each
   sender's reserved balances, which `release_balance` takes off again and whose
   `release_for` panics should they fall short. Each call is shown to keep it, and
   from that every state reached by a sequence of calls has it. -/
namespace Albatross.Mempool

namespace Transaction

variable {H A : Type} [DecidableEq A]

theorem reservedOn_of_ne {tx : Transaction H A} {sender : A} (other : tx.sender ≠ sender) (address : A) :
    tx.reservedOn sender address = 0 := by
  simp [reservedOn, other]

theorem reservedOn_self (tx : Transaction H A) : tx.reservedOn tx.sender tx.reservationAddress = tx.totalValue.val := by
  simp [reservedOn]

end Transaction

namespace MempoolState

variable {H A : Type} [DecidableEq H] [DecidableEq A]

/-- A transaction of `sender` is pending under `h`. -/
def PendingFrom (st : MempoolState H A) (sender : A) (h : H) : Prop :=
  ∃ tx, st.get h = some tx ∧ tx.sender = sender

/-- The sum of `total_value()` over the pending transactions of `sender` that reserved
    on `address`. -/
def reservedOn (st : MempoolState H A) (sender address : A) : Nat :=
  (st.regularTransactions.transactions.map fun e => e.2.reservedOn sender address).sum +
    (st.controlTransactions.transactions.map fun e => e.2.reservedOn sender address).sum

/-- The bookkeeping: each container consistent and no hash in both; each sender's
    hash set exactly the hashes of its pending transactions, with an entry only while
    there are some; each reserved balance the sum of what its pending transactions
    reserved there. -/
structure Bookkeeping (st : MempoolState H A) : Prop where
  regular : st.regularTransactions.Consistent
  control : st.controlTransactions.Consistent
  disjoint : ∀ h, (st.regularTransactions.get h).isSome → st.controlTransactions.get h = none
  txns : ∀ s senderState, findKey s st.stateBySender = some senderState →
    ∀ h, h ∈ senderState.txns ↔ st.PendingFrom s h
  entry : ∀ s, (findKey s st.stateBySender).isSome ↔ ∃ h, st.PendingFrom s h
  reserved : ∀ s senderState, findKey s st.stateBySender = some senderState →
    ∀ a, (senderState.reservedBalance.balanceFor a).val = st.reservedOn s a

/-- The containers' part, which deletions and insertions keep. -/
structure Stored (st : MempoolState H A) : Prop where
  regular : st.regularTransactions.Consistent
  control : st.controlTransactions.Consistent
  disjoint : ∀ h, (st.regularTransactions.get h).isSome → st.controlTransactions.get h = none

/-- One sender's part, with what keeps it: the hash set has no duplicates and the
    reservations are the sender's own. -/
def SenderOk (st : MempoolState H A) (s : A) : Prop :=
  match findKey s st.stateBySender with
  | none => ∀ h, ¬ st.PendingFrom s h
  | some senderState =>
    senderState.txns.Nodup ∧ senderState.reservedBalance.address = s ∧ senderState.txns ≠ [] ∧
      (∀ h, h ∈ senderState.txns ↔ st.PendingFrom s h) ∧
      ∀ a, (senderState.reservedBalance.balanceFor a).val = st.reservedOn s a

structure Inv (stakingContract : A) (st : MempoolState H A) : Prop where
  stored : st.Stored
  senders : ∀ s, st.SenderOk s
  accepted : ∀ h tx, st.get h = some tx → tx.Accepted stakingContract

omit [DecidableEq A] in
theorem get_eq (st : MempoolState H A) (h : H) :
    st.get h = (st.regularTransactions.get h).or (st.controlTransactions.get h) := by
  cases found : st.regularTransactions.get h <;> simp [get, found]

theorem Inv.bookkeeping {stakingContract : A} {st : MempoolState H A} (inv : st.Inv stakingContract) :
    st.Bookkeeping := by
  have ok := inv.senders
  refine ⟨inv.stored.regular, inv.stored.control, inv.stored.disjoint, ?_, ?_, ?_⟩
  · intro s senderState found
    have := ok s
    simp only [SenderOk, found] at this
    exact this.2.2.2.1
  · intro s
    have := ok s
    cases found : findKey s st.stateBySender with
    | none =>
      simp only [SenderOk, found] at this
      simpa using this
    | some senderState =>
      simp only [SenderOk, found] at this
      obtain ⟨-, -, nonempty, txns, -⟩ := this
      obtain ⟨h, member⟩ := List.exists_mem_of_ne_nil _ nonempty
      simpa using ⟨h, (txns h).mp member⟩
  · intro s senderState found
    have := ok s
    simp only [SenderOk, found] at this
    exact this.2.2.2.2

omit [DecidableEq A] in
theorem get_of_transactions {st st' : MempoolState H A}
    (regular : st'.regularTransactions.transactions = st.regularTransactions.transactions)
    (control : st'.controlTransactions.transactions = st.controlTransactions.transactions) (h : H) :
    st'.get h = st.get h := by
  simp [get_eq, MempoolTransactions.get, regular, control]

section Stored

variable {st st' : MempoolState H A} {txHash : H} {tx : Transaction H A}

omit [DecidableEq A] in
theorem Stored.withStateBySender (stored : st.Stored) (stateBySender : List (A × SenderPendingState H A)) :
    ({ st with stateBySender := stateBySender } : MempoolState H A).Stored :=
  ⟨stored.regular, stored.control, stored.disjoint⟩

/-- What `deleteTx` does while no hash is in both containers: the transaction stops
    being pending and takes its reservations out of the sums. -/
theorem deleteTx_spec (stored : st.Stored) (deleted : st.deleteTx txHash = some (tx, st')) :
    st.get txHash = some tx ∧ st'.Stored ∧ st'.stateBySender = st.stateBySender ∧
      (∀ h, st'.get h = if h = txHash then none else st.get h) ∧
      ∀ s a, st'.reservedOn s a + tx.reservedOn s a = st.reservedOn s a := by
  unfold deleteTx at deleted
  split at deleted
  · -- found among the regular transactions
    rename_i tx' regular fromRegular
    cases deleted
    have found := (MempoolTransactions.delete_eq_some fromRegular).1
    have got := MempoolTransactions.get_delete fromRegular
    have notControl := stored.disjoint txHash (by simp [found])
    refine ⟨by simp [get_eq, found], ⟨MempoolTransactions.delete_consistent stored.regular fromRegular,
      stored.control, ?_⟩, rfl, ?_, ?_⟩
    · intro h kept
      rw [got] at kept
      split at kept
      · cases kept
      · exact stored.disjoint h kept
    · intro h
      rw [get_eq, get_eq, got]
      split
      · rename_i here
        subst here
        simp [notControl]
      · rfl
    · intro s a
      have sum := MempoolTransactions.sum_delete stored.regular fromRegular fun e => e.2.reservedOn s a
      dsimp only at sum
      simp only [reservedOn]
      omega
  · -- not a regular transaction: found among the control transactions
    rename_i notRegular
    obtain ⟨⟨tx', control⟩, fromControl, same⟩ := Option.map_eq_some_iff.mp deleted
    cases same
    have absent : st.regularTransactions.get txHash = none := MempoolTransactions.delete_eq_none_iff.mp notRegular
    have found := (MempoolTransactions.delete_eq_some fromControl).1
    have got := MempoolTransactions.get_delete fromControl
    refine ⟨by simp [get_eq, absent, found], ⟨stored.regular,
      MempoolTransactions.delete_consistent stored.control fromControl, ?_⟩, rfl, ?_, ?_⟩
    · intro h kept
      show control.get h = none
      rw [got]
      split
      · rfl
      · exact stored.disjoint h kept
    · intro h
      rw [get_eq, get_eq]
      dsimp only
      rw [got]
      split
      · rename_i here
        subst here
        simp [absent]
      · rfl
    · intro s a
      have sum := MempoolTransactions.sum_delete stored.control fromControl fun e => e.2.reservedOn s a
      dsimp only at sum
      simp only [reservedOn]
      omega

theorem get_of_deleteTx (stored : st.Stored) (deleted : st.deleteTx txHash = some (tx, st')) {h : H}
    {tx' : Transaction H A} (kept : st'.get h = some tx') : h ≠ txHash ∧ st.get h = some tx' := by
  rw [(deleteTx_spec stored deleted).2.2.2.1] at kept
  split at kept
  · cases kept
  · exact ⟨‹_›, kept⟩

omit [DecidableEq A] in
theorem deleteTx_eq_none_iff : st.deleteTx txHash = none ↔ st.get txHash = none := by
  unfold deleteTx
  split
  · rename_i tx' regular fromRegular
    simp [get_eq, (MempoolTransactions.delete_eq_some fromRegular).1]
  · rename_i notRegular
    rw [MempoolTransactions.delete_eq_none_iff] at notRegular
    simp [get_eq, notRegular, MempoolTransactions.delete_eq_none_iff]

omit [DecidableEq A] in
theorem deleteTx_worst_sublist (deleted : st.deleteTx txHash = some (tx, st')) (which : Container) :
    (st'.container which).worstTransactions.Sublist (st.container which).worstTransactions := by
  unfold deleteTx at deleted
  split at deleted
  · rename_i tx' regular fromRegular
    cases deleted
    cases which
    · exact MempoolTransactions.delete_worst_sublist fromRegular
    · exact List.Sublist.refl _
  · obtain ⟨⟨tx', control⟩, fromControl, same⟩ := Option.map_eq_some_iff.mp deleted
    cases same
    cases which
    · exact List.Sublist.refl _
    · exact MempoolTransactions.delete_worst_sublist fromControl

/-- The bulk deletion of hashes that are all the sender's: they stop being pending,
    and no other sender's sums change. -/
theorem discardAll_spec (hashes : List H) {sender : A} (stored : st.Stored)
    (only : ∀ h ∈ hashes, ∀ tx, st.get h = some tx → tx.sender = sender) :
    (st.discardAll hashes).Stored ∧ (st.discardAll hashes).stateBySender = st.stateBySender ∧
      (∀ h, (st.discardAll hashes).get h = if h ∈ hashes then none else st.get h) ∧
      ∀ s, s ≠ sender → ∀ a, (st.discardAll hashes).reservedOn s a = st.reservedOn s a := by
  induction hashes generalizing st with
  | nil => exact ⟨stored, rfl, fun h => by simp [discardAll], fun _ _ _ => rfl⟩
  | cons hash rest ih =>
    -- the first deletion, if the hash is still there, is one `deleteTx`
    have first : ∃ st₁ : MempoolState H A, (st.discardAll (hash :: rest) = st₁.discardAll rest) ∧ st₁.Stored ∧
        st₁.stateBySender = st.stateBySender ∧ (∀ h, st₁.get h = if h = hash then none else st.get h) ∧
        ∀ s, s ≠ sender → ∀ a, st₁.reservedOn s a = st.reservedOn s a := by
      cases deleted : st.deleteTx hash with
      | none =>
        have absent := deleteTx_eq_none_iff.mp deleted
        refine ⟨st, by simp [discardAll, deleted], stored, rfl, fun h => ?_, fun _ _ _ => rfl⟩
        split
        · rename_i here
          rw [here, absent]
        · rfl
      | some result =>
        obtain ⟨tx, st₁⟩ := result
        obtain ⟨found, stored₁, same, got, sums⟩ := deleteTx_spec stored deleted
        have fromSender := only hash List.mem_cons_self tx found
        refine ⟨st₁, by simp [discardAll, deleted], stored₁, same, got, fun s other a => ?_⟩
        have := sums s a
        rw [Transaction.reservedOn_of_ne (fromSender ▸ Ne.symm other)] at this
        omega
    obtain ⟨st₁, step, stored₁, same₁, got₁, sums₁⟩ := first
    have only₁ : ∀ h ∈ rest, ∀ tx, st₁.get h = some tx → tx.sender = sender := by
      intro h member tx found
      rw [got₁] at found
      split at found
      · cases found
      · exact only h (List.mem_cons_of_mem _ member) tx found
    obtain ⟨stored₂, same₂, got₂, sums₂⟩ := ih stored₁ only₁
    rw [step]
    refine ⟨stored₂, same₂.trans same₁, fun h => ?_, fun s other a => (sums₂ s other a).trans (sums₁ s other a)⟩
    rw [got₂, got₁]
    by_cases later : h ∈ rest
    · simp [later]
    · by_cases here : h = hash <;> simp [later, here]

omit [DecidableEq A] in
theorem discardAll_worst_sublist (hashes : List H) (which : Container) :
    ((st.discardAll hashes).container which).worstTransactions.Sublist (st.container which).worstTransactions := by
  induction hashes generalizing st with
  | nil => exact List.Sublist.refl _
  | cons hash rest ih =>
    cases deleted : st.deleteTx hash with
    | none =>
      simp only [discardAll, List.foldl_cons, deleted]
      exact ih
    | some result =>
      obtain ⟨tx, st₁⟩ := result
      simp only [discardAll, List.foldl_cons, deleted]
      exact ih.trans (deleteTx_worst_sublist deleted which)

theorem insert_spec (stored : st.Stored) (absent : st.get tx.hash = none) (which : Container) (priority : TxPriority) :
    let st' := st.setContainer which ((st.container which).insert tx priority).2
    st'.Stored ∧ st'.stateBySender = st.stateBySender ∧
      (∀ h, st'.get h = if h = tx.hash then some tx else st.get h) ∧
      ∀ s a, st'.reservedOn s a = st.reservedOn s a + tx.reservedOn s a := by
  have bothAbsent : st.regularTransactions.get tx.hash = none ∧ st.controlTransactions.get tx.hash = none := by
    simpa [get_eq] using absent
  cases which with
  | regular =>
    have got := MempoolTransactions.get_insert bothAbsent.1 priority
    refine ⟨⟨MempoolTransactions.insert_consistent stored.regular bothAbsent.1 priority, stored.control, ?_⟩,
      rfl, fun h => ?_, fun s a => ?_⟩
    · intro h kept
      simp only [setContainer, container, got] at kept
      split at kept
      · rename_i here
        rw [here]
        exact bothAbsent.2
      · exact stored.disjoint h kept
    · simp only [setContainer, container, get_eq, got]
      split
      · rfl
      · rfl
    · have sum := MempoolTransactions.sum_insert bothAbsent.1 priority fun e => e.2.reservedOn s a
      simp only [setContainer, container, reservedOn, sum]
      omega
  | control =>
    have got := MempoolTransactions.get_insert bothAbsent.2 priority
    refine ⟨⟨stored.regular, MempoolTransactions.insert_consistent stored.control bothAbsent.2 priority, ?_⟩,
      rfl, fun h => ?_, fun s a => ?_⟩
    · intro h kept
      simp only [setContainer, container] at kept ⊢
      rw [got]
      split
      · rename_i here
        rw [here, bothAbsent.1] at kept
        cases kept
      · exact stored.disjoint h kept
    · simp only [setContainer, container, get_eq, got]
      split
      · rename_i here
        rw [here, bothAbsent.1]
        rfl
      · rfl
    · have sum := MempoolTransactions.sum_insert bothAbsent.2 priority fun e => e.2.reservedOn s a
      simp only [setContainer, container, reservedOn, sum]
      omega

end Stored

section Senders

variable {st st' : MempoolState H A}

omit [DecidableEq A] in
/-- A sender sees no change where the containers differ only in transactions of
    other senders. -/
theorem pendingFrom_congr {s : A}
    (agree : ∀ h, st'.get h ≠ st.get h →
      (∀ tx, st'.get h = some tx → tx.sender ≠ s) ∧ ∀ tx, st.get h = some tx → tx.sender ≠ s)
    (h : H) : st'.PendingFrom s h ↔ st.PendingFrom s h := by
  by_cases same : st'.get h = st.get h
  · simp [PendingFrom, same]
  · obtain ⟨newOther, oldOther⟩ := agree h same
    constructor
    · rintro ⟨tx, found, rfl⟩
      exact absurd rfl (newOther tx found)
    · rintro ⟨tx, found, rfl⟩
      exact absurd rfl (oldOther tx found)

theorem SenderOk.frame {s : A} (ok : st.SenderOk s)
    (entry : findKey s st'.stateBySender = findKey s st.stateBySender)
    (pending : ∀ h, st'.PendingFrom s h ↔ st.PendingFrom s h)
    (reserved : ∀ a, st'.reservedOn s a = st.reservedOn s a) : st'.SenderOk s := by
  cases found : findKey s st.stateBySender with
  | none =>
    simp only [SenderOk, found] at ok
    simp only [SenderOk, entry, found, pending]
    exact ok
  | some senderState =>
    simp only [SenderOk, found] at ok
    simp only [SenderOk, entry, found, pending, reserved]
    exact ok

theorem reservedOn_eq_zero (stored : st.Stored) {s : A} (nothing : ∀ h, ¬ st.PendingFrom s h) (a : A) :
    st.reservedOn s a = 0 := by
  have zero : ∀ e ∈ st.regularTransactions.transactions ++ st.controlTransactions.transactions,
      e.2.reservedOn s a = 0 := by
    intro e member
    have pending : st.get e.1 = some e.2 := by
      rcases List.mem_append.mp member with regular | control
      · have := findKey_of_mem stored.regular.distinct regular
        simp [get_eq, MempoolTransactions.get, this]
      · have found := findKey_of_mem stored.control.distinct control
        have notRegular : st.regularTransactions.get e.1 = none := by
          cases kept : st.regularTransactions.get e.1 with
          | none => rfl
          | some tx =>
            have := stored.disjoint e.1 (by simp [kept])
            simp [MempoolTransactions.get, found] at this
        rw [get_eq, notRegular]
        exact found
    exact Transaction.reservedOn_of_ne (fun same => nothing e.1 ⟨e.2, pending, same⟩) a
  have sum : ((st.regularTransactions.transactions ++ st.controlTransactions.transactions).map
      fun e => e.2.reservedOn s a).sum = 0 := by
    apply List.sum_eq_zero
    intro x mem
    obtain ⟨e, member, rfl⟩ := List.mem_map.mp mem
    exact zero e member
  simpa [reservedOn] using sum

end Senders

section Remove

variable {stakingContract : A} {st st₁ : MempoolState H A} {txHash : H} {tx : Transaction H A}

/-- After `deleteTx` takes out a transaction, a sender other than its own whose entry
    is left alone stays in order. -/
theorem others_after_delete (inv : st.Inv stakingContract) (deleted : st.deleteTx txHash = some (tx, st₁))
    {stateBySender : List (A × SenderPendingState H A)} {s : A} (other : s ≠ tx.sender)
    (entry : findKey s stateBySender = findKey s st.stateBySender) :
    ({ st₁ with stateBySender := stateBySender } : MempoolState H A).SenderOk s := by
  obtain ⟨found, -, -, got, sums⟩ := deleteTx_spec inv.stored deleted
  refine (inv.senders s).frame entry (pendingFrom_congr fun h differ => ?_) fun a => ?_
  · change st₁.get h ≠ st.get h at differ
    have here : h = txHash := by
      by_contra elsewhere
      rw [got, if_neg elsewhere] at differ
      exact differ rfl
    refine ⟨fun tx' kept => ?_, fun tx' kept => ?_⟩
    · exact absurd here (get_of_deleteTx inv.stored deleted kept).1
    · rw [here, found] at kept
      cases kept
      exact Ne.symm other
  · change st₁.reservedOn s a = st.reservedOn s a
    have := sums s a
    rw [Transaction.reservedOn_of_ne (Ne.symm other)] at this
    omega

/-- The bulk removal when the sender's account is not known: all of the sender's
    transactions go, and its entry with them. -/
theorem bulk_inv (inv : st.Inv stakingContract) (deleted : st.deleteTx txHash = some (tx, st₁))
    {senderState : SenderPendingState H A} (entry : findKey tx.sender st.stateBySender = some senderState) :
    ({ st₁.discardAll senderState.txns with
        stateBySender := eraseKey tx.sender (st₁.discardAll senderState.txns).stateBySender } :
      MempoolState H A).Inv stakingContract := by
  obtain ⟨found, stored₁, same₁, got₁, sums₁⟩ := deleteTx_spec inv.stored deleted
  have ok := inv.senders tx.sender
  simp only [SenderOk, entry] at ok
  obtain ⟨-, -, -, txns, -⟩ := ok
  have member : txHash ∈ senderState.txns := (txns txHash).mpr ⟨tx, found, rfl⟩
  -- every hash of the set is a transaction of the sender
  have only : ∀ h ∈ senderState.txns, ∀ tx', st₁.get h = some tx' → tx'.sender = tx.sender := by
    intro h inSet tx' kept
    obtain ⟨tx'', pending, fromSender⟩ := (txns h).mp inSet
    rw [(get_of_deleteTx inv.stored deleted kept).2] at pending
    cases pending
    exact fromSender
  obtain ⟨stored₂, same₂, got₂, sums₂⟩ := discardAll_spec senderState.txns stored₁ only
  -- what is pending now: what was, less the sender's set
  have got : ∀ h, (st₁.discardAll senderState.txns).get h = if h ∈ senderState.txns then none else st.get h := by
    intro h
    rw [got₂, got₁]
    by_cases inSet : h ∈ senderState.txns
    · simp [inSet]
    · have elsewhere : h ≠ txHash := fun here => inSet (here ▸ member)
      simp [inSet, elsewhere]
  refine ⟨stored₂.withStateBySender _, fun s => ?_, fun h tx' kept => ?_⟩
  · by_cases here : s = tx.sender
    · -- the sender has neither an entry nor pending transactions
      subst here
      simp only [SenderOk, findKey_eraseKey_self]
      rintro h ⟨tx', kept, fromSender⟩
      change (st₁.discardAll senderState.txns).get h = some tx' at kept
      rw [got] at kept
      split at kept
      · cases kept
      · rename_i notInSet
        exact notInSet ((txns h).mpr ⟨tx', kept, fromSender⟩)
    · refine (inv.senders s).frame ?_ (pendingFrom_congr fun h differ => ?_) fun a => ?_
      · change findKey s (eraseKey tx.sender (st₁.discardAll senderState.txns).stateBySender) = _
        rw [findKey_eraseKey_of_ne (Ne.symm here), same₂, same₁]
      · change (st₁.discardAll senderState.txns).get h ≠ st.get h at differ
        rw [got] at differ
        split at differ
        · rename_i inSet
          obtain ⟨tx'', pending, fromSender⟩ := (txns h).mp inSet
          refine ⟨fun tx' kept => ?_, fun tx' kept => ?_⟩
          · change (st₁.discardAll senderState.txns).get h = some tx' at kept
            rw [got, if_pos inSet] at kept
            cases kept
          · rw [pending] at kept
            cases kept
            rw [fromSender]
            exact Ne.symm here
        · exact absurd rfl differ
      · change (st₁.discardAll senderState.txns).reservedOn s a = st.reservedOn s a
        rw [sums₂ s here a]
        have := sums₁ s a
        rw [Transaction.reservedOn_of_ne (Ne.symm here)] at this
        omega
  · change (st₁.discardAll senderState.txns).get h = some tx' at kept
    rw [got] at kept
    split at kept
    · cases kept
    · exact inv.accepted h tx' kept

/-- The release when the sender's account is known. The account at the sender is a
    staking contract exactly when the transaction says so, so the release takes the
    value off the address the reservation put it on, where the sum still holds it. -/
theorem release_inv (blockchain : Blockchain H A stakingContract) (inv : st.Inv stakingContract)
    (deleted : st.deleteTx txHash = some (tx, st₁)) {senderState : SenderPendingState H A}
    (entry : findKey tx.sender st.stateBySender = some senderState) {senderAccount : Account H A}
    (account : blockchain.getAccountIfComplete tx.sender = some senderAccount) :
    ∃ r, st.remove blockchain txHash = some r ∧ r.2.Inv stakingContract := by
  obtain ⟨found, stored₁, same₁, got₁, sums₁⟩ := deleteTx_spec inv.stored deleted
  have ok := inv.senders tx.sender
  simp only [SenderOk, entry] at ok
  obtain ⟨nodup, owner, -, txns, reserved⟩ := ok
  have member : txHash ∈ senderState.txns := (txns txHash).mpr ⟨tx, found, rfl⟩
  have accepted := inv.accepted txHash tx found
  have sameKind : senderAccount.accountType = .staking ↔ tx.senderType = .staking :=
    (blockchain.staking_iff tx.sender senderAccount account).trans accepted.staking_iff.symm
  have enough : tx.totalValue.val ≤ (senderState.reservedBalance.balanceFor tx.reservationAddress).val := by
    rw [reserved, ← sums₁ tx.sender tx.reservationAddress, Transaction.reservedOn_self]
    omega
  obtain ⟨reservedBalance, released, sameOwner, balances⟩ :=
    releaseBalance_of_le sameKind accepted.parsed owner enough
  have entry₁ : findKey tx.sender st₁.stateBySender = some senderState := same₁ ▸ entry
  -- what is pending of the sender now: what was, less the removed hash
  have pendingNow : ∀ (stateBySender : List (A × SenderPendingState H A)) h,
      ({ st₁ with stateBySender := stateBySender } : MempoolState H A).PendingFrom tx.sender h ↔
        h ∈ senderState.txns.erase txHash := by
    intro stateBySender h
    rw [nodup.mem_erase_iff]
    constructor
    · rintro ⟨tx', kept, fromSender⟩
      obtain ⟨elsewhere, pending⟩ := get_of_deleteTx inv.stored deleted kept
      exact ⟨elsewhere, (txns h).mpr ⟨tx', pending, fromSender⟩⟩
    · rintro ⟨elsewhere, inSet⟩
      obtain ⟨tx', pending, fromSender⟩ := (txns h).mp inSet
      refine ⟨tx', ?_, fromSender⟩
      change st₁.get h = some tx'
      rw [got₁, if_neg elsewhere]
      exact pending
  have accepted₁ : ∀ (stateBySender : List (A × SenderPendingState H A)) h tx',
      ({ st₁ with stateBySender := stateBySender } : MempoolState H A).get h = some tx' →
        tx'.Accepted stakingContract := by
    intro stateBySender h tx' kept
    exact inv.accepted h tx' (get_of_deleteTx inv.stored deleted kept).2
  by_cases empty : (senderState.txns.erase txHash).isEmpty
  · -- the last transaction of the sender: its entry goes
    refine ⟨(some tx, { st₁ with stateBySender := eraseKey tx.sender st₁.stateBySender }),
      by simp [remove, deleted, entry₁, account, member, released, empty], stored₁.withStateBySender _,
      fun s => ?_, accepted₁ _⟩
    by_cases here : s = tx.sender
    · subst here
      simp only [SenderOk, findKey_eraseKey_self]
      intro h pending
      have inErased := (pendingNow _ h).mp pending
      rw [List.isEmpty_iff.mp empty] at inErased
      cases inErased
    · exact others_after_delete inv deleted here (by rw [findKey_eraseKey_of_ne (Ne.symm here), same₁])
  · refine ⟨(some tx, { st₁ with
        stateBySender := insertKey tx.sender ⟨reservedBalance, senderState.txns.erase txHash⟩ st₁.stateBySender }),
      by simp [remove, deleted, entry₁, account, member, released, empty], stored₁.withStateBySender _,
      fun s => ?_, accepted₁ _⟩
    by_cases here : s = tx.sender
    · subst here
      simp only [SenderOk, findKey_insertKey_self]
      refine ⟨nodup.erase txHash, sameOwner.trans owner, by simpa using empty, fun h => (pendingNow _ h).symm,
        fun a => ?_⟩
      change _ = st₁.reservedOn tx.sender a
      have released := balances a
      have before := reserved a
      have taken := sums₁ tx.sender a
      omega
    · exact others_after_delete inv deleted here (by rw [findKey_insertKey_of_ne (Ne.symm here), same₁])

theorem remove_inv (blockchain : Blockchain H A stakingContract) (inv : st.Inv stakingContract) (txHash : H) :
    ∃ r, st.remove blockchain txHash = some r ∧ r.2.Inv stakingContract := by
  cases deleted : st.deleteTx txHash with
  | none => exact ⟨(none, st), by simp [remove, deleted], inv⟩
  | some result =>
    obtain ⟨tx, st₁⟩ := result
    obtain ⟨found, -, same₁, -, -⟩ := deleteTx_spec inv.stored deleted
    -- a pending transaction's sender has an entry
    have ok := inv.senders tx.sender
    cases entry : findKey tx.sender st.stateBySender with
    | none =>
      simp only [SenderOk, entry] at ok
      exact absurd ⟨tx, found, rfl⟩ (ok txHash)
    | some senderState =>
      cases account : blockchain.getAccountIfComplete tx.sender with
      | none =>
        exact ⟨(some tx, { st₁.discardAll senderState.txns with
            stateBySender := eraseKey tx.sender (st₁.discardAll senderState.txns).stateBySender }),
          by simp [remove, deleted, same₁ ▸ entry, account], bulk_inv inv deleted entry⟩
      | some senderAccount => exact release_inv blockchain inv deleted entry account

end Remove

section Evict

variable {stakingContract : A} {st : MempoolState H A} {txHash : H}

omit [DecidableEq H] [DecidableEq A] in
@[simp] theorem container_withStateBySender (stateBySender : List (A × SenderPendingState H A)) (which : Container) :
    ({ st with stateBySender := stateBySender } : MempoolState H A).container which = st.container which := by
  cases which <;> rfl

omit [DecidableEq A] in
theorem Stored.consistent (stored : st.Stored) : ∀ which, (st.container which).Consistent
  | .regular => stored.regular
  | .control => stored.control

theorem remove_worst_sublist (blockchain : Blockchain H A stakingContract) {r : Option (Transaction H A)}
    {st' : MempoolState H A} (removed : st.remove blockchain txHash = some (r, st')) (which : Container) :
    (st'.container which).worstTransactions.Sublist (st.container which).worstTransactions := by
  unfold remove at removed
  split at removed
  · cases removed
    exact List.Sublist.refl _
  · rename_i tx st₁ deleted
    have first := deleteTx_worst_sublist deleted which
    split at removed
    · cases removed
      exact first
    · split at removed
      · cases removed
        rw [container_withStateBySender]
        exact (discardAll_worst_sublist _ which).trans first
      · split at removed
        · cases removed
          exact first
        · split at removed
          · dsimp only at removed
            split at removed
            · cases removed
              rw [container_withStateBySender]
              exact first
            · cases removed
              rw [container_withStateBySender]
              exact first
          · cases removed

/-- The state `put`'s loop hands to `remove`: the popped hash is gone from the worst
    index only. -/
def popWorst (st : MempoolState H A) (which : Container) (txHash : H) : MempoolState H A :=
  st.setContainer which
    { st.container which with worstTransactions := eraseKey txHash (st.container which).worstTransactions }

omit [DecidableEq A] in
theorem worst_popWorst (which : Container) (txHash : H) :
    ((st.popWorst which txHash).container which).worstTransactions =
      eraseKey txHash (st.container which).worstTransactions := by
  cases which <;> rfl

theorem worst_shorter_after_pop (blockchain : Blockchain H A stakingContract) {which : Container}
    {entry : WorstTxOrder} (found : findKey txHash (st.container which).worstTransactions = some entry)
    {r : Option (Transaction H A)} {st' : MempoolState H A}
    (removed : (st.popWorst which txHash).remove blockchain txHash = some (r, st')) :
    (st'.container which).worstTransactions.length < (st.container which).worstTransactions.length := by
  have sub := (remove_worst_sublist blockchain removed which).length_le
  rw [worst_popWorst] at sub
  exact lt_of_le_of_lt sub (length_eraseKey_lt found)

omit [DecidableEq A] in
/-- Popping the hash before deleting it changes nothing, `delete` taking it out of the
    worst index anyway. -/
theorem deleteTx_popWorst (stored : st.Stored) (which : Container) (found : ((st.container which).get txHash).isSome) :
    (st.popWorst which txHash).deleteTx txHash = st.deleteTx txHash := by
  cases which with
  | regular =>
    obtain ⟨tx, got⟩ := Option.isSome_iff_exists.mp found
    simp [popWorst, deleteTx, setContainer, container, MempoolTransactions.delete, MempoolTransactions.get,
      show findKey txHash st.regularTransactions.transactions = some tx from got]
  | control =>
    have notRegular : st.regularTransactions.get txHash = none := by
      cases kept : st.regularTransactions.get txHash with
      | none => rfl
      | some tx =>
        have := stored.disjoint txHash (by simp [kept])
        change (st.controlTransactions.get txHash).isSome = true at found
        rw [this] at found
        cases found
    obtain ⟨tx, got⟩ := Option.isSome_iff_exists.mp found
    simp [popWorst, deleteTx, setContainer, container, MempoolTransactions.delete, MempoolTransactions.get,
      show findKey txHash st.regularTransactions.transactions = none from notRegular,
      show findKey txHash st.controlTransactions.transactions = some tx from got]

theorem remove_popWorst (blockchain : Blockchain H A stakingContract) (stored : st.Stored) (which : Container)
    (found : ((st.container which).get txHash).isSome) :
    (st.popWorst which txHash).remove blockchain txHash = st.remove blockchain txHash := by
  have pending : st.get txHash ≠ none := by
    obtain ⟨tx, got⟩ := Option.isSome_iff_exists.mp found
    cases which with
    | regular => simp [get_eq, show st.regularTransactions.get txHash = some tx from got]
    | control =>
      change st.controlTransactions.get txHash = some tx at got
      cases kept : st.regularTransactions.get txHash <;> simp [get_eq, kept, got]
  obtain ⟨⟨tx, st₁⟩, deleted⟩ := Option.ne_none_iff_exists'.mp (mt deleteTx_eq_none_iff.mp pending)
  have popped := (deleteTx_popWorst stored which found).trans deleted
  simp only [remove, popped, deleted]

theorem evictLoop_of_within (blockchain : Blockchain H A stakingContract) (which : Container) (fuel : Nat)
    (within : ¬ (st.container which).totalSizeLimit < (st.container which).totalSize) :
    evictLoop blockchain which fuel st = some st := by
  cases fuel <;> simp [evictLoop, within]

theorem evictLoop_of_popMax (blockchain : Blockchain H A stakingContract) (which : Container) (fuel : Nat)
    (overLimit : (st.container which).totalSizeLimit < (st.container which).totalSize) {priority : WorstTxOrder}
    (peeked : peekMax (st.container which).worstTransactions = some (txHash, priority)) :
    evictLoop blockchain which (fuel + 1) st =
      ((st.popWorst which txHash).remove blockchain txHash).bind fun removed => evictLoop blockchain which fuel removed.2 := by
  simp only [evictLoop, overLimit, if_true, popMax, peeked, Option.map_some]
  rfl

/-- Fuel beyond the entries of the worst index changes nothing: the loop has ended by
    then, as the source's loop does. -/
theorem evictLoop_succ (blockchain : Blockchain H A stakingContract) (which : Container) (fuel : Nat)
    (bound : (st.container which).worstTransactions.length ≤ fuel) :
    evictLoop blockchain which (fuel + 1) st = evictLoop blockchain which fuel st := by
  induction fuel generalizing st with
  | zero =>
    have empty : (st.container which).worstTransactions = [] := List.eq_nil_of_length_eq_zero (by omega)
    by_cases overLimit : (st.container which).totalSizeLimit < (st.container which).totalSize
    · simp [evictLoop, overLimit, popMax, empty, peekMax]
    · rw [evictLoop_of_within blockchain which 1 overLimit, evictLoop_of_within blockchain which 0 overLimit]
  | succ fuel ih =>
    by_cases overLimit : (st.container which).totalSizeLimit < (st.container which).totalSize
    · cases peeked : peekMax (st.container which).worstTransactions with
      | none => simp [evictLoop, overLimit, popMax, peeked]
      | some top =>
        obtain ⟨txHash, priority⟩ := top
        obtain ⟨entry, found⟩ := Option.isSome_iff_exists.mp (findKey_isSome_of_mem (peekMax_mem peeked))
        rw [evictLoop_of_popMax blockchain which (fuel + 1) overLimit peeked,
          evictLoop_of_popMax blockchain which fuel overLimit peeked]
        cases removed : (st.popWorst which txHash).remove blockchain txHash with
        | none => rfl
        | some r =>
          have := worst_shorter_after_pop blockchain found removed
          exact ih (by omega)
    · rw [evictLoop_of_within blockchain which (fuel + 2) overLimit,
        evictLoop_of_within blockchain which (fuel + 1) overLimit]

/-- The eviction loop keeps the bookkeeping and never panics while it holds: over its
    limit, a container has a worst transaction, and its removal shrinks the index the
    fuel counts. -/
theorem evictLoop_inv (blockchain : Blockchain H A stakingContract) (which : Container) (fuel : Nat)
    (inv : st.Inv stakingContract) (bound : (st.container which).worstTransactions.length ≤ fuel) :
    ∃ st', evictLoop blockchain which fuel st = some st' ∧ st'.Inv stakingContract := by
  induction fuel generalizing st with
  | zero =>
    have notOver : ¬ (st.container which).totalSizeLimit < (st.container which).totalSize := fun overLimit =>
      (inv.stored.consistent which).worst_ne_nil overLimit (List.eq_nil_of_length_eq_zero (by omega))
    exact ⟨st, evictLoop_of_within blockchain which 0 notOver, inv⟩
  | succ fuel ih =>
    by_cases overLimit : (st.container which).totalSizeLimit < (st.container which).totalSize
    · have cons := inv.stored.consistent which
      obtain ⟨⟨txHash, priority⟩, peeked⟩ := Option.ne_none_iff_exists'.mp
        (mt peekMax_eq_none_iff.mp (cons.worst_ne_nil overLimit))
      have inWorst := findKey_isSome_of_mem (peekMax_mem peeked)
      obtain ⟨entry, foundWorst⟩ := Option.isSome_iff_exists.mp inWorst
      have indexed : ((st.container which).get txHash).isSome := cons.worst txHash ▸ inWorst
      obtain ⟨removed, step, inv'⟩ := remove_inv blockchain inv txHash
      rw [← remove_popWorst blockchain inv.stored which indexed] at step
      -- the popped entry is gone, so the index is shorter than the fuel left
      have shorter : (removed.2.container which).worstTransactions.length ≤ fuel := by
        have := worst_shorter_after_pop blockchain foundWorst step
        omega
      obtain ⟨st', loop, inv''⟩ := ih inv' shorter
      refine ⟨st', ?_, inv''⟩
      rw [evictLoop_of_popMax blockchain which fuel overLimit peeked, step]
      exact loop
    · exact ⟨st, evictLoop_of_within blockchain which (fuel + 1) overLimit, inv⟩

end Evict

section Put

variable {stakingContract : A} {st : MempoolState H A} {tx : Transaction H A}

/-- `put` after a successful reservation: the sender's entry gets the new balance and
    hash set, and the transaction goes into its container. -/
theorem reserved_insert_inv (blockchain : Blockchain H A stakingContract) (inv : st.Inv stakingContract)
    (absent : st.get tx.hash = none) {senderAccount : Account H A}
    (account : blockchain.getAccountIfComplete tx.sender = some senderAccount)
    {reservedBalance reservedBalance' : ReservedBalance A}
    (reserved : reserveBalance blockchain.blockState senderAccount tx reservedBalance = some (.ok reservedBalance'))
    (owner : reservedBalance.address = tx.sender)
    (before : ∀ a, (reservedBalance.balanceFor a).val = st.reservedOn tx.sender a) {txns : List H} (nodup : txns.Nodup) (txnsIff : ∀ h, h ∈ txns ↔ h = tx.hash ∨ st.PendingFrom tx.sender h)
    (priority : TxPriority) :
    let st₁ := { st with stateBySender := insertKey tx.sender ⟨reservedBalance', txns⟩ st.stateBySender }
    (st₁.setContainer (containerFor tx) ((st₁.container (containerFor tx)).insert tx priority).2).Inv stakingContract := by
  intro st₁
  have absent₁ : st₁.get tx.hash = none := absent
  obtain ⟨stored₂, same₂, got₂, sums₂⟩ := insert_spec (inv.stored.withStateBySender _) absent₁ (containerFor tx) priority
  obtain ⟨typed, parsed, sameOwner, balances⟩ := reserveBalance_ok owner reserved
  have accepted : tx.Accepted stakingContract :=
    ⟨typed ▸ blockchain.staking_iff tx.sender senderAccount account, parsed⟩
  refine ⟨stored₂, fun s => ?_, fun h tx' found => ?_⟩
  · by_cases here : s = tx.sender
    · subst here
      simp only [SenderOk, same₂, st₁, findKey_insertKey_self]
      have pendingNow : ∀ h, h ∈ txns ↔
          (st₁.setContainer (containerFor tx) ((st₁.container (containerFor tx)).insert tx priority).2).PendingFrom
            tx.sender h := by
        intro h
        rw [txnsIff h]
        constructor
        · rintro (rfl | ⟨tx', pending, fromSender⟩)
          · exact ⟨tx, by rw [got₂, if_pos rfl], rfl⟩
          · have elsewhere : h ≠ tx.hash := fun here => by rw [here, absent] at pending; cases pending
            exact ⟨tx', by rw [got₂, if_neg elsewhere]; exact pending, fromSender⟩
        · rintro ⟨tx', found, fromSender⟩
          rw [got₂] at found
          split at found
          · exact Or.inl ‹_›
          · exact Or.inr ⟨tx', found, fromSender⟩
      refine ⟨nodup, sameOwner.trans owner, List.ne_nil_of_mem ((txnsIff tx.hash).mpr (Or.inl rfl)), pendingNow,
        fun a => ?_⟩
      rw [balances a, before a, sums₂]
      rfl
    · refine (inv.senders s).frame ?_ (pendingFrom_congr fun h differ => ?_) fun a => ?_
      · simp only [same₂, st₁, findKey_insertKey_of_ne (Ne.symm here)]
      · rw [got₂] at differ
        split at differ
        · rename_i inserted
          refine ⟨fun tx' found => ?_, fun tx' found => ?_⟩
          · rw [got₂, if_pos inserted] at found
            cases found
            exact Ne.symm here
          · change st.get h = some tx' at found
            rw [inserted, absent] at found
            cases found
        · exact absurd rfl differ
      · rw [sums₂, Transaction.reservedOn_of_ne (Ne.symm here)]
        rfl
  · rw [got₂] at found
    split at found
    · cases found
      exact accepted
    · exact inv.accepted h tx' found

/-- `put` keeps the bookkeeping; it panics only inside the sender account's own
    checks, never in the mempool's own code (the eviction loops included). -/
theorem put_inv (blockchain : Blockchain H A stakingContract) (inv : st.Inv stakingContract)
    (tx : Transaction H A) (priority : TxPriority) :
    (∃ r, st.put blockchain tx priority = some r ∧ r.2.Inv stakingContract) ∨
      (st.put blockchain tx priority = none ∧ ∃ senderAccount reservedBalance,
        blockchain.getAccountIfComplete tx.sender = some senderAccount ∧
          reserveBalance blockchain.blockState senderAccount tx reservedBalance = none) := by
  by_cases known : st.contains tx.hash = true
  · exact .inl ⟨(.error .known, st), by simp [put, known], inv⟩
  have absent : st.get tx.hash = none := by
    simpa [contains, get_eq, MempoolTransactions.containsKey, MempoolTransactions.get] using known
  cases account : blockchain.getAccountIfComplete tx.sender with
  | none => exact .inl ⟨(.error .noConsensus, st), by simp [put, known, account], inv⟩
  | some senderAccount =>
    -- the eviction loops after an insertion that keeps the bookkeeping
    have evicted : ∀ st₂ : MempoolState H A, st₂.Inv stakingContract →
        ∃ st₄, ((st₂.evictWhileFull blockchain .regular).bind fun st₃ =>
          (st₃.evictWhileFull blockchain .control).map fun st₄ => (Except.ok (ε := VerifyErr A) (), st₄)) =
            some (.ok (), st₄) ∧ st₄.Inv stakingContract := by
      intro st₂ inv₂
      obtain ⟨st₃, regular, inv₃⟩ := evictLoop_inv blockchain .regular _ inv₂ le_rfl
      obtain ⟨st₄, control, inv₄⟩ := evictLoop_inv blockchain .control _ inv₃ le_rfl
      exact ⟨st₄, by simp [evictWhileFull, regular, control], inv₄⟩
    have ok := inv.senders tx.sender
    cases entry : findKey tx.sender st.stateBySender with
    | none =>
      simp only [SenderOk, entry] at ok
      cases reserved : reserveBalance blockchain.blockState senderAccount tx (ReservedBalance.new tx.sender) with
      | none => exact .inr ⟨by simp [put, known, account, entry, reserved], senderAccount, _, rfl, reserved⟩
      | some result =>
        cases result with
        | error e => exact .inl ⟨(.error (.invalidAccount e), st), by simp [put, known, account, entry, reserved], inv⟩
        | ok reservedBalance' =>
          have inserted := reserved_insert_inv blockchain inv absent account reserved rfl
            (fun a => (reservedOn_eq_zero inv.stored ok a).symm) (List.nodup_singleton tx.hash)
            (fun h => by simp [ok]) priority
          obtain ⟨st₄, evict, inv₄⟩ := evicted _ inserted
          exact .inl ⟨_, by simp only [put, known, account, entry, reserved]; exact evict, inv₄⟩
    | some senderState =>
      simp only [SenderOk, entry] at ok
      obtain ⟨nodup, owner, -, txns, before⟩ := ok
      cases reserved : reserveBalance blockchain.blockState senderAccount tx senderState.reservedBalance with
      | none => exact .inr ⟨by simp [put, known, account, entry, reserved], senderAccount, _, rfl, reserved⟩
      | some result =>
        cases result with
        | error e => exact .inl ⟨(.error (.invalidAccount e), st), by simp [put, known, account, entry, reserved], inv⟩
        | ok reservedBalance' =>
          have fresh : tx.hash ∉ senderState.txns := fun member => by
            obtain ⟨tx', pending, -⟩ := (txns tx.hash).mp member
            rw [absent] at pending
            cases pending
          have inserted := reserved_insert_inv blockchain inv absent account reserved owner before
            (nodup.insert) (fun h => by rw [List.mem_insert_iff, txns h]) priority
          obtain ⟨st₄, evict, inv₄⟩ := evicted _ inserted
          exact .inl ⟨_, by simp only [put, known, account, entry, reserved]; exact evict, inv₄⟩

end Put

section Runs

variable {stakingContract : A}

/-- Calls that leave the containers' maps and the senders' entries as they are keep
    the bookkeeping, whatever they do to the indices, while the containers stay
    consistent. -/
theorem Inv.of_transactions {st st' : MempoolState H A} (inv : st.Inv stakingContract)
    (regular : st'.regularTransactions.transactions = st.regularTransactions.transactions)
    (control : st'.controlTransactions.transactions = st.controlTransactions.transactions)
    (regularConsistent : st'.regularTransactions.Consistent) (controlConsistent : st'.controlTransactions.Consistent)
    (stateBySender : st'.stateBySender = st.stateBySender) : st'.Inv stakingContract := by
  have got := get_of_transactions regular control
  have sums : ∀ s a, st'.reservedOn s a = st.reservedOn s a := by
    intro s a
    simp [reservedOn, regular, control]
  refine ⟨⟨regularConsistent, controlConsistent, fun h kept => ?_⟩, fun s => ?_, fun h tx found => ?_⟩
  · have := inv.stored.disjoint h (by simpa [MempoolTransactions.get, regular] using kept)
    simpa [MempoolTransactions.get, control] using this
  · exact (inv.senders s).frame (by rw [stateBySender]) (fun h => by simp [PendingFrom, got]) (sums s)
  · exact inv.accepted h tx (by rwa [got] at found)

theorem getExpiredTxns_inv {st : MempoolState H A} (inv : st.Inv stakingContract) (p : Policy) (blockNumber : Nat) :
    ∃ r, st.getExpiredTxns p blockNumber = some r ∧ r.2.Inv stakingContract := by
  obtain ⟨expiredControl, control, controlRun, controlConsistent, controlSame, -⟩ :=
    MempoolTransactions.getExpiredTxns_spec p blockNumber inv.stored.control
  obtain ⟨expiredRegular, regular, regularRun, regularConsistent, regularSame, -⟩ :=
    MempoolTransactions.getExpiredTxns_spec p blockNumber inv.stored.regular
  refine ⟨(expiredControl ++ expiredRegular, { st with controlTransactions := control, regularTransactions := regular }),
    by simp [getExpiredTxns, controlRun, regularRun], ?_⟩
  exact inv.of_transactions regularSame controlSame regularConsistent controlConsistent rfl

theorem new_inv (regularTxnsLimit controlTxnsLimit : Nat) :
    (new regularTxnsLimit controlTxnsLimit : MempoolState H A).Inv stakingContract := by
  refine ⟨⟨MempoolTransactions.new_consistent _, MempoolTransactions.new_consistent _, fun _ _ => rfl⟩,
    fun s => ?_, fun h tx found => ?_⟩
  · simp only [SenderOk, new, findKey_nil]
    rintro h ⟨tx, found, -⟩
    cases found
  · cases found

/-- The states the mempool reaches from a new one by any sequence of calls, each under
    any state of the blockchain. -/
inductive Reachable (p : Policy) (stakingContract : A) : MempoolState H A → Prop
  | new (regularTxnsLimit controlTxnsLimit : Nat) : Reachable p stakingContract (new regularTxnsLimit controlTxnsLimit)
  | call {st st' : MempoolState H A} (blockchain : Blockchain H A stakingContract) (c : MempoolCall H A) :
      Reachable p stakingContract st → st.call p blockchain c = some st' → Reachable p stakingContract st'

theorem call_inv {p : Policy} {st st' : MempoolState H A} (inv : st.Inv stakingContract)
    (blockchain : Blockchain H A stakingContract) (c : MempoolCall H A) (called : st.call p blockchain c = some st') :
    st'.Inv stakingContract := by
  cases c with
  | put tx priority =>
    rcases put_inv blockchain inv tx priority with ⟨r, put, inv'⟩ | ⟨panicked, -⟩
    · simp only [call, put, Option.map_some] at called
      cases called
      exact inv'
    · simp [call, panicked] at called
  | remove txHash =>
    obtain ⟨r, removed, inv'⟩ := remove_inv blockchain inv txHash
    simp only [call, removed, Option.map_some] at called
    cases called
    exact inv'
  | getExpiredTxns blockNumber =>
    obtain ⟨r, expired, inv'⟩ := getExpiredTxns_inv inv p blockNumber
    simp only [call, expired, Option.map_some] at called
    cases called
    exact inv'

theorem Reachable.inv {p : Policy} {st : MempoolState H A} (reachable : Reachable p stakingContract st) :
    st.Inv stakingContract := by
  induction reachable with
  | new regularTxnsLimit controlTxnsLimit => exact new_inv regularTxnsLimit controlTxnsLimit
  | call blockchain c _ called ih => exact call_inv ih blockchain c called

theorem bookkeeping_after_every_call {p : Policy} {st : MempoolState H A}
    (reachable : Reachable p stakingContract st) :
    st.Bookkeeping ∧ (∀ (blockchain : Blockchain H A stakingContract) txHash, st.remove blockchain txHash ≠ none) ∧
      ∀ blockNumber, st.getExpiredTxns p blockNumber ≠ none := by
  have inv := reachable.inv
  refine ⟨inv.bookkeeping, fun blockchain txHash => ?_, fun blockNumber => ?_⟩
  · obtain ⟨r, removed, -⟩ := remove_inv blockchain inv txHash
    simp [removed]
  · obtain ⟨r, expired, -⟩ := getExpiredTxns_inv inv p blockNumber
    simp [expired]

end Runs

end MempoolState

/-- A blockchain with the staking contract at address 0 and a basic account of 1000
    lunas at every other address. -/
def basicChain : Blockchain Nat Nat 0 where
  getAccountIfComplete address :=
    if address = 0 then some (.staking fun _ _ _ _ => none) else some (.basic ⟨1000, by decide⟩)
  blockState := ⟨1, 0⟩
  staking_iff := by
    intro address account found
    by_cases here : address = 0
    · simp only [here, if_true, Option.some.injEq] at found
      subst found
      simp [Account.accountType, here]
    · simp only [here, if_false, Option.some.injEq] at found
      subst found
      simp [Account.accountType, here]

def basicTransfer : Transaction Nat Nat where
  hash := 1
  sender := 5
  senderType := .basic
  recipientType := .basic
  value := ⟨10, by decide⟩
  fee := ⟨1, maxSafeValue_pos⟩
  validityStartHeight := 0
  serializedSize := 100
  outgoingStaking := .error .invalidSerialization

theorem bookkeeping_after_one_transfer :
    ∃ st : MempoolState Nat Nat,
      (MempoolState.new 1000 1000).call Policy.default basicChain (.put basicTransfer .medium) = some st ∧
        st.Bookkeeping ∧ (∀ (blockchain : Blockchain Nat Nat 0) txHash, st.remove blockchain txHash ≠ none) ∧
        ∀ blockNumber, st.getExpiredTxns Policy.default blockNumber ≠ none :=
  ⟨_, rfl, MempoolState.bookkeeping_after_every_call (.call basicChain (.put basicTransfer .medium) (.new 1000 1000) rfl)⟩

end Albatross.Mempool
