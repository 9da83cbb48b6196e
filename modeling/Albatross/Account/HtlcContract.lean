import Albatross.Transaction.HtlcProof
import Albatross.Lib.Binary64

/- The hashed time-locked contract account
   (primitives/account/src/account/htlc_contract.rs). A panic is `none`: the only
   panicking operations on these paths are Coin `+` at creation and Coin `-` in the
   error built when a regular transfer goes below its cap. The transaction logs the
   code pushes are left out. -/
namespace Albatross.Htlc

variable {A B S M : Type}

structure HashedTimeLockedContract (A B : Type) where
  balance : Coin
  sender : A
  recipient : A
  hashRoot : AnyHash B
  hashCount : Nat
  timeout : Nat
  totalAmount : Coin

/-- `min_cap` in `can_change_balance` up to `Coin::try_from`: `cap_ratio = 1 -
    hash_depth / hash_count`, then `(cap_ratio * total_amount as f64).floor().max(0) as u64`,
    each float operation rounded to binary64 (`f64::from` of the `u8` depth and count is
    exact) and `as u64` saturating. With `hash_count = 0` the quotient is infinite or
    NaN, and `max(0)` makes the result zero. -/
def minCapValue (hashDepth hashCount totalAmount : Nat) : Nat :=
  if hashCount = 0 then 0
  else
    let capRatio := Binary64.sub 1 (Binary64.div hashDepth hashCount)
    min (max ⌊Binary64.mul capRatio (Binary64.ofNat totalAmount)⌋ 0).toNat (2 ^ 64 - 1)

namespace HashedTimeLockedContract

variable [DecidableEq A] [DecidableEq B]

def canChangeBalance (σ : SignatureScheme A S M) (htlc : HashedTimeLockedContract A B)
    (tx : Transaction A B S M) (newBalance : Coin) (blockState : BlockState) :
    Option (Except (AccountError A) Unit) :=
  match tx.proof with
  | none => some (.error .invalidSerialization)
  | some (.regularTransfer hashDepth hashRoot _ signatureProof) =>
    if htlc.timeout < blockState.time then some (.error .invalidForSender)
    else if hashRoot ≠ htlc.hashRoot then some (.error .invalidForSender)
    else if !σ.isSignedBy signatureProof htlc.recipient then some (.error .invalidSignature)
    else match Coin.tryFrom (minCapValue hashDepth htlc.hashCount htlc.totalAmount.val) with
      | .error e => some (.error (.coinConvert e))
      | .ok minCap =>
        if newBalance < minCap then
          -- `InsufficientFunds { balance: self.balance - min_cap, needed: self.balance - new_balance }`
          (htlc.balance.sub minCap).bind fun balance =>
            (htlc.balance.sub newBalance).map fun needed => .error (.insufficientFunds needed balance)
        else some (.ok ())
  | some (.earlyResolve signatureProofRecipient signatureProofSender) =>
    if !σ.isSignedBy signatureProofRecipient htlc.recipient ||
        !σ.isSignedBy signatureProofSender htlc.sender then
      some (.error .invalidSignature)
    else some (.ok ())
  | some (.timeoutResolve signatureProofSender) =>
    if htlc.timeout ≥ blockState.time then some (.error .invalidForSender)
    else if !σ.isSignedBy signatureProofSender htlc.sender then some (.error .invalidSignature)
    else some (.ok ())

/-- `create_new_contract`: the contract holds what its address already had plus the
    transaction's value, which is also the amount the caps are taken of. -/
def createNewContract (tx : Transaction A B S M) (initialBalance : Coin) :
    Option (Except (AccountError A) (HashedTimeLockedContract A B)) :=
  match tx.recipientData with
  | none => some (.error .invalidSerialization)
  | some data =>
    (initialBalance.add tx.value).map fun balance =>
      .ok ⟨balance, data.sender, data.recipient, data.hashRoot, data.hashCount, data.timeout,
        tx.value⟩

/-- Shared by the three entry points below: debit `newBalance` once `can_change_balance`
    allows it. -/
def changeBalance (σ : SignatureScheme A S M) (htlc : HashedTimeLockedContract A B)
    (tx : Transaction A B S M) (blockState : BlockState) (debit : Coin) :
    Option (Except (AccountError A) (HashedTimeLockedContract A B)) :=
  match htlc.balance.safeSub debit with
  | .error e => some (.error (.ofUnderflow e))
  | .ok newBalance =>
    (htlc.canChangeBalance σ tx newBalance blockState).map
      (Except.map fun _ => { htlc with balance := newBalance })

def commitOutgoingTransaction (σ : SignatureScheme A S M) (htlc : HashedTimeLockedContract A B)
    (tx : Transaction A B S M) (blockState : BlockState) :
    Option (Except (AccountError A) (HashedTimeLockedContract A B)) :=
  htlc.changeBalance σ tx blockState tx.totalValue

def commitFailedTransaction (σ : SignatureScheme A S M) (htlc : HashedTimeLockedContract A B)
    (tx : Transaction A B S M) (blockState : BlockState) :
    Option (Except (AccountError A) (HashedTimeLockedContract A B)) :=
  htlc.changeBalance σ tx blockState tx.fee

def reserveBalance (σ : SignatureScheme A S M) (htlc : HashedTimeLockedContract A B)
    (tx : Transaction A B S M) (reservedBalance : ReservedBalance A) (blockState : BlockState) :
    Option (Except (AccountError A) (ReservedBalance A)) :=
  match reservedBalance.balance.checkedAdd tx.totalValue with
  | none => some (.error .invalidCoinValue)
  | some needed =>
    match htlc.balance.safeSub needed with
    | .error e => some (.error (.ofUnderflow e))
    | .ok newBalance =>
      (htlc.canChangeBalance σ tx newBalance blockState).map
        (Except.bind · fun _ => reservedBalance.reserve htlc.balance tx.totalValue)

end HashedTimeLockedContract

/-- What `floor().max(0) as u64` makes of a double: nothing of a nonpositive one, and
    more of a larger one. -/
theorem toU64_mono {x y : ℚ} (le : x ≤ y) :
    min (max ⌊x⌋ 0).toNat (2 ^ 64 - 1) ≤ min (max ⌊y⌋ 0).toNat (2 ^ 64 - 1) := by
  have floors := Int.floor_mono le
  apply min_le_min_right
  exact Int.toNat_le_toNat (max_le_max_right 0 floors)

theorem toU64_of_nonpos {x : ℚ} (nonpos : x ≤ 0) : min (max ⌊x⌋ 0).toNat (2 ^ 64 - 1) = 0 := by
  have floor : ⌊x⌋ ≤ 0 := Int.floor_nonpos nonpos
  simp [max_eq_right floor]

theorem capRatio_le_one (d h : Nat) : Binary64.sub 1 (Binary64.div d h) ≤ 1 := by
  have quotient : 0 ≤ Binary64.div d h := Binary64.round_nonneg (by positivity)
  rcases le_or_gt 0 (1 - Binary64.div d h) with nonneg | neg
  · calc Binary64.sub 1 (Binary64.div d h) ≤ Binary64.round ((1 : ℕ) : ℚ) :=
          Binary64.round_mono nonneg (by push_cast; linarith)
      _ = 1 := by rw [Binary64.round_natCast (by norm_num)]; rfl
  · exact (Binary64.round_nonpos neg.le).trans zero_le_one

theorem minCapValue_le (d h : Nat) {T : Nat} (small : T < 2 ^ 53) : minCapValue d h T ≤ T := by
  unfold minCapValue
  split
  · exact Nat.zero_le T
  · have total : Binary64.ofNat T = T := Binary64.ofNat_eq small
    set r := Binary64.sub 1 (Binary64.div d h)
    rcases le_or_gt 0 r with nonneg | neg
    · -- a ratio in `[0, 1]` takes at most the whole amount, which rounds to itself
      have product : Binary64.mul r (Binary64.ofNat T) ≤ T := by
        rw [total, Binary64.mul]
        calc Binary64.round (r * T) ≤ Binary64.round (T : ℕ) :=
              Binary64.round_mono (by positivity)
                (mul_le_of_le_one_left (Nat.cast_nonneg T) (capRatio_le_one d h))
          _ = T := Binary64.round_natCast small
      have floor : ⌊Binary64.mul r (Binary64.ofNat T)⌋ ≤ T := (Int.floor_mono product).trans_eq (Int.floor_natCast T)
      have : (max ⌊Binary64.mul r (Binary64.ofNat T)⌋ 0).toNat ≤ T := by omega
      exact (min_le_left _ _).trans this
    · have product : Binary64.mul r (Binary64.ofNat T) ≤ 0 := by
        rw [total]
        exact Binary64.round_nonpos (mul_nonpos_of_nonpos_of_nonneg neg.le (Nat.cast_nonneg T))
      rw [toU64_of_nonpos product]
      exact Nat.zero_le T

/-- A deeper pre-image lowers the cap: every float step keeps the order. -/
theorem minCapValue_antitone {d d' : Nat} (le : d ≤ d') (h T : Nat) :
    minCapValue d' h T ≤ minCapValue d h T := by
  unfold minCapValue
  split
  · exact le_rfl
  · rename_i nonzero
    have quotients : Binary64.div d h ≤ Binary64.div d' h :=
      Binary64.round_mono (by positivity) (div_le_div_of_nonneg_right (by exact_mod_cast le) (by positivity))
    have total : 0 ≤ Binary64.ofNat T := Binary64.round_nonneg (Nat.cast_nonneg T)
    dsimp only
    rcases le_or_gt 0 (1 - Binary64.div d' h) with nonneg | neg
    · -- both ratios are nonnegative, the deeper one the smaller
      have ratios : Binary64.sub 1 (Binary64.div d' h) ≤ Binary64.sub 1 (Binary64.div d h) :=
        Binary64.round_mono nonneg (by linarith)
      have ratio : 0 ≤ Binary64.sub 1 (Binary64.div d' h) := Binary64.round_nonneg nonneg
      apply toU64_mono
      exact Binary64.round_mono (mul_nonneg ratio total) (mul_le_mul_of_nonneg_right ratios total)
    · -- the deeper ratio is negative, and so is its product with the amount
      have ratio : Binary64.sub 1 (Binary64.div d' h) ≤ 0 := Binary64.round_nonpos neg.le
      have product : Binary64.mul (Binary64.sub 1 (Binary64.div d' h)) (Binary64.ofNat T) ≤ 0 :=
        Binary64.round_nonpos (mul_nonpos_of_nonpos_of_nonneg ratio total)
      rw [toU64_of_nonpos product]
      exact Nat.zero_le _

namespace HashedTimeLockedContract

/-- The coin `Coin::try_from` makes of the cap at depth `d`: it never exceeds the
    total amount, so the conversion cannot fail. -/
def minCapCoin (htlc : HashedTimeLockedContract A B) (d : Nat) : Coin :=
  ⟨minCapValue d htlc.hashCount htlc.totalAmount.val,
    (minCapValue_le _ _ htlc.totalAmount.lt_two_pow).trans htlc.totalAmount.le_max⟩

theorem tryFrom_minCapValue (htlc : HashedTimeLockedContract A B) (d : Nat) :
    Coin.tryFrom (minCapValue d htlc.hashCount htlc.totalAmount.val) = .ok (htlc.minCapCoin d) :=
  Coin.tryFrom_of_le _

/-- The result of a regular transfer below its cap: the `InsufficientFunds` error,
    built with the panicking `Sub`. -/
def belowCap (htlc : HashedTimeLockedContract A B) (minCap newBalance : Coin) :
    Option (Except (AccountError A) Unit) :=
  (htlc.balance.sub minCap).bind fun balance =>
    (htlc.balance.sub newBalance).map fun needed => .error (.insufficientFunds needed balance)

theorem belowCap_eq_none {htlc : HashedTimeLockedContract A B} {minCap newBalance : Coin}
    (le : newBalance.val ≤ htlc.balance.val) :
    htlc.belowCap minCap newBalance = none ↔ htlc.balance.val < minCap.val := by
  have kept : htlc.balance.sub newBalance ≠ none := by
    rw [Coin.sub, Ne, Coin.checkedSub_eq_none]
    omega
  unfold belowCap
  cases cap : htlc.balance.sub minCap with
  | none =>
    rw [Coin.sub, Coin.checkedSub_eq_none] at cap
    simp [cap]
  | some b =>
    rw [Coin.sub, Coin.checkedSub_eq_some] at cap
    rw [Option.bind_some, Option.map_eq_none_iff]
    exact ⟨fun panics => absurd panics kept, fun lt => by omega⟩

theorem belowCap_ne_ok (htlc : HashedTimeLockedContract A B) (minCap newBalance : Coin) :
    htlc.belowCap minCap newBalance ≠ some (.ok ()) := by
  unfold belowCap
  cases htlc.balance.sub minCap <;> cases htlc.balance.sub newBalance <;> simp

variable [DecidableEq A] [DecidableEq B]

/-- The checks a regular transfer passes before its cap is compared. -/
def RegularChecks (σ : SignatureScheme A S M) (htlc : HashedTimeLockedContract A B)
    (blockState : BlockState) (hashRoot : AnyHash B) (signatureProof : S) : Prop :=
  blockState.time ≤ htlc.timeout ∧ hashRoot = htlc.hashRoot ∧
    σ.isSignedBy signatureProof htlc.recipient = true


theorem canChangeBalance_regular (σ : SignatureScheme A S M) (htlc : HashedTimeLockedContract A B)
    {tx : Transaction A B S M} (newBalance : Coin) {blockState : BlockState} {d : Nat}
    {root : AnyHash B} {pre : B} {sig : S}
    (proof : tx.proof = some (.regularTransfer d root pre sig))
    (checks : RegularChecks σ htlc blockState root sig) :
    htlc.canChangeBalance σ tx newBalance blockState =
      if newBalance < htlc.minCapCoin d then htlc.belowCap (htlc.minCapCoin d) newBalance
      else some (.ok ()) := by
  obtain ⟨time, rfl, signed⟩ := checks
  simp only [canChangeBalance, proof, tryFrom_minCapValue, signed, belowCap]
  simp [Nat.not_lt.mpr time]

theorem canChangeBalance_unchecked (σ : SignatureScheme A S M) (htlc : HashedTimeLockedContract A B)
    {tx : Transaction A B S M} (newBalance : Coin) {blockState : BlockState} {d : Nat}
    {root : AnyHash B} {pre : B} {sig : S}
    (proof : tx.proof = some (.regularTransfer d root pre sig))
    (fails : ¬ RegularChecks σ htlc blockState root sig) :
    ∃ e, htlc.canChangeBalance σ tx newBalance blockState = some (.error e) := by
  simp only [canChangeBalance, proof]
  unfold RegularChecks at fails
  split_ifs with time root signed
  · exact ⟨_, rfl⟩
  · exact ⟨_, rfl⟩
  · exact ⟨_, rfl⟩
  · simp only [Bool.not_eq_true', Bool.not_eq_false] at signed
    exact absurd ⟨Nat.not_lt.mp time, not_not.mp root, signed⟩ fails

theorem canChangeBalance_isSome (σ : SignatureScheme A S M) (htlc : HashedTimeLockedContract A B)
    {tx : Transaction A B S M} (newBalance : Coin) (blockState : BlockState)
    (notRegular : ∀ d root pre sig, tx.proof ≠ some (.regularTransfer d root pre sig)) :
    (htlc.canChangeBalance σ tx newBalance blockState).isSome := by
  unfold canChangeBalance
  rcases proof : tx.proof with _ | ⟨d, root, pre, sig⟩ | ⟨r, s⟩ | ⟨s⟩
  · rfl
  · exact absurd proof (notRegular d root pre sig)
  · dsimp only
    split <;> rfl
  · dsimp only
    split_ifs <;> rfl


/-- `can_change_balance` panics exactly on a regular transfer that passes its checks
    while the balance is already below the cap of its depth (given a `new_balance`
    within the balance, as every caller passes). -/
theorem canChangeBalance_eq_none_iff (σ : SignatureScheme A S M)
    (htlc : HashedTimeLockedContract A B) (tx : Transaction A B S M) {newBalance : Coin}
    (blockState : BlockState) (le : newBalance.val ≤ htlc.balance.val) :
    htlc.canChangeBalance σ tx newBalance blockState = none ↔
      ∃ d root pre sig, tx.proof = some (.regularTransfer d root pre sig) ∧
        RegularChecks σ htlc blockState root sig ∧
        htlc.balance.val < minCapValue d htlc.hashCount htlc.totalAmount.val := by
  constructor
  · intro panics
    by_cases regular : ∃ d root pre sig, tx.proof = some (.regularTransfer d root pre sig)
    · obtain ⟨d, root, pre, sig, proof⟩ := regular
      by_cases checks : RegularChecks σ htlc blockState root sig
      · rw [canChangeBalance_regular σ htlc newBalance proof checks] at panics
        split at panics
        · exact ⟨d, root, pre, sig, proof, checks, (belowCap_eq_none le).mp panics⟩
        · cases panics
      · obtain ⟨e, rejected⟩ := canChangeBalance_unchecked σ htlc newBalance proof checks
        rw [rejected] at panics
        cases panics
    · simp only [not_exists] at regular
      have answers := canChangeBalance_isSome σ htlc newBalance blockState regular
      rw [panics] at answers
      cases answers
  · rintro ⟨d, root, pre, sig, proof, checks, below⟩
    have under : newBalance < htlc.minCapCoin d := by
      simp only [Coin.lt_def, minCapCoin]
      omega
    rw [canChangeBalance_regular σ htlc newBalance proof checks, if_pos under]
    exact (belowCap_eq_none le).mpr below

theorem canChangeBalance_ok_cap {σ : SignatureScheme A S M} {htlc : HashedTimeLockedContract A B}
    {tx : Transaction A B S M} {newBalance : Coin} {blockState : BlockState} {d : Nat}
    {root : AnyHash B} {pre : B} {sig : S}
    (ok : htlc.canChangeBalance σ tx newBalance blockState = some (.ok ()))
    (proof : tx.proof = some (.regularTransfer d root pre sig)) :
    minCapValue d htlc.hashCount htlc.totalAmount.val ≤ newBalance.val := by
  by_cases checks : RegularChecks σ htlc blockState root sig
  · rw [canChangeBalance_regular σ htlc newBalance proof checks] at ok
    split at ok
    · exact absurd ok (belowCap_ne_ok _ _ _)
    · rename_i above
      simpa [minCapCoin] using above
  · obtain ⟨e, rejected⟩ := canChangeBalance_unchecked σ htlc newBalance proof checks
    rw [rejected] at ok
    cases ok

/-- What a successful debit did: the debit fit, `can_change_balance` allowed the new
    balance, and nothing but the balance changed. -/
theorem changeBalance_ok {σ : SignatureScheme A S M} {htlc htlc' : HashedTimeLockedContract A B}
    {tx : Transaction A B S M} {blockState : BlockState} {debit : Coin}
    (ok : htlc.changeBalance σ tx blockState debit = some (.ok htlc')) :
    ∃ newBalance : Coin, newBalance.val = htlc.balance.val - debit.val ∧
      htlc.canChangeBalance σ tx newBalance blockState = some (.ok ()) ∧
      htlc' = { htlc with balance := newBalance } := by
  unfold changeBalance at ok
  cases sub : htlc.balance.safeSub debit with
  | error e =>
    rw [sub] at ok
    cases ok
  | ok newBalance =>
    rw [sub] at ok
    dsimp only at ok
    cases allowed : htlc.canChangeBalance σ tx newBalance blockState with
    | none =>
      rw [allowed] at ok
      cases ok
    | some r =>
      rw [allowed] at ok
      cases r with
      | error e => cases ok
      | ok u =>
        simp only [Option.map_some, Except.map, Option.some.injEq, Except.ok.injEq] at ok
        exact ⟨newBalance, (Coin.safeSub_ok.mp sub).2, allowed, ok.symm⟩

theorem changeBalance_ok_cap {σ : SignatureScheme A S M} {htlc htlc' : HashedTimeLockedContract A B}
    {tx : Transaction A B S M} {blockState : BlockState} {debit : Coin} {d : Nat}
    {root : AnyHash B} {pre : B} {sig : S}
    (ok : htlc.changeBalance σ tx blockState debit = some (.ok htlc'))
    (proof : tx.proof = some (.regularTransfer d root pre sig)) :
    minCapValue d htlc'.hashCount htlc'.totalAmount.val ≤ htlc'.balance.val := by
  obtain ⟨newBalance, -, allowed, rfl⟩ := changeBalance_ok ok
  -- the cap is read from the contract before the debit, whose fields the debit keeps
  have cap := canChangeBalance_ok_cap allowed proof
  exact cap

/-- A debit panics exactly when it fits the balance and is a regular transfer that
    passes its checks while the balance is below the cap of its depth. -/
theorem changeBalance_eq_none_iff (σ : SignatureScheme A S M) (htlc : HashedTimeLockedContract A B)
    (tx : Transaction A B S M) (blockState : BlockState) (debit : Coin) :
    htlc.changeBalance σ tx blockState debit = none ↔ debit.val ≤ htlc.balance.val ∧
      ∃ d root pre sig, tx.proof = some (.regularTransfer d root pre sig) ∧
        RegularChecks σ htlc blockState root sig ∧
        htlc.balance.val < minCapValue d htlc.hashCount htlc.totalAmount.val := by
  unfold changeBalance
  cases sub : htlc.balance.safeSub debit with
  | error e =>
    have short := Coin.lt_of_safeSub_error sub
    simp only [reduceCtorEq, false_iff, not_and]
    omega
  | ok newBalance =>
    obtain ⟨fits, val⟩ := Coin.safeSub_ok.mp sub
    rw [Option.map_eq_none_iff, canChangeBalance_eq_none_iff σ htlc tx blockState (by omega)]
    simp only [fits, true_and]

/-- A regular transfer that passes its checks and stays above the cap of its depth is
    debited. -/
theorem changeBalance_regular_ok (σ : SignatureScheme A S M) (htlc : HashedTimeLockedContract A B)
    {tx : Transaction A B S M} {blockState : BlockState} {debit : Coin} {d : Nat}
    {root : AnyHash B} {pre : B} {sig : S}
    (proof : tx.proof = some (.regularTransfer d root pre sig))
    (checks : RegularChecks σ htlc blockState root sig) (fits : debit.val ≤ htlc.balance.val)
    (cap : minCapValue d htlc.hashCount htlc.totalAmount.val ≤ htlc.balance.val - debit.val) :
    htlc.changeBalance σ tx blockState debit = some (.ok { htlc with
      balance := ⟨htlc.balance.val - debit.val, (Nat.sub_le _ _).trans htlc.balance.le_max⟩ }) := by
  have sub : htlc.balance.safeSub debit =
      .ok ⟨htlc.balance.val - debit.val, (Nat.sub_le _ _).trans htlc.balance.le_max⟩ :=
    Coin.safeSub_ok.mpr ⟨fits, rfl⟩
  have above : ¬ (⟨htlc.balance.val - debit.val, (Nat.sub_le _ _).trans htlc.balance.le_max⟩ : Coin) <
      htlc.minCapCoin d := by
    simp only [Coin.lt_def, minCapCoin, not_lt]
    exact cap
  unfold changeBalance
  rw [sub]
  dsimp only
  rw [canChangeBalance_regular σ htlc _ proof checks, if_neg above]
  rfl

/-- `reserve_balance` panics under the same condition, for the debit of the reserved
    amount plus the transaction's total value. -/
theorem reserveBalance_eq_none_iff (σ : SignatureScheme A S M) (htlc : HashedTimeLockedContract A B)
    (tx : Transaction A B S M) (reservedBalance : ReservedBalance A) (blockState : BlockState) :
    htlc.reserveBalance σ tx reservedBalance blockState = none ↔
      ∃ needed, reservedBalance.balance.checkedAdd tx.totalValue = some needed ∧
        htlc.changeBalance σ tx blockState needed = none := by
  unfold reserveBalance
  cases add : reservedBalance.balance.checkedAdd tx.totalValue with
  | none => simp
  | some needed =>
    simp only [Option.some.injEq, exists_eq_left', changeBalance]
    cases htlc.balance.safeSub needed with
    | error e => simp
    | ok newBalance => simp only [Option.map_eq_none_iff]

/-- Every entry point panics exactly when its debit fits the balance and the
    transaction is a regular transfer that passes its checks while the balance is below
    the cap of its depth; the debit is the total value for `commit_outgoing_transaction`,
    the fee for `commit_failed_transaction`, and the reserved amount plus the total value
    for `reserve_balance`. -/
theorem entry_points_eq_none_iff (σ : SignatureScheme A S M) (htlc : HashedTimeLockedContract A B)
    (tx : Transaction A B S M) (reservedBalance : ReservedBalance A) (blockState : BlockState) :
    (htlc.commitOutgoingTransaction σ tx blockState = none ↔ tx.totalValue.val ≤ htlc.balance.val ∧
      ∃ d root pre sig, tx.proof = some (.regularTransfer d root pre sig) ∧
        RegularChecks σ htlc blockState root sig ∧
        htlc.balance.val < minCapValue d htlc.hashCount htlc.totalAmount.val) ∧
    (htlc.commitFailedTransaction σ tx blockState = none ↔ tx.fee.val ≤ htlc.balance.val ∧
      ∃ d root pre sig, tx.proof = some (.regularTransfer d root pre sig) ∧
        RegularChecks σ htlc blockState root sig ∧
        htlc.balance.val < minCapValue d htlc.hashCount htlc.totalAmount.val) ∧
    (htlc.reserveBalance σ tx reservedBalance blockState = none ↔
      ∃ needed : Coin, reservedBalance.balance.checkedAdd tx.totalValue = some needed ∧
        needed.val ≤ htlc.balance.val ∧
        ∃ d root pre sig, tx.proof = some (.regularTransfer d root pre sig) ∧
          RegularChecks σ htlc blockState root sig ∧
          htlc.balance.val < minCapValue d htlc.hashCount htlc.totalAmount.val) := by
  refine ⟨changeBalance_eq_none_iff σ htlc tx blockState _, changeBalance_eq_none_iff σ htlc tx blockState _, ?_⟩
  rw [reserveBalance_eq_none_iff]
  constructor
  · rintro ⟨needed, added, panics⟩
    exact ⟨needed, added, (changeBalance_eq_none_iff σ htlc tx blockState needed).mp panics⟩
  · rintro ⟨needed, added, belowCap⟩
    exact ⟨needed, added, (changeBalance_eq_none_iff σ htlc tx blockState needed).mpr belowCap⟩

/-- Contracts as accounts see them: created, then changed by any number of successful
    outgoing and failed transactions. -/
inductive Reachable (σ : SignatureScheme A S M) : HashedTimeLockedContract A B → Prop
  | created {tx : Transaction A B S M} {initialBalance : Coin} {htlc : HashedTimeLockedContract A B} :
      createNewContract tx initialBalance = some (.ok htlc) → Reachable σ htlc
  | outgoing {htlc htlc' : HashedTimeLockedContract A B} {tx : Transaction A B S M}
      {blockState : BlockState} :
      Reachable σ htlc → htlc.commitOutgoingTransaction σ tx blockState = some (.ok htlc') →
      Reachable σ htlc'
  | failed {htlc htlc' : HashedTimeLockedContract A B} {tx : Transaction A B S M}
      {blockState : BlockState} :
      Reachable σ htlc → htlc.commitFailedTransaction σ tx blockState = some (.ok htlc') →
      Reachable σ htlc'

/-- Runs of regular transfers only, with the depth of the last one accepted (zero at
    creation, whose whole balance is above every cap). -/
inductive RegularRun (σ : SignatureScheme A S M) : HashedTimeLockedContract A B → Nat → Prop
  | created {tx : Transaction A B S M} {initialBalance : Coin} {htlc : HashedTimeLockedContract A B} :
      createNewContract tx initialBalance = some (.ok htlc) → RegularRun σ htlc 0
  | transfer {htlc htlc' : HashedTimeLockedContract A B} {d d' : Nat} {tx : Transaction A B S M}
      {blockState : BlockState} {debit : Coin} {root : AnyHash B} {pre : B} {sig : S} :
      RegularRun σ htlc d → tx.proof = some (.regularTransfer d' root pre sig) →
      debit = tx.totalValue ∨ debit = tx.fee →
      htlc.changeBalance σ tx blockState debit = some (.ok htlc') → RegularRun σ htlc' d'

omit [DecidableEq A] [DecidableEq B] in
theorem createNewContract_ok {tx : Transaction A B S M} {initialBalance : Coin}
    {htlc : HashedTimeLockedContract A B}
    (ok : createNewContract tx initialBalance = some (.ok htlc)) :
    htlc.totalAmount = tx.value ∧ htlc.balance.val = initialBalance.val + tx.value.val := by
  unfold createNewContract at ok
  cases data : tx.recipientData with
  | none =>
    rw [data] at ok
    cases ok
  | some data =>
    rw [data] at ok
    cases add : initialBalance.add tx.value with
    | none =>
      rw [add] at ok
      cases ok
    | some balance =>
      rw [add] at ok
      simp only [Option.map_some, Option.some.injEq, Except.ok.injEq] at ok
      subst ok
      exact ⟨rfl, Coin.checkedAdd_eq_some.mp add⟩

/-- Run lemma: after regular transfers only, the balance covers the cap of the last
    accepted depth. -/
theorem RegularRun.cap_le_balance {σ : SignatureScheme A S M} {htlc : HashedTimeLockedContract A B}
    {d : Nat} (run : RegularRun σ htlc d) :
    minCapValue d htlc.hashCount htlc.totalAmount.val ≤ htlc.balance.val := by
  induction run with
  | @created tx initialBalance htlc ok =>
    obtain ⟨total, balance⟩ := createNewContract_ok ok
    have capped := minCapValue_le 0 htlc.hashCount htlc.totalAmount.lt_two_pow
    rw [total] at capped ⊢
    omega
  | transfer _ proof _ ok _ => exact changeBalance_ok_cap ok proof

/-- After regular transfers only, no entry point panics on a regular transfer at least
    as deep as the last one accepted: its cap is below the one the balance covers. -/
theorem RegularRun.never_panics {σ : SignatureScheme A S M} {htlc : HashedTimeLockedContract A B}
    {d d' : Nat} (run : RegularRun σ htlc d) (deeper : d ≤ d') {tx : Transaction A B S M}
    {root : AnyHash B} {pre : B} {sig : S} (proof : tx.proof = some (.regularTransfer d' root pre sig))
    (blockState : BlockState) (reservedBalance : ReservedBalance A) :
    htlc.commitOutgoingTransaction σ tx blockState ≠ none ∧
      htlc.commitFailedTransaction σ tx blockState ≠ none ∧
      htlc.reserveBalance σ tx reservedBalance blockState ≠ none := by
  have covered := (minCapValue_antitone deeper htlc.hashCount htlc.totalAmount.val).trans
    run.cap_le_balance
  have debited : ∀ debit, htlc.changeBalance σ tx blockState debit ≠ none := by
    intro debit
    rw [Ne, changeBalance_eq_none_iff]
    rintro ⟨-, d'', root', pre', sig', proof', -, below⟩
    rw [proof] at proof'
    cases proof'
    omega
  refine ⟨debited _, debited _, ?_⟩
  rw [Ne, reserveBalance_eq_none_iff]
  rintro ⟨needed, -, panics⟩
  exact debited needed panics

/-- A regular transfer at full depth takes 60 of a 100-coin contract with `hash_count`
    2, as its cap (zero) allows. Hashing its pre-image once gives a proof of depth 1
    that `verify` accepts; its cap (50) is above the 40 left, so the `InsufficientFunds`
    error underflows while it is built, and every entry point panics. Any hash function
    and any signature scheme in which the recipient can sign will do. -/
theorem shallower_transfer_panics (digest : HashAlgorithm → B → B) (σ : SignatureScheme A S M)
    (sender recipient contract : A) (preImage : B) (content₁ content₂ : M)
    (signs : ∀ m, ∃ s, σ.computeSigner s = recipient ∧ σ.verify s m = true) :
    ∃ (htlc : HashedTimeLockedContract A B) (tx : Transaction A B S M)
      (p : OutgoingHTLCTransactionProof B S),
      Reachable σ htlc ∧ tx.proof = some p ∧ p.verify digest σ tx = .ok () ∧
      htlc.commitOutgoingTransaction σ tx ⟨0, 0⟩ = none ∧
      htlc.commitFailedTransaction σ tx ⟨0, 0⟩ = none ∧
      htlc.reserveBalance σ tx (ReservedBalance.new contract) ⟨0, 0⟩ = none := by
  obtain ⟨sig₁, signer₁, -⟩ := signs content₁
  obtain ⟨sig₂, signer₂, valid₂⟩ := signs content₂
  let root : AnyHash B := ⟨.blake2b, hashChain digest .blake2b 2 preImage⟩
  let creation : Transaction A B S M :=
    ⟨sender, contract, ⟨100, by decide⟩, Coin.zero, some ⟨sender, recipient, root, 2, 0⟩, none,
      content₁⟩
  let htlc₀ : HashedTimeLockedContract A B :=
    ⟨⟨100, by decide⟩, sender, recipient, root, 2, 0, ⟨100, by decide⟩⟩
  -- the full-depth transfer of 60, and the depth-1 transfer of 10 built from its pre-image
  let tx₁ : Transaction A B S M :=
    ⟨contract, recipient, ⟨60, by decide⟩, Coin.zero, none,
      some (.regularTransfer 2 root preImage sig₁), content₁⟩
  let p₂ : OutgoingHTLCTransactionProof B S :=
    .regularTransfer 1 root (digest .blake2b preImage) sig₂
  let tx₂ : Transaction A B S M :=
    ⟨contract, recipient, ⟨10, by decide⟩, Coin.zero, none, some p₂, content₂⟩
  have created : createNewContract creation Coin.zero = some (.ok htlc₀) := rfl
  have signed : ∀ sig, σ.computeSigner sig = recipient → σ.isSignedBy sig recipient = true := by
    intro sig signer
    simp [SignatureScheme.isSignedBy, signer]
  have first : htlc₀.commitOutgoingTransaction σ tx₁ ⟨0, 0⟩ =
      some (.ok { htlc₀ with balance := ⟨40, by decide⟩ }) := by
    refine changeBalance_regular_ok σ htlc₀ rfl ⟨le_refl 0, rfl, signed sig₁ signer₁⟩ ?_ ?_
    · show 60 ≤ 100
      omega
    · show minCapValue 2 2 100 ≤ 100 - 60
      -- `2 / 2`, `1 - 1` and `0 * 100` are exact in binary64
      have full : minCapValue 2 2 100 = 0 := by
        norm_num [minCapValue, Binary64.div, Binary64.sub, Binary64.mul, Binary64.ofNat]
      omega
  let htlc₁ : HashedTimeLockedContract A B := { htlc₀ with balance := ⟨40, by decide⟩ }
  have checks₂ : RegularChecks σ htlc₁ ⟨0, 0⟩ root sig₂ := ⟨le_refl 0, rfl, signed sig₂ signer₂⟩
  have below : htlc₁.balance.val < minCapValue 1 htlc₁.hashCount htlc₁.totalAmount.val := by
    show 40 < minCapValue 1 2 100
    -- `1 / 2`, `1 - 1 / 2` and `1 / 2 * 100` are exact in binary64
    have half : Binary64.round (1 / 2) = 1 / 2 := by
      have exact := Binary64.round_exact 1 (-1) (by norm_num)
      norm_num at exact
      exact exact
    have hundred : Binary64.round 100 = 100 := Binary64.round_ofNat 100 (by norm_num)
    have fifty : Binary64.round 50 = 50 := Binary64.round_ofNat 50 (by norm_num)
    have cap : minCapValue 1 2 100 = 50 := by
      norm_num [minCapValue, Binary64.div, Binary64.sub, Binary64.mul, Binary64.ofNat, half, hundred, fifty]
      rfl
    omega
  have panics : ∀ debit : Coin, debit.val ≤ 40 → htlc₁.changeBalance σ tx₂ ⟨0, 0⟩ debit = none :=
    fun debit fits =>
      (changeBalance_eq_none_iff σ htlc₁ tx₂ ⟨0, 0⟩ debit).mpr ⟨fits, _, _, _, _, rfl, checks₂, below⟩
  have verified : p₂.verify digest σ tx₂ = .ok () :=
    (verify_regularTransfer digest σ tx₂ 1 root _ sig₂).mpr
      ⟨(hashChain_succ digest .blake2b 1 preImage).symm, valid₂⟩
  have reserved : (ReservedBalance.new contract).balance.checkedAdd tx₂.totalValue =
      some ⟨10, by decide⟩ := rfl
  refine ⟨htlc₁, tx₂, p₂, .outgoing (.created created) first, rfl, verified, ?_, ?_, ?_⟩
  · exact panics tx₂.totalValue (by show 10 ≤ 40; omega)
  · exact panics tx₂.fee (by show 0 ≤ 40; omega)
  · exact (reserveBalance_eq_none_iff σ htlc₁ tx₂ _ _).mpr
      ⟨_, reserved, panics _ (by show 10 ≤ 40; omega)⟩

end HashedTimeLockedContract

/-- The failing input with the hash `b ↦ b + 1` and signatures that name their signer. -/
theorem shallower_transfer_panics_counting_hash :
    (∀ m : Nat, ∃ s : Nat, (⟨id, fun _ _ => true⟩ : SignatureScheme Nat Nat Nat).computeSigner s = 7 ∧
      (⟨id, fun _ _ => true⟩ : SignatureScheme Nat Nat Nat).verify s m = true) ∧
    ∃ (htlc : HashedTimeLockedContract Nat Nat) (tx : Transaction Nat Nat Nat Nat)
      (p : OutgoingHTLCTransactionProof Nat Nat),
      HashedTimeLockedContract.Reachable (⟨id, fun _ _ => true⟩ : SignatureScheme Nat Nat Nat) htlc ∧
      tx.proof = some p ∧
      p.verify (fun _ b => b + 1) (⟨id, fun _ _ => true⟩ : SignatureScheme Nat Nat Nat) tx = .ok () ∧
      htlc.commitOutgoingTransaction (⟨id, fun _ _ => true⟩ : SignatureScheme Nat Nat Nat) tx
        ⟨0, 0⟩ = none ∧
      htlc.commitFailedTransaction (⟨id, fun _ _ => true⟩ : SignatureScheme Nat Nat Nat) tx
        ⟨0, 0⟩ = none ∧
      htlc.reserveBalance (⟨id, fun _ _ => true⟩ : SignatureScheme Nat Nat Nat) tx
        (ReservedBalance.new 9) ⟨0, 0⟩ = none :=
  ⟨fun _ => ⟨7, rfl, rfl⟩,
    HashedTimeLockedContract.shallower_transfer_panics (fun _ b => b + 1) ⟨id, fun _ _ => true⟩
      1 7 9 3 0 0 (fun _ => ⟨7, rfl, rfl⟩)⟩

/-- A fresh contract of 100 over two hashes takes a depth-1 transfer without a panic. -/
theorem fresh_contract_never_panics :
    HashedTimeLockedContract.RegularRun (⟨id, fun _ _ => true⟩ : SignatureScheme Nat Nat Nat)
      (⟨⟨100, by decide⟩, 0, 7, ⟨.blake2b, 2⟩, 2, 0, ⟨100, by decide⟩⟩ :
        HashedTimeLockedContract Nat Nat) 0 ∧
    0 ≤ 1 ∧
    (⟨9, 7, ⟨10, by decide⟩, Coin.zero, none, some (.regularTransfer 1 ⟨.blake2b, 2⟩ 1 7), 0⟩ :
      Transaction Nat Nat Nat Nat).proof = some (.regularTransfer 1 ⟨.blake2b, 2⟩ 1 7) ∧
    ((⟨⟨100, by decide⟩, 0, 7, ⟨.blake2b, 2⟩, 2, 0, ⟨100, by decide⟩⟩ :
        HashedTimeLockedContract Nat Nat).commitOutgoingTransaction ⟨id, fun _ _ => true⟩
          ⟨9, 7, ⟨10, by decide⟩, Coin.zero, none, some (.regularTransfer 1 ⟨.blake2b, 2⟩ 1 7), 0⟩
          ⟨0, 0⟩ ≠ none ∧
      (⟨⟨100, by decide⟩, 0, 7, ⟨.blake2b, 2⟩, 2, 0, ⟨100, by decide⟩⟩ :
        HashedTimeLockedContract Nat Nat).commitFailedTransaction ⟨id, fun _ _ => true⟩
          ⟨9, 7, ⟨10, by decide⟩, Coin.zero, none, some (.regularTransfer 1 ⟨.blake2b, 2⟩ 1 7), 0⟩
          ⟨0, 0⟩ ≠ none ∧
      (⟨⟨100, by decide⟩, 0, 7, ⟨.blake2b, 2⟩, 2, 0, ⟨100, by decide⟩⟩ :
        HashedTimeLockedContract Nat Nat).reserveBalance ⟨id, fun _ _ => true⟩
          ⟨9, 7, ⟨10, by decide⟩, Coin.zero, none, some (.regularTransfer 1 ⟨.blake2b, 2⟩ 1 7), 0⟩
          (ReservedBalance.new 9) ⟨0, 0⟩ ≠ none) := by
  have run : HashedTimeLockedContract.RegularRun (⟨id, fun _ _ => true⟩ : SignatureScheme Nat Nat Nat)
      (⟨⟨100, by decide⟩, 0, 7, ⟨.blake2b, 2⟩, 2, 0, ⟨100, by decide⟩⟩ :
        HashedTimeLockedContract Nat Nat) 0 :=
    .created (show HashedTimeLockedContract.createNewContract
      (⟨0, 9, ⟨100, by decide⟩, Coin.zero, some ⟨0, 7, ⟨.blake2b, 2⟩, 2, 0⟩, none, 0⟩ :
        Transaction Nat Nat Nat Nat) Coin.zero = _ from rfl)
  exact ⟨run, Nat.zero_le 1, rfl, run.never_panics (Nat.zero_le 1) rfl ⟨0, 0⟩ (ReservedBalance.new 9)⟩

end Albatross.Htlc
