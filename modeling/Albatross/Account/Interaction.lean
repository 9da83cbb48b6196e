import Albatross.Primitives.Coin

/- What every account type shares when it interacts with a transaction
   (primitives/account/src/interaction_traits.rs, reserved_balance.rs and the error
   enums of primitives/src/account.rs and transaction.rs). Deserialization errors
   carry no payload here; addresses are a type `A` with decidable equality. -/
namespace Albatross

inductive AccountType
  | basic
  | vesting
  | htlc
  | staking
  deriving DecidableEq, Repr

inductive TransactionError
  | foreignNetwork
  | zeroValue
  | invalidValue
  | overflow
  | senderEqualsRecipient
  | invalidForSender
  | invalidProof
  | invalidForRecipient
  | invalidData
  | invalidSerialization
  deriving DecidableEq, Repr

inductive AccountError (A : Type)
  | insufficientFunds (needed balance : Coin)
  | typeMismatch (expected got : AccountType)
  | invalidSignature
  | invalidForSender
  | invalidForRecipient
  | invalidForTarget
  | invalidReceipt
  | invalidSerialization
  | invalidTransaction (e : TransactionError)
  | invalidCoinValue
  | coinParse
  | coinConvert (e : CoinConvertError)
  | invalidInherent
  | nonExistentAddress (address : A)
  | alreadyExistentAddress (address : A)
  | chunkError
  deriving DecidableEq

/-- `impl From<CoinUnderflowError> for AccountError`. -/
def AccountError.ofUnderflow {A : Type} (err : CoinUnderflowError) : AccountError A :=
  .insufficientFunds err.rhs err.lhs

structure BlockState where
  number : Nat
  time : Nat
  deriving DecidableEq, Repr

/-- `ReservedBalance`: the coins reserved per address by the transactions already
    accepted into a block or the mempool; a missing map entry reads as zero. -/
structure ReservedBalance (A : Type) where
  address : A
  balances : A → Coin

namespace ReservedBalance

variable {A : Type} [DecidableEq A]

def new (address : A) : ReservedBalance A := ⟨address, fun _ => Coin.zero⟩

def balanceFor (r : ReservedBalance A) (address : A) : Coin := r.balances address

def balance (r : ReservedBalance A) : Coin := r.balanceFor r.address

def reserveFor (r : ReservedBalance A) (address : A) (available amount : Coin) :
    Except (AccountError A) (ReservedBalance A) :=
  match (r.balanceFor address).checkedAdd amount with
  | none => .error .invalidCoinValue
  | some needed =>
    if available < needed then .error (.insufficientFunds needed available)
    else .ok { r with balances := Function.update r.balances address needed }

def reserve (r : ReservedBalance A) (available amount : Coin) :
    Except (AccountError A) (ReservedBalance A) :=
  r.reserveFor r.address available amount

/-- A reservation adds `amount` to what the address had reserved, and stays within
    `available`. -/
theorem reserveFor_ok {r r' : ReservedBalance A} {address : A} {available amount : Coin}
    (h : r.reserveFor address available amount = .ok r') :
    (r'.balanceFor address).val = (r.balanceFor address).val + amount.val ∧
      (r'.balanceFor address).val ≤ available.val := by
  unfold reserveFor at h
  split at h
  · cases h
  · rename_i needed sum
    rw [Coin.checkedAdd_eq_some] at sum
    split at h
    · cases h
    · rename_i enough
      simp only [Except.ok.injEq] at h
      subst h
      simp only [balanceFor, Function.update_self] at sum ⊢
      simp only [Coin.lt_def, not_lt] at enough
      omega

/-- `release_for`: the panic "Tried to release more than was reserved" is `none`. -/
def releaseFor (r : ReservedBalance A) (address : A) (amount : Coin) : Option (ReservedBalance A) :=
  ((r.balanceFor address).checkedSub amount).map fun reserved =>
    { r with balances := Function.update r.balances address reserved }

def release (r : ReservedBalance A) (amount : Coin) : Option (ReservedBalance A) :=
  r.releaseFor r.address amount

/-- What a reservation does to the whole map: `amount` more at `address`, the rest
    and the owner unchanged. -/
theorem reserveFor_balances {r r' : ReservedBalance A} {address : A} {available amount : Coin}
    (h : r.reserveFor address available amount = .ok r') :
    r'.address = r.address ∧
      ∀ a, (r'.balanceFor a).val = (r.balanceFor a).val + if a = address then amount.val else 0 := by
  have reserved := (reserveFor_ok h).1
  unfold reserveFor at h
  split at h
  · cases h
  · split at h
    · cases h
    · simp only [Except.ok.injEq] at h
      subst h
      refine ⟨rfl, fun a => ?_⟩
      by_cases here : a = address
      · subst here
        simpa using reserved
      · simp [balanceFor, here]

/-- A release of no more than is reserved at `address` does not panic, and takes
    `amount` off that address only. -/
theorem releaseFor_of_le {r : ReservedBalance A} {address : A} {amount : Coin}
    (enough : amount.val ≤ (r.balanceFor address).val) :
    ∃ r', r.releaseFor address amount = some r' ∧ r'.address = r.address ∧
      ∀ a, (r'.balanceFor a).val + (if a = address then amount.val else 0) = (r.balanceFor a).val := by
  have small : (r.balanceFor address).val - amount.val ≤ maxSafeValue :=
    le_trans (Nat.sub_le _ _) (r.balanceFor address).le_max
  let reserved : Coin := ⟨(r.balanceFor address).val - amount.val, small⟩
  have sub : (r.balanceFor address).checkedSub amount = some reserved := Coin.checkedSub_eq_some.mpr ⟨enough, rfl⟩
  refine ⟨{ r with balances := Function.update r.balances address reserved }, by simp [releaseFor, sub], rfl, ?_⟩
  intro a
  by_cases here : a = address
  · subst here
    simp only [balanceFor, Function.update_self, if_true]
    exact Nat.sub_add_cancel enough
  · simp [balanceFor, here]

end ReservedBalance

end Albatross
