import Albatross.Account.Interaction
import Albatross.Lib.BigEndian

/- The vesting contract (primitives/account/src/account/vesting_contract.rs) and the creation
   data that the creating transaction carries as recipient data
   (primitives/transaction/src/account/vesting_contract.rs). Serialized u64 fields are
   `fixint::be`, a coin is a u64 that `Coin::try_from` accepts, and the owner is the twenty
   bytes of its address. `min_cap` computes in i128, which holds every value it forms from
   u64 inputs, so it is Int here; the owner's signature is what reading the proof gives. -/
namespace Albatross.Vesting

/-- `nimiq_keys::Address`. -/
structure Address where
  bytes : List UInt8
  length_bytes : bytes.length = 20
  deriving DecidableEq

structure CreationTransactionData where
  owner : Address
  startTime : UInt64
  timeStep : UInt64
  stepAmount : Coin
  totalAmount : Coin
  deriving DecidableEq

/-- The `fixint::be` u64 that starts `offset` bytes into the data. -/
def u64At (data : List UInt8) (offset : Nat) : UInt64 :=
  (BigEndian.decode ((data.drop offset).take 8)).toUInt64

/-- A coin field, which the deserializer rejects above `MAX_SAFE_VALUE`. -/
def coinAt (data : List UInt8) (offset : Nat) : Except TransactionError Coin :=
  match Coin.tryFrom (u64At data offset).toNat with
  | .ok coin => .ok coin
  | .error _ => .error .invalidSerialization

def ownerAt (data : List UInt8) (long : 20 ≤ data.length) : Address :=
  ⟨data.take 20, by simp only [List.length_take]; omega⟩

namespace CreationTransactionData

/-- `parse_data`: the length of the data picks one of three layouts. -/
def parseData (data : List UInt8) (txValue : Coin) : Except TransactionError CreationTransactionData :=
  match size : data.length with
  | 28 =>
    -- only the step length: the whole value vests at once
    .ok ⟨ownerAt data (by omega), 0, u64At data 20, txValue, txValue⟩
  | 44 => do
    let stepAmount ← coinAt data 36
    .ok ⟨ownerAt data (by omega), u64At data 20, u64At data 28, stepAmount, txValue⟩
  | 52 => do
    let stepAmount ← coinAt data 36
    let totalAmount ← coinAt data 44
    .ok ⟨ownerAt data (by omega), u64At data 20, u64At data 28, stepAmount, totalAmount⟩
  | _ => .error .invalidData

/-- `to_tx_data`: the short layouts when the step amount is the total. -/
def toTxData (d : CreationTransactionData) : List UInt8 :=
  if d.stepAmount = d.totalAmount then
    if d.startTime = 0 then d.owner.bytes ++ BigEndian.encode 8 d.timeStep.toNat
    else
      d.owner.bytes ++ BigEndian.encode 8 d.startTime.toNat ++ BigEndian.encode 8 d.timeStep.toNat ++
        BigEndian.encode 8 d.stepAmount.val
  else
    d.owner.bytes ++ BigEndian.encode 8 d.startTime.toNat ++ BigEndian.encode 8 d.timeStep.toNat ++
      BigEndian.encode 8 d.stepAmount.val ++ BigEndian.encode 8 d.totalAmount.val

theorem u64At_eq {data : List UInt8} {offset : Nat} {x : UInt64}
    (slice : (data.drop offset).take 8 = BigEndian.encode 8 x.toNat) : u64At data offset = x := by
  have fits : x.toNat < 256 ^ 8 := x.toNat_lt
  rw [u64At, slice, BigEndian.decode_encode_of_lt fits]
  exact UInt64.ofNat_toNat

theorem coinAt_eq {data : List UInt8} {offset : Nat} {c : Coin}
    (slice : (data.drop offset).take 8 = BigEndian.encode 8 c.val) : coinAt data offset = .ok c := by
  have fits : c.val < 256 ^ 8 := by
    have := c.le_max
    unfold maxSafeValue at this
    omega
  have read : (u64At data offset).toNat = c.val := by
    rw [u64At, slice, BigEndian.decode_encode_of_lt fits, UInt64.toNat_ofNat']
    exact Nat.mod_eq_of_lt (by simpa using fits)
  rw [coinAt, read, Coin.tryFrom_val]

theorem ownerAt_eq {data : List UInt8} {long : 20 ≤ data.length} {a : Address}
    (slice : data.take 20 = a.bytes) : ownerAt data long = a := by
  cases a
  simp only [ownerAt, Address.mk.injEq]
  exact slice

section Layouts

variable {data : List UInt8} (txValue : Coin)

theorem parseData_of_length_28 (size : data.length = 28) :
    parseData data txValue = .ok ⟨ownerAt data (by omega), 0, u64At data 20, txValue, txValue⟩ := by
  unfold parseData
  split
  · rfl
  next other => exact absurd (size.symm.trans other) (by decide)
  next other => exact absurd (size.symm.trans other) (by decide)
  next no _ _ => exact absurd size no

theorem parseData_of_length_44 (size : data.length = 44) :
    parseData data txValue = (coinAt data 36).bind fun stepAmount =>
      .ok ⟨ownerAt data (by omega), u64At data 20, u64At data 28, stepAmount, txValue⟩ := by
  unfold parseData
  split
  next other => exact absurd (size.symm.trans other) (by decide)
  · rfl
  next other => exact absurd (size.symm.trans other) (by decide)
  next _ no _ => exact absurd size no

theorem parseData_of_length_52 (size : data.length = 52) :
    parseData data txValue = (coinAt data 36).bind fun stepAmount => (coinAt data 44).bind
      fun totalAmount => .ok ⟨ownerAt data (by omega), u64At data 20, u64At data 28, stepAmount,
        totalAmount⟩ := by
  unfold parseData
  split
  next other => exact absurd (size.symm.trans other) (by decide)
  next other => exact absurd (size.symm.trans other) (by decide)
  · rfl
  next _ _ no => exact absurd size no

end Layouts

/-- What `to_tx_data` writes, `parse_data` reads back, given the total as the transaction's
value (which the short layouts leave out). -/
theorem parseData_toTxData (d : CreationTransactionData) :
    parseData d.toTxData d.totalAmount = .ok d := by
  obtain ⟨⟨owner, twenty⟩, startTime, timeStep, stepAmount, totalAmount⟩ := d
  have owned : ∀ rest : List UInt8, ownerAt (owner ++ rest) (by simp [twenty]) = ⟨owner, twenty⟩ :=
    fun _ => ownerAt_eq (by simp [twenty])
  unfold toTxData
  by_cases short : stepAmount = totalAmount
  · subst short
    by_cases fromZero : startTime = 0
    · subst fromZero
      simp only [if_true]
      rw [parseData_of_length_28 _ (by simp [twenty]), owned, u64At_eq (x := timeStep) (by simp [twenty])]
    · simp only [if_true, fromZero, if_false, List.append_assoc]
      rw [parseData_of_length_44 _ (by simp [twenty]),
        coinAt_eq (c := stepAmount) (by simp [List.drop_append, List.drop_eq_nil_of_le, twenty])]
      dsimp only [Except.bind]
      rw [owned, u64At_eq (x := startTime) (by simp [twenty]),
        u64At_eq (x := timeStep) (by simp [List.drop_append, List.drop_eq_nil_of_le, twenty])]
  · simp only [short, if_false, List.append_assoc]
    rw [parseData_of_length_52 _ (by simp [twenty]),
      coinAt_eq (c := stepAmount) (by simp [List.drop_append, List.drop_eq_nil_of_le, twenty]),
      coinAt_eq (c := totalAmount) (by simp [List.drop_append, List.drop_eq_nil_of_le, twenty])]
    dsimp only [Except.bind]
    rw [owned, u64At_eq (x := startTime) (by simp [twenty]),
      u64At_eq (x := timeStep) (by simp [List.drop_append, List.drop_eq_nil_of_le, twenty])]

end CreationTransactionData

structure VestingContract where
  balance : Coin
  owner : Address
  startTime : UInt64
  timeStep : UInt64
  stepAmount : Coin
  totalAmount : Coin
  deriving DecidableEq

namespace VestingContract

/-- `create_new_contract`: the contract holds the parsed data, and its balance gains the
transaction's value through `Coin`'s `+`, which panics past `MAX_SAFE_VALUE`. -/
def createNewContract {A : Type} (recipientData : List UInt8) (value initialBalance : Coin) :
    Option (Except (AccountError A) VestingContract) :=
  match CreationTransactionData.parseData recipientData value with
  | .error e => some (.error (.invalidTransaction e))
  | .ok data => (initialBalance.add value).map fun balance =>
    .ok ⟨balance, data.owner, data.startTime, data.timeStep, data.stepAmount, data.totalAmount⟩

/-- `min_cap`; `none` is the panic of `Coin::from_u64_unchecked`. -/
def minCap (c : VestingContract) (time : Nat) : Option Coin :=
  if c.timeStep > 0 ∧ c.stepAmount > Coin.zero then
    -- i128 division truncates toward zero, also for a time before the start
    let steps : Int := ((time : Int) - c.startTime.toNat).tdiv c.timeStep.toNat
    let minCap : Int := (c.totalAmount.val : Int) - steps * c.stepAmount.val
    -- `max(0) as u64` keeps the low 64 bits
    (Coin.tryFrom ((max minCap 0).toNat % 2 ^ 64)).toOption
  else some Coin.zero

/-- `can_change_balance`: the cap first, then the owner's signature. Building
`InsufficientFunds` subtracts with `Coin`'s `-`, which panics below zero. -/
def canChangeBalance {A : Type} (c : VestingContract) (signedByOwner : Except (AccountError A) Bool)
    (newBalance : Coin) (blockState : BlockState) : Option (Except (AccountError A) Unit) := do
  let minCap ← c.minCap blockState.time
  if newBalance < minCap then
    let balance ← c.balance.sub minCap
    let needed ← c.balance.sub newBalance
    return .error (.insufficientFunds needed balance)
  else
    return signedByOwner.bind fun signed => if signed then .ok () else .error .invalidSignature

theorem createNewContract_toTxData {A : Type} (d : CreationTransactionData) :
    createNewContract (A := A) d.toTxData d.totalAmount Coin.zero =
      some (.ok ⟨d.totalAmount, d.owner, d.startTime, d.timeStep, d.stepAmount, d.totalAmount⟩) := by
  have added : Coin.zero.add d.totalAmount = some d.totalAmount :=
    Coin.checkedAdd_eq_some.mpr (by simp)
  simp [createNewContract, CreationTransactionData.parseData_toTxData, added]

section Cap

variable {c : VestingContract} {time : Nat}

/-- From the start on, the steps are counted down to the floor and the cap is the total less
the released steps, at least zero. -/
theorem minCap_of_started (releasing : c.timeStep > 0 ∧ c.stepAmount > Coin.zero)
    (started : c.startTime.toNat ≤ time) :
    ∃ cap, c.minCap time = some cap ∧
      cap.val = c.totalAmount.val - (time - c.startTime.toNat) / c.timeStep.toNat * c.stepAmount.val := by
  have steps : ((time : Int) - c.startTime.toNat).tdiv c.timeStep.toNat =
      (((time - c.startTime.toNat) / c.timeStep.toNat : Nat) : Int) := by
    rw [← Int.ofNat_sub started]
    rfl
  rw [minCap, if_pos releasing]
  dsimp only
  rw [steps]
  generalize (time - c.startTime.toNat) / c.timeStep.toNat = k
  have cast : ((k * c.stepAmount.val : Nat) : Int) = (k : Int) * c.stepAmount.val := by push_cast; rfl
  have floor : (max ((c.totalAmount.val : Int) - (k : Int) * c.stepAmount.val) 0).toNat =
      c.totalAmount.val - k * c.stepAmount.val := by omega
  -- what is left of the total is a coin, far below the u64 range
  have small : c.totalAmount.val - k * c.stepAmount.val ≤ maxSafeValue :=
    (Nat.sub_le _ _).trans c.totalAmount.le_max
  rw [floor, Nat.mod_eq_of_lt (by unfold maxSafeValue at small; omega), Coin.tryFrom_of_le small]
  exact ⟨_, rfl, rfl⟩

/-- Before the start, the truncating division counts the whole steps still to come as
negative steps, which the cap adds to the total. -/
theorem minCap_before_start (releasing : c.timeStep > 0 ∧ c.stepAmount > Coin.zero)
    (early : time ≤ c.startTime.toNat) :
    c.minCap time = (Coin.tryFrom ((c.totalAmount.val +
      (c.startTime.toNat - time) / c.timeStep.toNat * c.stepAmount.val) % 2 ^ 64)).toOption := by
  have steps : ((time : Int) - c.startTime.toNat).tdiv c.timeStep.toNat =
      -(((c.startTime.toNat - time) / c.timeStep.toNat : Nat) : Int) := by
    rw [show (time : Int) - c.startTime.toNat = -((c.startTime.toNat - time : Nat) : Int) by omega,
      Int.neg_tdiv]
    rfl
  rw [minCap, if_pos releasing]
  dsimp only
  rw [steps]
  generalize (c.startTime.toNat - time) / c.timeStep.toNat = k
  have cast : ((k * c.stepAmount.val : Nat) : Int) = (k : Int) * c.stepAmount.val := by push_cast; rfl
  have added : (max ((c.totalAmount.val : Int) - -(k : Int) * c.stepAmount.val) 0).toNat =
      c.totalAmount.val + k * c.stepAmount.val := by
    rw [neg_mul]
    omega
  rw [added]

theorem total_lt_minCap_one_step_early (releasing : c.timeStep > 0 ∧ c.stepAmount > Coin.zero)
    (late : c.timeStep.toNat ≤ c.startTime.toNat) {cap : Coin}
    (capped : c.minCap (c.startTime.toNat - c.timeStep.toNat) = some cap) :
    c.totalAmount.val < cap.val := by
  have stepping : 0 < c.timeStep.toNat := by
    simpa using UInt64.lt_iff_toNat_lt.mp releasing.1
  have oneStep : (c.startTime.toNat - (c.startTime.toNat - c.timeStep.toNat)) / c.timeStep.toNat = 1 := by
    rw [Nat.sub_sub_self late, Nat.div_self stepping]
  rw [minCap_before_start releasing (by simp), oneStep, Nat.one_mul] at capped
  have released : 0 < c.stepAmount.val := releasing.2
  have fits : c.totalAmount.val + c.stepAmount.val < 2 ^ 64 := by
    have := c.totalAmount.le_max
    have := c.stepAmount.le_max
    unfold maxSafeValue at *
    omega
  rw [Nat.mod_eq_of_lt fits] at capped
  -- `try_from` either rejects the sum (a panic) or keeps it
  unfold Coin.tryFrom at capped
  split at capped
  · cases capped
    simp only
    omega
  · cases capped

end Cap

/-- A cap above the balance makes a withdrawal below the cap panic: building
`InsufficientFunds` computes `balance - min_cap`. -/
theorem canChangeBalance_panics_above_balance {A : Type} {c : VestingContract}
    {signedByOwner : Except (AccountError A) Bool} {newBalance cap : Coin} {blockState : BlockState}
    (capped : c.minCap blockState.time = some cap) (below : newBalance < cap)
    (short : c.balance.val < cap.val) :
    c.canChangeBalance signedByOwner newBalance blockState = none := by
  have underflow : c.balance.sub cap = none := Coin.checkedSub_eq_none.mpr short
  simp [canChangeBalance, capped, (Coin.lt_def _ _).mp below, underflow]

end VestingContract

/-- A schedule that starts at least one step after time zero: one step before its start,
`min_cap` of the contract it creates is above the total, or panics. -/
theorem min_cap_above_total_one_step_early {A : Type} (d : CreationTransactionData)
    (releasing : d.timeStep > 0 ∧ d.stepAmount > Coin.zero) (late : d.timeStep.toNat ≤ d.startTime.toNat) :
    ∃ c, VestingContract.createNewContract (A := A) d.toTxData d.totalAmount Coin.zero = some (.ok c) ∧
      d.startTime.toNat - d.timeStep.toNat < d.startTime.toNat + d.timeStep.toNat ∧
      ∀ cap, c.minCap (d.startTime.toNat - d.timeStep.toNat) = some cap →
        c.totalAmount.val < cap.val := by
  have stepping : 0 < d.timeStep.toNat := by
    simpa using UInt64.lt_iff_toNat_lt.mp releasing.1
  refine ⟨_, VestingContract.createNewContract_toTxData d, by omega, ?_⟩
  intro cap capped
  exact VestingContract.total_lt_minCap_one_step_early (c := ⟨_, _, _, _, _, _⟩) releasing late capped

/-- The creation data of a schedule starting at time 10 with steps of 1 releasing 1 of 5. -/
def futureSchedule : CreationTransactionData :=
  ⟨⟨List.replicate 20 0, rfl⟩, 10, 1, ⟨1, by decide⟩, ⟨5, by decide⟩⟩

theorem future_schedule_capped_above_total :
    ∃ c, VestingContract.createNewContract (A := Unit) futureSchedule.toTxData futureSchedule.totalAmount
      Coin.zero = some (.ok c) ∧ 9 < 11 ∧ ∀ cap, c.minCap 9 = some cap → c.totalAmount.val < cap.val :=
  min_cap_above_total_one_step_early futureSchedule ⟨by decide, by decide⟩ (by decide)

/-- One step before the start of such a schedule, every withdrawal from the contract it
creates panics in `can_change_balance`. -/
theorem early_withdrawal_panics {A : Type} (d : CreationTransactionData)
    (releasing : d.timeStep > 0 ∧ d.stepAmount > Coin.zero) (late : d.timeStep.toNat ≤ d.startTime.toNat)
    (blockNumber : Nat) :
    ∃ c, VestingContract.createNewContract (A := A) d.toTxData d.totalAmount Coin.zero = some (.ok c) ∧
      ∀ (signedByOwner : Except (AccountError A) Bool) newBalance, newBalance.val < c.balance.val →
        c.canChangeBalance signedByOwner newBalance ⟨blockNumber, d.startTime.toNat - d.timeStep.toNat⟩ =
          none := by
  refine ⟨_, VestingContract.createNewContract_toTxData d, ?_⟩
  intro signedByOwner newBalance withdrawn
  -- the cap panics, or lies above the total, which is the whole balance
  cases capped : VestingContract.minCap
      ⟨d.totalAmount, d.owner, d.startTime, d.timeStep, d.stepAmount, d.totalAmount⟩
      (d.startTime.toNat - d.timeStep.toNat) with
  | none => simp [VestingContract.canChangeBalance, capped]
  | some cap =>
    have above := VestingContract.total_lt_minCap_one_step_early releasing late capped
    dsimp only at above withdrawn
    exact VestingContract.canChangeBalance_panics_above_balance capped
      ((Coin.lt_def _ _).mpr (by omega)) above

theorem future_schedule_withdrawal_panics :
    ∃ c, VestingContract.createNewContract (A := Unit) futureSchedule.toTxData futureSchedule.totalAmount
      Coin.zero = some (.ok c) ∧ ∀ (signedByOwner : Except (AccountError Unit) Bool) newBalance,
        newBalance.val < c.balance.val →
        c.canChangeBalance signedByOwner newBalance ⟨0, 9⟩ = none :=
  early_withdrawal_panics futureSchedule ⟨by decide, by decide⟩ (by decide) 0

end Albatross.Vesting
