import Nxchain.Jsonrpc.Logs

namespace Nxchain.Jsonrpc

inductive CallError where
  | notEnoughIntrinsicGas
  | transition (err : TransitionError)
  | evm (err : Runtime.Error)
  | revert (message : String)
  | stateNotFound
  | insufficientFunds
  | failedFetchGenesis
  | fetchingHeader (number : Nat)
  | highestGasLimit (highEnd : Nat) (err : Option CallError)
  | store (message : String)

structure CallStore (σ : Type) where
  header : Header
  getHeaderByNumber : Nat → Option Header
  getForksInTime : Nat → ForksInTime
  getAccount : Hash → Address → Except CallError Nat
  applyTxn : Header → Transaction → σ → Except CallError Runtime.ExecutionResult × σ
  unpackRevertError : Bytes → Option String

namespace CallStore

variable {σ : Type} (store : CallStore σ)

def uintOf (number : BlockNumber) : Nat := (number % 2 ^ 64).toNat

def getBlockHeader (number : BlockNumber) : Except CallError Header :=
  if number = pendingBlockNumber ∨ number = latestBlockNumber then .ok store.header
  else if number = earliestBlockNumber then
    match store.getHeaderByNumber 0 with
    | none => .error .failedFetchGenesis
    | some header => .ok header
  else
    match store.getHeaderByNumber (uintOf number) with
    | none => .error (.fetchingHeader (uintOf number))
    | some header => .ok header

def standardGas (transaction : Transaction) (forksInTime : ForksInTime) : Nat :=
  if transaction.recipient.isNone ∧ forksInTime.homestead then txGasContractCreation else txGas

def availableBalance (header : Header) (transaction : Transaction) : Except CallError (Option Nat) :=
  if transaction.sender ≠ zeroAddress then do
    let accountBalance ←
      match store.getAccount header.stateRoot transaction.sender with
      | .error .stateNotFound => .ok 0
      | .error err => .error err
      | .ok balance => .ok balance
    if transaction.value > accountBalance then .error .insufficientFunds
    else return some (accountBalance - transaction.value)
  else return none

def capByAllowance (transaction : Transaction) (availableBalance : Option Nat) (highEnd : Nat) : Nat :=
  match availableBalance with
  | none => highEnd
  | some availableBalance =>
    if transaction.gasPrice ≠ 0 ∧ availableBalance > 0 then
      let gasAllowance := availableBalance / transaction.gasPrice
      if gasAllowance < 2 ^ 64 ∧ highEnd > gasAllowance then gasAllowance else highEnd
    else highEnd

structure Bounds where
  header : Header
  lowEnd : Nat
  highEnd : Nat

def bounds (transaction : Transaction) (rawNum : Option BlockNumber) : Except CallError Bounds := do
  let number := rawNum.getD latestBlockNumber
  let header ← store.getBlockHeader number
  let lowEnd := standardGas transaction (store.getForksInTime (uintOf number))
  let highEnd :=
    if transaction.gas ≠ 0 ∧ transaction.gas ≥ lowEnd then transaction.gas else header.gasLimit
  let available ← store.availableBalance header transaction
  return ⟨header, lowEnd, capByAllowance transaction available highEnd⟩

def isGasApplyError : CallError → Bool
  | .notEnoughIntrinsicGas => true
  | _ => false

def isGasEVMError (err : Runtime.Error) : Bool := err = .outOfGas || err = .codeStoreOutOfGas

def isEVMRevertError : CallError → Bool
  | .evm .executionReverted => true
  | .revert _ => true
  | _ => false

def constructErrorFromRevert (result : Runtime.ExecutionResult) : CallError :=
  match store.unpackRevertError result.returnValue with
  | none => .evm .executionReverted
  | some message => .revert message

def testOutcome (shouldOmitErr : Bool) :
    Except CallError Runtime.ExecutionResult → Bool × Option CallError
  | .error applyErr =>
    if isGasApplyError applyErr && shouldOmitErr then (true, none) else (true, some applyErr)
  | .ok result =>
    match result.err with
    | none => (false, none)
    | some err =>
      if isGasEVMError err && shouldOmitErr then (true, none)
      else if err = .executionReverted then (true, some (store.constructErrorFromRevert result))
      else (true, some (.evm err))

def testTransaction (header : Header) (transaction : Transaction) (gas : Nat) (shouldOmitErr : Bool)
    (s : σ) : (Bool × Option CallError) × σ :=
  let (outcome, s) := store.applyTxn header { transaction with gas := gas } s
  (store.testOutcome shouldOmitErr outcome, s)

def searchLoop (header : Header) (transaction : Transaction) :
    Nat → Nat → Nat → σ → Except (Fault CallError) Nat × σ
  | 0, _, _, s => (.error .outOfFuel, s)
  | fuel + 1, lowEnd, highEnd, s =>
    if lowEnd < highEnd then
      let mid := (lowEnd + highEnd) % 2 ^ 64 / 2
      let ((failed, testErr), s) := store.testTransaction header transaction mid true s
      -- reverts are ignored here
      match testErr.filter fun err => !isEVMRevertError err with
      | some err => (.error (.error err), s)
      | none =>
        if failed then searchLoop header transaction fuel ((mid + 1) % 2 ^ 64) highEnd s
        else searchLoop header transaction fuel lowEnd mid s
    else (.ok highEnd, s)

def estimateGas (fuel : Nat) (transaction : Transaction) (rawNum : Option BlockNumber) (s : σ) :
    Except (Fault CallError) Nat × σ :=
  match store.bounds transaction rawNum with
  | .error err => (.error (.error err), s)
  | .ok ⟨header, lowEnd, highEnd⟩ =>
    match store.searchLoop header transaction fuel lowEnd highEnd s with
    | (.error err, s) => (.error err, s)
    | (.ok highEnd, s) =>
      let ((failed, err), s) := store.testTransaction header transaction highEnd false s
      if failed then (.error (.error (.highestGasLimit highEnd err)), s) else (.ok highEnd, s)

end CallStore

end Nxchain.Jsonrpc
