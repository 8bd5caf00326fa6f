import Nxchain.Block
import Nxchain.Runtime

namespace Nxchain

inductive ReceiptStatus where
  | failed
  | success
  | other (code : { n : Nat // 1 < n })
deriving DecidableEq

structure Receipt where
  root : Hash
  cumulativeGasUsed : Nat
  logsBloom : Bloom
  logs : List Log
  status : Option ReceiptStatus
  gasUsed : Nat
  contractAddress : Option Address
  txHash : Hash
deriving DecidableEq

namespace Receipt

def marshalStatus : ReceiptStatus → Bytes
  | .failed => Rlp.bigEndian 0
  | .success => Rlp.bigEndian 1
  | .other code => Rlp.bigEndian code

def marshalLog (l : Log) : Rlp.Value :=
  .list [.bytes l.address.toBytes, .list (l.topics.map fun t => .bytes t.toBytes), .bytes l.data]

def marshalRLPWith (r : Receipt) : Rlp.Value :=
  .list
    [.bytes ((r.status.map marshalStatus).getD r.root.toBytes),
      .bytes (Rlp.bigEndian r.cumulativeGasUsed), .bytes r.logsBloom.toBytes,
      .list (r.logs.map marshalLog)]

end Receipt

def Transaction.exceedsBlockGasLimit (t : Transaction) (blockGasLimit : Nat) : Bool :=
  blockGasLimit < t.gas

structure ExecutionResult (gas : Nat) where
  gasLeft : Nat
  failed : Bool
  gasLeft_le : gasLeft ≤ gas

structure World (σ : Type) where
  getNonce : σ → Address → Nat
  setNonce : σ → Address → Nat → σ
  getBalance : σ → Address → Nat
  setBalance : σ → Address → Nat → σ
  getRefund : σ → Nat
  logs : σ → List Log
  deleteLogs : σ → σ
  cleanDeleteObjects : Bool → σ → σ
  create2 : ForksInTime → TxContext → (Nat → Hash) → Address → Bytes → Nat → (gas : Nat) → σ →
    ExecutionResult gas × σ
  call2 : ForksInTime → TxContext → (Nat → Hash) → Address → Address → Bytes → Nat → (gas : Nat) →
    σ → ExecutionResult gas × σ

namespace World

variable {σ : Type} (world : World σ)

def subBalance (s : σ) (addr : Address) (amount : Nat) : Option σ :=
  if amount = 0 then some s
  else if world.getBalance s addr < amount then none
  else some (world.setBalance s addr (world.getBalance s addr - amount))

def addBalance (s : σ) (addr : Address) (amount : Nat) : σ :=
  world.setBalance s addr (world.getBalance s addr + amount)

def incrNonce (s : σ) (addr : Address) : σ := world.setNonce s addr (world.getNonce s addr + 1)

end World

inductive ApplyError where
  | nonceIncorrect
  | notEnoughFundsForGas
  | intrinsicGasOverflow
  | notEnoughIntrinsicGas
  | notEnoughFunds
  | sender (message : String)
deriving DecidableEq

inductive TransitionError where
  | application (err : ApplyError) (isRecoverable : Bool)
  | gasLimitReached
deriving DecidableEq

def txGas : Nat := 21000

def txGasContractCreation : Nat := 53000

def transactionGasCost (msg : Transaction) (isHomestead isIstanbul : Bool) : Option Nat :=
  let maxUint64 := 2 ^ 64 - 1
  let cost := if msg.recipient.isNone && isHomestead then txGasContractCreation else txGas
  let zeros := msg.input.count 0
  let nonZeros := msg.input.length - zeros
  let nonZeroCost := if isIstanbul then 16 else 68
  if (maxUint64 - cost) / nonZeroCost < nonZeros then none
  else
    let cost := cost + nonZeros * nonZeroCost
    if (maxUint64 - cost) / 4 < zeros then none else some (cost + zeros * 4)

structure GasUse where
  gasUsed : Nat
  gasLeft : Nat
  failed : Bool

def ExecutionResult.updateGasUsed {gas : Nat} (r : ExecutionResult gas) (gasLimit refund : Nat) :
    GasUse :=
  let gasUsed := gasLimit - r.gasLeft
  let refund := min refund (gasUsed / 2)
  ⟨gasUsed - refund, r.gasLeft + refund, r.failed⟩

structure Executor (σ : Type) where
  world : World σ
  forksAt : Nat → ForksInTime
  chainID : Nat
  newSnapshotAt : Hash → Except String σ
  commit : ForksInTime → σ → Hash
  getHash : Hash → Nat → Nat → Hash
  sender : ForksInTime → Nat → Transaction → Except String Address
  createAddress : Address → Nat → Address
  createBloom : List Log → Bloom

structure Transition (σ : Type) where
  config : ForksInTime
  ctx : TxContext
  getHash : Nat → Hash
  state : σ
  gasPool : Nat
  receipts : List Receipt
  totalGas : Nat

namespace Executor

variable {σ : Type} (e : Executor σ)

def beginTxn (parentRoot : Hash) (header : Header) (coinbaseReceiver : Address) :
    Except String (Transition σ) := do
  let state ← e.newSnapshotAt parentRoot
  return {
    config := e.forksAt header.number
    ctx := {
      gasPrice := 0, origin := zeroAddress, coinbase := coinbaseReceiver, number := header.number,
      timestamp := header.timestamp, gasLimit := header.gasLimit, chainID := e.chainID,
      difficulty := header.difficulty }
    getHash := e.getHash header.parentHash header.number
    state := state
    gasPool := header.gasLimit
    receipts := []
    totalGas := 0 }

def run (t : Transition σ) (msg : Transaction) (gas : Nat) : GasUse × Transition σ :=
  let ctx := { t.ctx with gasPrice := msg.gasPrice, origin := msg.sender }
  let (result, s) :=
    match msg.recipient with
    | none => e.world.create2 t.config ctx t.getHash msg.sender msg.input msg.value gas t.state
    | some recipient =>
      e.world.call2 t.config ctx t.getHash msg.sender recipient msg.input msg.value gas
        (e.world.incrNonce t.state msg.sender)
  let result := result.updateGasUsed msg.gas (e.world.getRefund s)
  let s := e.world.addBalance s msg.sender (result.gasLeft * msg.gasPrice)
  let s := e.world.addBalance s ctx.coinbase (result.gasUsed * msg.gasPrice)
  (result, { t with ctx := ctx, state := s, gasPool := t.gasPool + result.gasLeft })

def applyMessage (t : Transition σ) (msg : Transaction) :
    Except TransitionError GasUse × Transition σ :=
  if e.world.getNonce t.state msg.sender ≠ msg.nonce then
    (.error (.application .nonceIncorrect true), t)
  else
    match e.world.subBalance t.state msg.sender (msg.gasPrice * msg.gas) with
    | none => (.error (.application .notEnoughFundsForGas true), t)
    | some s =>
      let t := { t with state := s }
      if t.gasPool < msg.gas then (.error .gasLimitReached, t)
      else
        let t := { t with gasPool := t.gasPool - msg.gas }
        match transactionGasCost msg t.config.homestead t.config.istanbul with
        | none => (.error (.application .intrinsicGasOverflow false), t)
        | some intrinsicGasCost =>
          let gasLeft := sub64 msg.gas intrinsicGasCost
          -- the subtraction wraps around if the gas does not cover the cost
          if gasLeft > msg.gas then (.error (.application .notEnoughIntrinsicGas false), t)
          else if e.world.getBalance t.state msg.sender < msg.value then
            (.error (.application .notEnoughFunds true), t)
          else
            let (result, t) := e.run t msg gasLeft
            (.ok result, t)

def apply (t : Transition σ) (msg : Transaction) : Except TransitionError GasUse × Transition σ :=
  match e.applyMessage t msg with
  | (.error err, t') => (.error err, { t' with state := t.state })
  | (.ok result, t') => (.ok result, t')

def withSender (t : Transition σ) (txn : Transaction) : Except TransitionError Transaction :=
  if txn.sender = zeroAddress then
    match e.sender t.config t.ctx.chainID txn with
    | .error message => .error (.application (.sender message) false)
    | .ok sender => .ok { txn with sender := sender }
  else .ok txn

def contractAddress (txn : Transaction) : Option Address :=
  if txn.recipient.isNone then some (e.createAddress txn.sender txn.nonce) else none

def writeFailedReceipt (t : Transition σ) (txn : Transaction) :
    Except TransitionError (Transition σ) := do
  let txn ← e.withSender t txn
  let logs := e.world.logs t.state
  let receipt : Receipt :=
    { root := zeroHash, cumulativeGasUsed := t.totalGas, logsBloom := e.createBloom logs,
      logs := logs, status := some .failed, gasUsed := 0, contractAddress := e.contractAddress txn,
      txHash := txn.hash }
  return { t with state := e.world.deleteLogs t.state, receipts := t.receipts ++ [receipt] }

def write (t : Transition σ) (txn : Transaction) :
    Except TransitionError Transaction × Transition σ :=
  match e.withSender t txn with
  | .error err => (.error err, t)
  | .ok txn =>
    match e.apply t txn with
    | (.error err, t) => (.error err, t)
    | (.ok result, t) =>
      let logs := e.world.logs t.state
      let receipt : Receipt :=
        { root := zeroHash, cumulativeGasUsed := t.totalGas + result.gasUsed,
          logsBloom := e.createBloom logs, logs := logs,
          status := some (if result.failed then .failed else .success),
          gasUsed := result.gasUsed, contractAddress := e.contractAddress txn,
          txHash := txn.hash }
      (.ok txn,
        { t with
          state := e.world.cleanDeleteObjects true (e.world.deleteLogs t.state)
          totalGas := t.totalGas + result.gasUsed
          receipts := t.receipts ++ [receipt] })

def processTransactions (gasLimit : Nat) (t : Transition σ) :
    List Transaction → Except TransitionError (Transition σ)
  | [] => .ok t
  | txn :: rest =>
    if txn.exceedsBlockGasLimit gasLimit then
      match e.writeFailedReceipt t txn with
      | .error err => .error err
      | .ok t => processTransactions gasLimit t rest
    else
      match e.write t txn with
      | (.error err, _) => .error err
      | (.ok _, t) => processTransactions gasLimit t rest

inductive ProcessError where
  | snapshot (message : String)
  | transition (e : TransitionError)
deriving DecidableEq

def processBlock (parentRoot : Hash) (block : Block) (blockCreator : Address) :
    Except ProcessError (Transition σ) := do
  let txn ← (e.beginTxn parentRoot block.header blockCreator).mapError .snapshot
  (e.processTransactions block.header.gasLimit txn block.transactions).mapError .transition

end Executor

end Nxchain
