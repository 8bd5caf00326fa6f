import Nxchain.Executor
import Nxchain.Ibft

namespace Nxchain

def emptyRootHash : Hash := FixedBytes.ofBytes 32
  (Rlp.bigEndian 0x56e81f171bcc55a6ff8345e692c0f86e5b48e01b996cadc001622fb5e363b421)

structure TxPool (π : Type) where
  prepare : π → π
  peek : π → Option Transaction × π
  pop : π → Transaction → π
  drop : π → Transaction → π
  demote : π → Transaction → π

inductive TxStatus where
  | success
  | fail
  | skip
deriving DecidableEq

structure TxExeResult where
  tx : Transaction
  status : TxStatus

structure BlockResult where
  root : Hash
  receipts : List Receipt
  totalGas : Nat

inductive BlockError where
  | invalidReceiptsSize
  | invalidStateRoot
  | invalidGasUsed
  | invalidReceiptsRoot
  | process (e : Executor.ProcessError)
  | preCommitState (message : String)
deriving DecidableEq

structure BlockBuilder (σ π : Type) where
  executor : Executor σ
  txpool : TxPool π
  codec : Rlp.Codec
  deriveRoot : List Bytes → Hash
  preCommitState : Nat → σ → Except String σ
  headerHash : Header → Hash

namespace BlockBuilder

variable {σ π : Type} (b : BlockBuilder σ π)

def calculateRoot (items : List Bytes) : Hash :=
  if items.length = 0 then emptyRootHash else b.deriveRoot items

def calculateReceiptsRoot (receipts : List Receipt) : Hash :=
  b.calculateRoot (receipts.map fun r => b.codec.marshal r.marshalRLPWith)

def calculateTransactionsRoot (transactions : List Transaction) : Hash :=
  b.calculateRoot (transactions.map fun t => b.codec.marshal t.marshalRLPWith)

def writeTransaction (gasLimit : Nat) (t : Transition σ) (p : π) :
    Option Transaction → Option TxExeResult × Transition σ × π
  | none => (none, t, p)
  | some tx =>
    if tx.exceedsBlockGasLimit gasLimit then
      let t' :=
        match b.executor.writeFailedReceipt t tx with
        | .error _ => t
        | .ok t' => t'
      (some ⟨tx, .fail⟩, t', b.txpool.drop p tx)
    else
      let sent := ((b.executor.withSender t tx).toOption).getD tx
      match b.executor.write t tx with
      | (.error .gasLimitReached, t) => (none, t, p)
      | (.error (.application _ true), t) => (some ⟨sent, .skip⟩, t, b.txpool.demote p sent)
      | (.error (.application _ false), t) => (some ⟨sent, .fail⟩, t, b.txpool.drop p sent)
      | (.ok tx, t) => (some ⟨tx, .success⟩, t, b.txpool.pop p tx)

def writeLoop (gasLimit : Nat) : Nat → Transition σ → π → List Transaction × Transition σ × π
  | 0, t, p => ([], t, p)
  | steps + 1, t, p =>
    match b.writeTransaction gasLimit t (b.txpool.peek p).2 (b.txpool.peek p).1 with
    | (none, t, p) => ([], t, p)
    | (some result, t, p) =>
      let (executed, t, p) := writeLoop gasLimit steps t p
      (if result.status = .success then result.tx :: executed else executed, t, p)

def writeTransactions (hooks : Hooks) (steps gasLimit blockNumber : Nat) (t : Transition σ) (p : π) :
    List Transaction × Transition σ × π :=
  if !hooks.shouldWriteTransactions blockNumber then ([], t, p)
  else b.writeLoop gasLimit steps t (b.txpool.prepare p)

def assemble (header : Header) (txs : List Transaction) (receipts : List Receipt) : Block :=
  let txRoot := if txs.length = 0 then emptyRootHash else b.calculateTransactionsRoot txs
  let receiptsRoot :=
    if receipts.length = 0 then emptyRootHash else b.calculateReceiptsRoot receipts
  let header :=
    { header with txRoot := txRoot, receiptsRoot := receiptsRoot, sha3Uncles := emptyUncleHash }
  ⟨header.computeHash b.headerHash, txs, []⟩

def buildBlock (hooks : Hooks) (steps : Nat) (parentRoot : Hash) (header : Header)
    (proposer : Address) (p : π) : Except BlockError Block := do
  let t ← (b.executor.beginTxn parentRoot header proposer).mapError fun e => .process (.snapshot e)
  let (txs, t, _) := b.writeTransactions hooks steps header.gasLimit header.number t p
  let state ← (b.preCommitState header.number t.state).mapError .preCommitState
  let header :=
    { header with stateRoot := b.executor.commit t.config state, gasUsed := t.totalGas }
  return b.assemble header txs t.receipts

def executeBlockTransactions (parentRoot : Hash) (block : Block) (blockCreator : Address) :
    Except BlockError BlockResult := do
  let txn ← (b.executor.processBlock parentRoot block blockCreator).mapError .process
  let state ← (b.preCommitState block.header.number txn.state).mapError .preCommitState
  return ⟨b.executor.commit txn.config state, txn.receipts, txn.totalGas⟩

def verifyBlockResult (br : BlockResult) (referenceBlock : Block) : Except BlockError Unit := do
  if br.receipts.length ≠ referenceBlock.transactions.length then
    throw .invalidReceiptsSize
  if br.root ≠ referenceBlock.header.stateRoot then
    throw .invalidStateRoot
  if br.totalGas ≠ referenceBlock.header.gasUsed then
    throw .invalidGasUsed
  if b.calculateReceiptsRoot br.receipts ≠ referenceBlock.header.receiptsRoot then
    throw .invalidReceiptsRoot

end BlockBuilder

end Nxchain
