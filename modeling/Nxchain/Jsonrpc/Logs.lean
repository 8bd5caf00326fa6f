import Nxchain.Executor

namespace Nxchain.Jsonrpc

structure LogObject where
  address : Address
  topics : List Hash
  data : Bytes
  blockNumber : Nat
  txHash : Hash
  txIndex : Nat
  blockHash : Hash
  logIndex : Nat
  removed : Bool
deriving DecidableEq

abbrev BlockNumber := Int

def pendingBlockNumber : BlockNumber := -3

def latestBlockNumber : BlockNumber := -2

def earliestBlockNumber : BlockNumber := -1

structure LogQuery where
  blockHash : Option Hash
  fromBlock : BlockNumber
  toBlock : BlockNumber
  addresses : List Address
  topics : List (List Hash)
deriving DecidableEq

def LogQuery.accepts (q : LogQuery) (log : Log) : Bool :=
  if 0 < q.addresses.length ∧ log.address ∉ q.addresses then false
  else if log.topics.length < q.topics.length then false
  else (q.topics.zip log.topics).all fun (sub, topic) => sub.length = 0 || topic ∈ sub

structure Store where
  header : Option Header
  getReceiptsByHash : Hash → Except String (List Receipt)
  getBlockByHash : Hash → Option Block
  getBlockByNumber : Nat → Option Block
  readTxLookup : Hash → Option Hash

inductive QueryError where
  | latestNotFound
  | negativeBlockNumber
  | blockNotFound
  | incorrectBlockRange
  | blockRangeTooHigh
  | store (message : String)
deriving DecidableEq

namespace Store

variable (store : Store)

def getNumericBlockNumber (number : BlockNumber) : Except QueryError Nat :=
  if number = latestBlockNumber ∨ number = pendingBlockNumber then
    match store.header with
    | none => .error .latestNotFound
    | some latest => .ok latest.number
  else if number = earliestBlockNumber then .ok 0
  else if number < 0 then .error .negativeBlockNumber
  else .ok number.toNat

def transactionAt (block : Block) (idx : Nat) : Except Panic Transaction :=
  match block.transactions[idx]? with
  | none => .error .indexOutOfRange
  | some txn => .ok txn

def getLogsFromReceipt (query : LogQuery) (block : Block) (idx : Nat) (receipt : Receipt)
    (logs : List LogObject) : Except (Fault QueryError) (List LogObject) :=
  receipt.logs.zipIdx.foldlM (fun logs (log, logIdx) =>
    if query.accepts log then do
      let txn ← (transactionAt block idx).mapError .panic
      return logs ++ [{
        address := log.address
        topics := log.topics
        data := log.data
        blockNumber := block.header.number
        blockHash := block.header.hash
        txHash := txn.hash
        txIndex := idx
        -- The position in the receipt, where the other logs of the block do not count.
        logIndex := logIdx
        removed := false }]
    else return logs) logs

def getLogsFromBlock (query : LogQuery) (block : Block) : Except (Fault QueryError) (List LogObject) := do
  let receipts ← (store.getReceiptsByHash block.header.hash).mapError (.error ∘ .store)
  receipts.zipIdx.foldlM (fun logs (receipt, idx) => getLogsFromReceipt query block idx receipt logs) []

def getLogsInRange (query : LogQuery) (last : Nat) : Nat → Nat → List LogObject →
    Except (Fault QueryError) (List LogObject)
  | 0, _, _ => .error .outOfFuel
  | fuel + 1, i, logs =>
    if i ≤ last then
      match store.getBlockByNumber i with
      | none => .ok logs
      | some block =>
        if block.transactions.length = 0 then getLogsInRange query last fuel ((i + 1) % 2 ^ 64) logs
        else do
          let blockLogs ← store.getLogsFromBlock query block
          getLogsInRange query last fuel ((i + 1) % 2 ^ 64) (logs ++ blockLogs)
    else .ok logs

def getLogsFromBlocks (fuel blockRangeLimit : Nat) (query : LogQuery) :
    Except (Fault QueryError) (List LogObject) := do
  let first ← (store.getNumericBlockNumber query.fromBlock).mapError .error
  let last ← (store.getNumericBlockNumber query.toBlock).mapError .error
  if last < first then throw (.error .incorrectBlockRange)
  -- The genesis block is skipped.
  let first := if first = 0 then 1 else first
  if blockRangeLimit ≠ 0 ∧ blockRangeLimit < sub64 last first then
    throw (.error .blockRangeTooHigh)
  store.getLogsInRange query last fuel first []

def getLogsForQuery (fuel blockRangeLimit : Nat) (query : LogQuery) :
    Except (Fault QueryError) (List LogObject) :=
  match query.blockHash with
  | none => store.getLogsFromBlocks fuel blockRangeLimit query
  | some hash =>
    match store.getBlockByHash hash with
    | none => .error (.error .blockNotFound)
    | some block =>
      if block.transactions.length = 0 then .ok [] else store.getLogsFromBlock query block

end Store

structure ReceiptObject where
  root : Hash
  cumulativeGasUsed : Nat
  logsBloom : Bloom
  logs : List LogObject
  status : ReceiptStatus
  txHash : Hash
  txIndex : Nat
  blockHash : Hash
  blockNumber : Nat
  gasUsed : Nat
  contractAddress : Option Address
  fromAddr : Address
  toAddr : Option Address
deriving DecidableEq

def receiptLogs (block : Block) (txn : Transaction) (raw : Receipt) : List LogObject :=
  raw.logs.zipIdx.map fun (elem, indx) =>
    { address := elem.address
      topics := elem.topics
      data := elem.data
      blockHash := block.header.hash
      blockNumber := block.header.number
      txHash := txn.hash
      txIndex := indx
      logIndex := indx
      removed := false }

def Store.getTransactionReceipt (store : Store) (hash : Hash) : Except Panic (Option ReceiptObject) :=
  match store.readTxLookup hash with
  | none => .ok none
  | some blockHash =>
    match store.getBlockByHash blockHash, store.getReceiptsByHash blockHash with
    | none, _ => .ok none
    | some _, .error _ => .ok none
    | some block, .ok receipts =>
      if receipts.length = 0 then .ok none
      else
        match block.transactions.findIdx? (·.hash = hash) with
        | none => .ok none
        | some indx => do
          let txn ← Store.transactionAt block indx
          let raw ← match receipts[indx]? with
            | none => .error .indexOutOfRange
            | some raw => .ok raw
          let logs := receiptLogs block txn raw
          let status ← match raw.status with
            | none => .error .nilDereference
            | some status => .ok status
          return some
            { root := raw.root
              cumulativeGasUsed := raw.cumulativeGasUsed
              logsBloom := raw.logsBloom
              status
              txHash := txn.hash
              txIndex := indx
              blockHash := block.header.hash
              blockNumber := block.header.number
              gasUsed := raw.gasUsed
              contractAddress := raw.contractAddress
              fromAddr := txn.sender
              toAddr := txn.recipient
              logs }

end Nxchain.Jsonrpc
