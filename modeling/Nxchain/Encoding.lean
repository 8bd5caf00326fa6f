import Nxchain.Executor

namespace Nxchain

def unmarshalWith {α : Type} (codec : Rlp.Codec) (decode : Rlp.Value → Except (Fault DecodeError) α)
    (input : Bytes) : Except (Fault DecodeError) α :=
  match codec.parse input with
  | none => .error (.error (.rlp .malformed))
  | some v => decode v

namespace Transaction

def computeHash (hashOf : Rlp.Value → Hash) (t : Transaction) : Transaction :=
  { t with hash := hashOf t.marshalRLPWith }

def marshalStoreRLPWith (t : Transaction) : Rlp.Value :=
  .list [t.marshalRLPWith, .bytes t.sender.toBytes]

def unmarshalStoreRLPFrom (hashOf : Rlp.Value → Hash) (v : Rlp.Value) :
    Except DecodeError Transaction := do
  match ← v.getElems.mapError .rlp with
  | consensus :: context :: _ =>
    let t ← unmarshalRLPFrom hashOf consensus
    let sender ← (getArray 20 context).mapError .rlp
    return { t with sender := sender }
  | elems => throw (.incorrectNumberOfElements 2 elems.length)

end Transaction

structure Body where
  transactions : List Transaction
  uncles : List Header
deriving DecidableEq

namespace Body

def marshalRLPWith (b : Body) : Rlp.Value :=
  .list
    [.list (b.transactions.map (·.marshalStoreRLPWith)), .list (b.uncles.map (·.marshalRLPWith))]

def unmarshalRLPFrom (headerHash : Header → Except Panic Hash) (hashOf : Rlp.Value → Hash)
    (v : Rlp.Value) : Except (Fault DecodeError) Body := do
  match ← v.getElems.mapError fun e => .error (.rlp e) with
  | txns :: uncles :: _ =>
    let txns ← txns.getElems.mapError fun e => .error (.rlp e)
    let transactions ← (txns.mapM (Transaction.unmarshalStoreRLPFrom hashOf)).mapError .error
    let uncles ← uncles.getElems.mapError fun e => .error (.rlp e)
    let uncles ← uncles.mapM (Header.unmarshalRLPFrom headerHash)
    return ⟨transactions, uncles⟩
  | elems => throw (.error (.incorrectNumberOfElements 2 elems.length))

end Body

def ReceiptStatus.ofNat : Nat → ReceiptStatus
  | 0 => .failed
  | 1 => .success
  | n + 2 => .other ⟨n + 2, by omega⟩

namespace Receipt

def unmarshalLog (v : Rlp.Value) : Except DecodeError Log := do
  match ← v.getElems.mapError .rlp with
  | address :: topics :: data :: _ =>
    let address ← (getArray 20 address).mapError .rlp
    let topicElems ← topics.getElems.mapError .rlp
    let topics ← (topicElems.mapM (getArray 32)).mapError .rlp
    let data ← data.getBytes.mapError .rlp
    return ⟨address, topics, data⟩
  | elems => throw (.incorrectNumberOfElements 3 elems.length)

def rootOrStatus (buf : Bytes) : Hash × Option ReceiptStatus :=
  match buf with
  | [code] => (zeroHash, some (.ofNat code.toNat))
  | buf => if buf.length = 32 then (FixedBytes.ofBytes 32 buf, none) else (zeroHash, some .failed)

def unmarshalRLPFrom (v : Rlp.Value) : Except DecodeError Receipt := do
  match ← v.getElems.mapError .rlp with
  | rootOrStatus :: cumulativeGasUsed :: logsBloom :: logs :: _ =>
    let buf ← rootOrStatus.getBytes.mapError .rlp
    let (root, status) := Receipt.rootOrStatus buf
    let cumulativeGasUsed ← cumulativeGasUsed.getUint64.mapError .rlp
    let logsBloom ← (getArray 256 logsBloom).mapError .rlp
    let logsElems ← logs.getElems.mapError .rlp
    let logs ← logsElems.mapM unmarshalLog
    return ⟨root, cumulativeGasUsed, logsBloom, logs, status, 0, none, zeroHash⟩
  | elems => throw (.incorrectNumberOfElements 4 elems.length)

def marshalStoreRLPWith (r : Receipt) : Rlp.Value :=
  .list
    [r.marshalRLPWith, .bytes ((r.contractAddress.map FixedBytes.toBytes).getD []),
      .bytes (Rlp.bigEndian r.gasUsed), .bytes r.txHash.toBytes]

def unmarshalTxHash : List Rlp.Value → Except Rlp.Error Hash
  | [txHash] => txHash.getBytes.map (FixedBytes.ofBytes 32)
  | _ => .ok zeroHash

def unmarshalStoreRLPFrom (v : Rlp.Value) : Except DecodeError Receipt := do
  match ← v.getElems.mapError .rlp with
  | consensus :: contractAddress :: gasUsed :: rest =>
    let r ← unmarshalRLPFrom consensus
    let vv ← contractAddress.getBytes.mapError .rlp
    let gasUsed ← gasUsed.getUint64.mapError .rlp
    let txHash ← (unmarshalTxHash rest).mapError .rlp
    return { r with
      contractAddress := if vv.length = 20 then some (FixedBytes.ofBytes 20 vv) else none
      gasUsed := gasUsed
      txHash := txHash }
  | elems => throw (.incorrectNumberOfElements 3 elems.length)

end Receipt

namespace Receipts

def marshalRLPWith (receipts : List Receipt) : Rlp.Value :=
  .list (receipts.map (·.marshalRLPWith))

def unmarshalRLPFrom (v : Rlp.Value) : Except DecodeError (List Receipt) := do
  let elems ← v.getElems.mapError .rlp
  elems.mapM Receipt.unmarshalRLPFrom

def marshalStoreRLPWith (receipts : List Receipt) : Rlp.Value :=
  .list (receipts.map (·.marshalStoreRLPWith))

def unmarshalStoreRLPFrom (v : Rlp.Value) : Except DecodeError (List Receipt) := do
  let elems ← v.getElems.mapError .rlp
  elems.mapM Receipt.unmarshalStoreRLPFrom

end Receipts

end Nxchain
