import Nxchain.Signer

namespace Nxchain

structure Transaction where
  nonce : Nat
  gasPrice : Nat
  gas : Nat
  recipient : Option Address
  value : Nat
  input : Bytes
  v : Nat
  r : Nat
  s : Nat
  hash : Hash
  sender : Address
deriving DecidableEq

structure Block where
  header : Header
  transactions : List Transaction
  uncles : List Header
deriving DecidableEq

inductive DecodeError where
  | incorrectNumberOfElements (expected found : Nat)
  | rlp (e : Rlp.Error)
deriving DecidableEq

def getArray (n : Nat) (v : Rlp.Value) : Except Rlp.Error (FixedBytes n) :=
  (v.getFixed n).map fun b => ⟨b.1, b.2⟩

namespace Transaction

def marshalRLPWith (t : Transaction) : Rlp.Value :=
  .list
    [.bytes (Rlp.bigEndian t.nonce), .bytes (Rlp.bigEndian t.gasPrice), .bytes (Rlp.bigEndian t.gas),
      .bytes ((t.recipient.map FixedBytes.toBytes).getD []), .bytes (Rlp.bigEndian t.value),
      .bytes t.input, .bytes (Rlp.bigEndian t.v), .bytes (Rlp.bigEndian t.r),
      .bytes (Rlp.bigEndian t.s)]

def unmarshalFields (hash : Hash) : List Rlp.Value → Except Rlp.Error Transaction
  | [nonce, gasPrice, gas, recipient, value, input, v, r, s] => do
    let nonce ← nonce.getUint64
    let gasPrice ← gasPrice.getBigInt
    let gas ← gas.getUint64
    let recipient := (getArray 20 recipient).toOption
    let value ← value.getBigInt
    let input ← input.getBytes
    let v ← v.getBigInt
    let r ← r.getBigInt
    let s ← s.getBigInt
    return ⟨nonce, gasPrice, gas, recipient, value, input, v, r, s, hash, zeroAddress⟩
  | _ => .error .malformed

def unmarshalRLPFrom (hashOf : Rlp.Value → Hash) (v : Rlp.Value) :
    Except DecodeError Transaction := do
  let elems ← v.getElems.mapError .rlp
  if elems.length < 9 then
    throw (.incorrectNumberOfElements 9 elems.length)
  (unmarshalFields (hashOf v) (elems.take 9)).mapError .rlp

end Transaction

namespace Header

def marshalRLPWith (h : Header) : Rlp.Value :=
  .list
    [.bytes h.parentHash.toBytes, .bytes h.sha3Uncles.toBytes, .bytes h.miner,
      .bytes h.stateRoot.toBytes, .bytes h.txRoot.toBytes, .bytes h.receiptsRoot.toBytes,
      .bytes h.logsBloom.toBytes, .bytes (Rlp.bigEndian h.difficulty),
      .bytes (Rlp.bigEndian h.number), .bytes (Rlp.bigEndian h.gasLimit),
      .bytes (Rlp.bigEndian h.gasUsed), .bytes (Rlp.bigEndian h.timestamp), .bytes h.extraData,
      .bytes h.mixHash.toBytes, .bytes h.nonce.toBytes]

def unmarshalFields : List Rlp.Value → Except Rlp.Error Header
  | [parentHash, sha3Uncles, miner, stateRoot, txRoot, receiptsRoot, logsBloom, difficulty, number,
      gasLimit, gasUsed, timestamp, extraData, mixHash, nonce] => do
      let parentHash ← getArray 32 parentHash
      let sha3Uncles ← getArray 32 sha3Uncles
      let miner ← miner.getBytes
      let stateRoot ← getArray 32 stateRoot
      let txRoot ← getArray 32 txRoot
      let receiptsRoot ← getArray 32 receiptsRoot
      let logsBloom ← getArray 256 logsBloom
      let difficulty ← difficulty.getUint64
      let number ← number.getUint64
      let gasLimit ← gasLimit.getUint64
      let gasUsed ← gasUsed.getUint64
      let timestamp ← timestamp.getUint64
      let extraData ← extraData.getBytes
      let mixHash ← getArray 32 mixHash
      let nonce ← nonce.getUint64
      return ⟨parentHash, sha3Uncles, miner, stateRoot, txRoot, receiptsRoot, logsBloom, difficulty,
        number, gasLimit, gasUsed, timestamp, extraData, mixHash,
        FixedBytes.ofBytes 8 (Rlp.bigEndian nonce), zeroHash⟩
  | _ => .error .malformed

def unmarshalRLPFrom (headerHash : Header → Except Panic Hash) (v : Rlp.Value) :
    Except (Fault DecodeError) Header := do
  let elems ← v.getElems.mapError fun e => .error (.rlp e)
  if elems.length < 15 then
    throw (.error (.incorrectNumberOfElements 15 elems.length))
  let h ← (unmarshalFields (elems.take 15)).mapError fun e => .error (.rlp e)
  let hash ← (headerHash h).mapError .panic
  return { h with hash := hash }

end Header

namespace Block

def marshalRLPWith (b : Block) : Rlp.Value :=
  .list
    [b.header.marshalRLPWith, .list (b.transactions.map (·.marshalRLPWith)),
      .list (b.uncles.map (·.marshalRLPWith))]

def unmarshalRLPFrom (headerHash : Header → Except Panic Hash) (hashOf : Rlp.Value → Hash)
    (v : Rlp.Value) : Except (Fault DecodeError) Block := do
  match ← v.getElems.mapError fun e => .error (.rlp e) with
  | header :: txns :: uncles :: _ =>
    let header ← Header.unmarshalRLPFrom headerHash header
    let txns ← txns.getElems.mapError fun e => .error (.rlp e)
    let transactions ← (txns.mapM (Transaction.unmarshalRLPFrom hashOf)).mapError .error
    let uncles ← uncles.getElems.mapError fun e => .error (.rlp e)
    let uncles ← uncles.mapM (Header.unmarshalRLPFrom headerHash)
    return ⟨header, transactions, uncles⟩
  | elems => throw (.error (.incorrectNumberOfElements 3 elems.length))

end Block

end Nxchain
