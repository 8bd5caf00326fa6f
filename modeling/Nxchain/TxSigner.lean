import Nxchain.Block

namespace Nxchain.TxSigner

def secp256k1N : Bytes :=
  [0xff, 0xff, 0xff, 0xff, 0xff, 0xff, 0xff, 0xff, 0xff, 0xff, 0xff, 0xff, 0xff, 0xff, 0xff, 0xfe,
    0xba, 0xae, 0xdc, 0xe6, 0xaf, 0x48, 0xa0, 0x3b, 0xbf, 0xd2, 0x5e, 0x8c, 0xd0, 0x36, 0x41, 0x41]

def one : Bytes := [0x01]

def bytes (x : Int) : Bytes := Rlp.bigEndian x.natAbs

def trimLeftZeros : Bytes → Bytes
  | x :: y :: b => if x ≠ 0 then x :: y :: b else trimLeftZeros (y :: b)
  | b => b

def outOfRange (x : Int) : Bool :=
  let xx := trimLeftZeros (bytes x)
  (compare xx secp256k1N).isGE || (compare xx one).isLT

def validateSignatureValues (v : UInt8) : Option Int → Option Int → Bool
  | some r, some s =>
    if v > 1 then false
    else if outOfRange r then false
    else if outOfRange s then false
    else true
  | _, _ => false

def copyUpTo (sig : Bytes) (hi : Nat) (data : Bytes) : Except (Fault String) Bytes :=
  if data.length ≤ hi ∧ hi ≤ sig.length then
    .ok (sig.take (hi - data.length) ++ data ++ sig.drop hi)
  else .error (.panic .indexOutOfRange)

def setByte (sig : Bytes) (i : Nat) (x : UInt8) : Except (Fault String) Bytes :=
  if i < sig.length then .ok (sig.set i x) else .error (.panic .indexOutOfRange)

def encodeSignature (R S : Option Int) (V : UInt8) : Except (Fault String) Bytes :=
  if !validateSignatureValues V R S then .error (.error "invalid txn signature")
  else match R, S with
  | some R, some S => do
    let sig := List.replicate 65 0
    let sig ← copyUpTo sig 32 (bytes R)
    let sig ← copyUpTo sig 64 (bytes S)
    setByte sig 64 V
  | _, _ => .error (.panic .nilDereference)

def lowByte (x : Int) : UInt8 := UInt8.ofNat (asInt64 x % 256).toNat

section Signers

variable (crypto : Crypto) (codec : Rlp.Codec)

def calcTxHash (tx : Transaction) (chainID : Nat) : Hash :=
  let fields : List Rlp.Value :=
    [.bytes (Rlp.bigEndian tx.nonce), .bytes (Rlp.bigEndian tx.gasPrice), .bytes (Rlp.bigEndian tx.gas),
      .bytes ((tx.recipient.map FixedBytes.toBytes).getD []), .bytes (Rlp.bigEndian tx.value), .bytes tx.input]
  let replay : List Rlp.Value :=
    if chainID ≠ 0 then
      [.bytes (Rlp.bigEndian chainID), .bytes (Rlp.bigEndian 0), .bytes (Rlp.bigEndian 0)]
    else []
  crypto.keccak256 (codec.marshal (.list (fields ++ replay)))

def recoverSender (tx : Transaction) (hash : Hash) (parity : UInt8) : Except (Fault SignerError) Address := do
  let sig ← (encodeSignature (some tx.r) (some tx.s) parity).mapError (Fault.map .crypto)
  (crypto.ecrecover sig hash.toBytes).mapError .error

def frontierSender (tx : Transaction) : Except (Fault SignerError) Address :=
  let refV : Int := tx.v - 27
  recoverSender crypto tx (calcTxHash crypto codec tx 0) (lowByte refV)

def eip155Sender (chainID : Nat) (tx : Transaction) : Except (Fault SignerError) Address :=
  let vv := tx.v % 2 ^ 64
  let isProtected := if vv < 256 then vv ≠ 27 && vv ≠ 28 else true
  if !isProtected then frontierSender crypto codec tx
  else
    let mulOperand := asInt64 chainID * 2
    let bigV : Int := tx.v - mulOperand - 35
    recoverSender crypto tx (calcTxHash crypto codec tx chainID) (lowByte bigV)

end Signers

end Nxchain.TxSigner
