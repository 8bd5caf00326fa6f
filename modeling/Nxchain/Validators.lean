import Nxchain.Lib.Rlp
import Nxchain.Types

namespace Nxchain

inductive ValidatorType where
  | ecdsa
  | bls
deriving DecidableEq

inductive ValidatorsError where
  | mismatchValidatorType
  | validatorAlreadyExists
  | validatorNotFound
  | incorrectNumberOfElements (found : Nat)
  | decodeAddress (e : Rlp.Error)
  | decodeBLSPublicKey (e : Rlp.Error)
  | rlp (e : Rlp.Error)
deriving DecidableEq

inductive Validator where
  | ecdsa (address : Address)
  | bls (address : Address) (blsPublicKey : Bytes)
deriving DecidableEq

namespace Validator

def type : Validator → ValidatorType
  | ecdsa _ => .ecdsa
  | bls _ _ => .bls

def addr : Validator → Address
  | ecdsa address => address
  | bls address _ => address

def equal : Validator → Validator → Bool
  | ecdsa a, ecdsa b => a = b
  | bls a k, bls b l => a = b && k = l
  | _, _ => false

@[simp]
theorem equal_iff {v w : Validator} : v.equal w = true ↔ v = w := by
  cases v <;> cases w <;> simp [equal]

def marshalRLPWith : Validator → Rlp.Value
  | ecdsa address => .bytes address.toBytes
  | bls address blsPublicKey => .list [.bytes address.toBytes, .bytes blsPublicKey]

def getAddr (v : Rlp.Value) : Except Rlp.Error Address :=
  (v.getFixed 20).map fun b => ⟨b.1, b.2⟩

def unmarshalRLPFrom : ValidatorType → Rlp.Value → Except ValidatorsError Validator
  | .ecdsa, v => ((getAddr v).mapError .rlp).map .ecdsa
  | .bls, v => do
    match ← v.getElems.mapError .rlp with
    | address :: key :: _ =>
      let address ← (getAddr address).mapError .decodeAddress
      let key ← key.getBytes.mapError .decodeBLSPublicKey
      return .bls address key
    | elems => throw (.incorrectNumberOfElements elems.length)

def setFromBytes (codec : Rlp.Codec) : ValidatorType → Bytes → Except ValidatorsError Validator
  | .ecdsa, input => .ok (.ecdsa (FixedBytes.ofBytes 20 input))
  | .bls, input =>
    match codec.parse input with
    | none => .error (.rlp .malformed)
    | some v => unmarshalRLPFrom .bls v

end Validator

structure Validators where
  validatorType : ValidatorType
  validators : List Validator
deriving DecidableEq

namespace Validators

def len (s : Validators) : Nat := s.validators.length

def equal (s ss : Validators) : Bool :=
  s.validatorType = ss.validatorType && s.len = ss.len
    && (s.validators.zip ss.validators).all fun (v, w) => v.equal w

def index (s : Validators) (addr : Address) : Option Nat :=
  s.validators.findIdx? (fun v => v.addr = addr)

def includes (s : Validators) (addr : Address) : Bool := (s.index addr).isSome

theorem includes_iff {s : Validators} {addr : Address} :
    s.includes addr = true ↔ ∃ v ∈ s.validators, v.addr = addr := by
  unfold includes index
  simp

def add (s : Validators) (v : Validator) : Except ValidatorsError Validators :=
  if s.validatorType ≠ v.type then .error .mismatchValidatorType
  else if s.includes v.addr then .error .validatorAlreadyExists
  else .ok { s with validators := s.validators ++ [v] }

def del (s : Validators) (v : Validator) : Except ValidatorsError Validators :=
  if s.validatorType ≠ v.type then .error .mismatchValidatorType
  else
    match s.index v.addr with
    | none => .error .validatorNotFound
    | some i => .ok { s with validators := s.validators.take i ++ s.validators.drop (i + 1) }

def marshalRLPWith (s : Validators) : Rlp.Value := .list (s.validators.map (·.marshalRLPWith))

def unmarshalRLPFrom (t : ValidatorType) (v : Rlp.Value) : Except ValidatorsError Validators := do
  let elems ← v.getElems.mapError .rlp
  let validators ← elems.mapM (Validator.unmarshalRLPFrom t)
  return ⟨t, validators⟩

end Validators

end Nxchain
