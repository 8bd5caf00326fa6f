import Nxchain.Lib.Rlp
import Nxchain.Types

namespace Nxchain

class Keccak where
  keccak256 : Bytes → Hash

export Keccak (keccak256)

structure Log where
  address : Address
  topics : List Hash
  data : Bytes
deriving DecidableEq

structure ForksInTime where
  homestead : Bool
  byzantium : Bool
  constantinople : Bool
  petersburg : Bool
  istanbul : Bool
  eip150 : Bool
  eip158 : Bool
  eip155 : Bool
deriving DecidableEq

structure TxContext where
  gasPrice : Nat
  origin : Address
  coinbase : Address
  number : Nat
  timestamp : Nat
  gasLimit : Nat
  chainID : Nat
  difficulty : Nat
deriving DecidableEq

inductive StorageStatus where
  | unchanged
  | modified
  | modifiedAgain
  | added
  | deleted
deriving DecidableEq

inductive CallType where
  | call
  | callCode
  | delegateCall
  | staticCall
  | create
  | create2
deriving DecidableEq

structure Contract where
  code : Bytes
  type : CallType
  codeAddress : Address
  address : Address
  origin : Address
  caller : Address
  depth : Nat
  value : Option Int
  input : Bytes
  gas : Nat
  static : Bool
deriving DecidableEq

namespace Contract

def newContract (depth : Nat) (origin caller addr : Address) (value : Option Int) (gas : Nat)
    (code : Bytes) : Contract :=
  { code := code, type := .call, codeAddress := addr, address := addr, origin := origin,
    caller := caller, depth := depth, value := value, input := [], gas := gas, static := false }

def newContractCreation (depth : Nat) (origin caller addr : Address) (value : Option Int)
    (gas : Nat) (code : Bytes) : Contract :=
  newContract depth origin caller addr value gas code

def newContractCall (depth : Nat) (origin caller addr : Address) (value : Option Int)
    (gas : Nat) (code input : Bytes) : Contract :=
  { newContract depth origin caller addr value gas code with input := input }

end Contract

namespace Runtime

inductive Error where
  | outOfGas
  | stackOverflow
  | stackUnderflow
  | insufficientBalance
  | maxCodeSizeExceeded
  | contractAddressCollision
  | depth
  | executionReverted
  | codeStoreOutOfGas
  | gasUintOverflow
  | writeProtection
  | invalidJump
  | opCodeNotFound
  | returnDataOutOfBounds
  | precompiled (message : String)
deriving DecidableEq

structure ExecutionResult where
  returnValue : Bytes
  gasLeft : Nat
  err : Option Error
deriving DecidableEq

namespace ExecutionResult

def succeeded (r : ExecutionResult) : Bool := r.err.isNone

def failed (r : ExecutionResult) : Bool := r.err.isSome

def reverted (r : ExecutionResult) : Bool := r.err = some .executionReverted

end ExecutionResult

end Runtime

section Addresses

variable [Keccak]

def createAddress (addr : Address) (nonce : Nat) : Address :=
  let encoded := Rlp.standard.marshal (.list [.bytes addr.toBytes, .bytes (Rlp.bigEndian nonce)])
  FixedBytes.ofBytes 20 ((keccak256 encoded).toBytes.drop 12)

def createAddress2 (addr : Address) (salt : Hash) (inithash : Bytes) : Address :=
  let encoded := 0xff :: addr.toBytes ++ salt.toBytes ++ (keccak256 inithash).toBytes
  FixedBytes.ofBytes 20 ((keccak256 encoded).toBytes.drop 12)

end Addresses

end Nxchain
