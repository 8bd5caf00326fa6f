import Nxchain.Block
import Nxchain.Snapshot

namespace Nxchain

inductive IBFTType where
  | poA
  | poS
deriving DecidableEq

structure IBFTFork where
  type : IBFTType
  validatorType : ValidatorType
  fromHeight : Nat
  toHeight : Option Nat
  validators : Option Validators
deriving DecidableEq

abbrev IBFTForks := List IBFTFork

namespace IBFTForks

def getFork (forks : IBFTForks) (height : Nat) : Option IBFTFork :=
  forks.reverse.find? fun fork => fork.fromHeight ≤ height && fork.toHeight.all (height ≤ ·)

def filterByType (forks : IBFTForks) (ibftType : IBFTType) : IBFTForks :=
  forks.filter (·.type = ibftType)

def updateValidatorsFork (forks : IBFTForks) (height : Nat) : Option IBFTFork :=
  (forks.filterByType .poA).reverse.find? fun fork =>
    fork.validators.isSome && fork.fromHeight = height

end IBFTForks

def calculateContractStoreFetchingHeight (height epochSize forkFrom : Nat) : Nat :=
  let beginningEpoch := height / epochSize * epochSize
  let fetchingHeight := if beginningEpoch > 0 then beginningEpoch - 1 else 0
  if fetchingHeight ≥ forkFrom then fetchingHeight
  else if forkFrom > 0 then forkFrom - 1
  else forkFrom

structure ForkManager where
  crypto : Crypto
  codec : Rlp.Codec
  forks : IBFTForks
  keyManagers : ValidatorType → Option KeyManager
  contractValidators : ValidatorType → Nat → Except SnapshotError Validators
  epochSize : Nat
  epochSize_pos : 0 < epochSize

structure Hooks where
  shouldWriteTransactionFunc : Option (Nat → Bool)
  verifyHeaderFunc : Option (Header → Except SnapshotError Unit)
  verifyBlockFunc : Option (Block → Except ForkError Unit)
  processHeaderFunc : Option (SnapshotStore → Header → Except (Fault SnapshotError) SnapshotStore)
  postInsertBlockFunc :
    Option (HeaderGetter → SnapshotStore → Header → Except SnapshotError SnapshotStore)

namespace Hooks

def shouldWriteTransactions (hooks : Hooks) (height : Nat) : Bool :=
  match hooks.shouldWriteTransactionFunc with
  | none => true
  | some f => f height

def verifyHeader (hooks : Hooks) (header : Header) : Except SnapshotError Unit :=
  match hooks.verifyHeaderFunc with
  | none => .ok ()
  | some f => f header

def verifyBlock (hooks : Hooks) (block : Block) : Except ForkError Unit :=
  match hooks.verifyBlockFunc with
  | none => .ok ()
  | some f => f block

def processHeader (hooks : Hooks) (s : SnapshotStore) (header : Header) :
    Except (Fault SnapshotError) SnapshotStore :=
  match hooks.processHeaderFunc with
  | none => .ok s
  | some f => f s header

def postInsertBlock (hooks : Hooks) (chain : HeaderGetter) (s : SnapshotStore) (header : Header) :
    Except SnapshotError SnapshotStore :=
  match hooks.postInsertBlockFunc with
  | none => .ok s
  | some f => f chain s header

end Hooks

namespace ForkManager

variable (m : ForkManager)

def getKeyManager (height : Nat) : Except ForkError KeyManager :=
  match m.forks.getFork height with
  | none => .error .forkNotFound
  | some fork =>
    match m.keyManagers fork.validatorType with
    | none => .error .keyManagerNotFound
    | some keyManager => .ok keyManager

def getSigner (height : Nat) : Except ForkError Signer := do
  let keyManager ← m.getKeyManager height
  if height > 1 then
    let parentKeyManager ← m.getKeyManager (height - 1)
    return ⟨keyManager, some parentKeyManager⟩
  else
    return ⟨keyManager, none⟩

def signerInterface (signer : Signer) : SignerInterface where
  type := signer.keyManager.type
  ecrecoverFromHeader := signer.ecrecoverFromHeader m.crypto m.codec
  getValidators := signer.getValidators m.codec

def snapshotConfig : SnapshotConfig where
  codec := m.codec
  getSigner height := (m.getSigner height).map fun signer => some (m.signerInterface signer)
  epochSize := m.epochSize
  epochSize_pos := m.epochSize_pos

def getValidators (s : SnapshotStore) (height : Nat) : Except SnapshotError Validators :=
  match m.forks.getFork height with
  | none => .error (.fork .forkNotFound)
  | some fork =>
    match fork.type with
    | .poA => s.getValidatorsByHeight (pred64 height)
    | .poS => do
      let signer ← (m.getSigner height).mapError .fork
      m.contractValidators signer.keyManager.type
        (calculateContractStoreFetchingHeight height m.epochSize fork.fromHeight)

def isLastEpoch (height : Nat) : Bool := 0 < height && height % m.epochSize = 0

def getHooks (height : Nat) : Hooks where
  shouldWriteTransactionFunc :=
    ((m.forks.filterByType .poS).getFork height).map fun _ height => !m.isLastEpoch height
  verifyBlockFunc :=
    ((m.forks.filterByType .poS).getFork height).map fun _ block =>
      if m.isLastEpoch block.header.number && 0 < block.transactions.length then
        .error .txInLastEpochOfBlock
      else .ok ()
  verifyHeaderFunc :=
    ((m.forks.filterByType .poA).getFork height).map fun _ => SnapshotConfig.verifyHeader
  processHeaderFunc :=
    ((m.forks.filterByType .poA).getFork height).map fun _ => m.snapshotConfig.processHeader
  postInsertBlockFunc :=
    (m.forks.updateValidatorsFork (height + 1)).bind fun fork =>
      fork.validators.map fun validators chain s header =>
        if fork.fromHeight ≠ header.number + 1 then .ok s
        else SnapshotConfig.updateValidatorSet chain s validators fork.fromHeight

end ForkManager

end Nxchain
