import Nxchain.Fork
import Nxchain.Lib.Except

namespace Nxchain

def emptyUncleHash : Hash := FixedBytes.ofBytes 32
  (Rlp.bigEndian 0x1dcc4de8dec75d7aab85b567b6ccd41ad312451b948a7413f0a142fd40d49347)

def istanbulDigest : Hash := FixedBytes.ofBytes 32
  (Rlp.bigEndian 0x63746963616c2062797a616e74696e65206661756c7420746f6c6572616e6365)

def calcMaxFaultyNodes (s : Validators) : Nat := (s.len - 1) / 3

def legacyQuorumSize (set : Validators) : Nat := 2 * calcMaxFaultyNodes set + 1

def optimalQuorumSize (set : Validators) : Nat :=
  if calcMaxFaultyNodes set = 0 then set.len else (2 * set.len + 2) / 3

inductive IbftError where
  | invalidMixHash
  | invalidSha3Uncles
  | wrongDifficulty
  | proposerSealByNonValidator
  | parentHeaderNotFound (number : Nat)
  | incorrectSequence (number sequence : Nat)
  | decode (e : DecodeError)
  | invalidBlock (message : String)
  | signer (e : SignerError)
  | fork (e : ForkError)
  | snapshot (e : SnapshotError)
deriving DecidableEq

structure CommittedSeal where
  signer : Bytes
  signature : Bytes
deriving DecidableEq

def CommittedSeal.signerAddress (c : CommittedSeal) : Address := FixedBytes.ofBytes 20 c.signer

def setEntry {κ ν : Type} [DecidableEq κ] (m : List (κ × ν)) (key : κ) (value : ν) : List (κ × ν) :=
  m.filter (·.1 ≠ key) ++ [(key, value)]

def committedSealsMap (committedSeals : List CommittedSeal) : List (Address × Bytes) :=
  committedSeals.foldl (fun m c => setEntry m c.signerAddress c.signature) []

structure MapOrder where
  iterate : List (Address × Bytes) → List (Address × Bytes)
  perm : ∀ m, (iterate m).Perm m

structure BackendIBFT where
  forkManager : ForkManager
  quorumSizeBlockNum : Nat

namespace BackendIBFT

variable (i : BackendIBFT)

def quorumSize (blockNumber : Nat) (set : Validators) : Nat :=
  if blockNumber < i.quorumSizeBlockNum then legacyQuorumSize set else optimalQuorumSize set

def getModulesFromForkManager (s : SnapshotStore) (height : Nat) :
    Except (Fault IbftError) (Signer × Validators × Hooks) := do
  let signer ← (i.forkManager.getSigner height).mapError fun e => .error (.fork e)
  let validators ← (i.forkManager.getValidators s height).mapError fun e => .error (.snapshot e)
  return (signer, validators, i.forkManager.getHooks height)

def verifyProposerSeal (header : Header) (signer : Signer) (validators : Validators) :
    Except (Fault IbftError) Unit := do
  let proposer ← (signer.ecrecoverFromHeader i.forkManager.crypto i.forkManager.codec
    header).mapError (.map .signer)
  if !validators.includes proposer then
    throw (.error .proposerSealByNonValidator)

def verifyParentCommittedSeals (s : SnapshotStore) (parent header : Header)
    (shouldVerifyParentCommittedSeals : Bool) : Except (Fault IbftError) Unit :=
  if parent.isGenesis then .ok ()
  else do
    let (parentSigner, parentValidators, _) ← i.getModulesFromForkManager s parent.number
    (parentSigner.verifyParentCommittedSeals i.forkManager.crypto i.forkManager.codec parent header
      parentValidators (i.quorumSize parent.number parentValidators)
      shouldVerifyParentCommittedSeals).mapError (.map .signer)

def verifyHeaderImpl (s : SnapshotStore) (parent header : Header) (headerSigner : Signer)
    (validators : Validators) (hooks : Hooks) (shouldVerifyParentCommittedSeals : Bool) :
    Except (Fault IbftError) Unit := do
  if header.mixHash ≠ istanbulDigest then
    throw (.error .invalidMixHash)
  if header.sha3Uncles ≠ emptyUncleHash then
    throw (.error .invalidSha3Uncles)
  if header.difficulty ≠ header.number then
    throw (.error .wrongDifficulty)
  let _ ← (headerSigner.getIBFTExtra i.forkManager.codec header).mapError (.map .signer)
  i.verifyProposerSeal header headerSigner validators
  i.verifyParentCommittedSeals s parent header shouldVerifyParentCommittedSeals
  (hooks.verifyHeader header).mapError fun e => .error (.snapshot e)

theorem verifyHeaderImpl_proposer {i : BackendIBFT} {s : SnapshotStore} {parent header : Header} {signer : Signer}
    {validators : Validators} {hooks : Hooks} {mustExist : Bool}
    (hverify : i.verifyHeaderImpl s parent header signer validators hooks mustExist = .ok ()) :
    ∃ proposer, signer.ecrecoverFromHeader i.forkManager.crypto i.forkManager.codec header
        = .ok proposer ∧ validators.includes proposer = true := by
  have hseal : i.verifyProposerSeal header signer validators = .ok () := by
    simp only [verifyHeaderImpl, Except.ite_throw_bind_eq_ok_iff] at hverify
    obtain ⟨_, _, _, hverify⟩ := hverify
    obtain ⟨_, _, hverify⟩ := Except.bind_eq_ok_iff.mp hverify
    obtain ⟨_, hseal, _⟩ := Except.bind_eq_ok_iff.mp hverify
    exact hseal
  obtain ⟨proposer, hrecover, hincluded⟩ := Except.bind_eq_ok_iff.mp hseal
  refine ⟨proposer, Except.mapError_eq_ok_iff.mp hrecover, ?_⟩
  by_contra hnot
  rw [Bool.not_eq_true] at hnot
  simp only [hnot] at hincluded
  cases hincluded

def verifyHeader (chain : HeaderGetter) (s : SnapshotStore) (header : Header) :
    Except (Fault IbftError) Unit := do
  match chain.getHeaderByNumber (pred64 header.number) with
  | none => throw (.error (.parentHeaderNotFound header.number))
  | some parent =>
    let (headerSigner, validators, hooks) ← i.getModulesFromForkManager s header.number
    i.verifyHeaderImpl s parent header headerSigner validators hooks false
    (headerSigner.verifyCommittedSeals i.forkManager.crypto i.forkManager.codec header validators
      (i.quorumSize header.number validators)).mapError (.map .signer)

def insertHeader (chain : HeaderGetter) (s : SnapshotStore) (header : Header) : SnapshotStore :=
  let hooks := i.forkManager.getHooks header.number
  match hooks.processHeader s header with
  | .error _ => s
  | .ok s =>
    match hooks.postInsertBlock chain s header with
    | .error _ => s
    | .ok s => s

def headerHash (h : Header) : Except Panic Hash :=
  match i.forkManager.getSigner h.number with
  | .error _ => .ok zeroHash
  | .ok signer =>
    match signer.calculateHeaderHash i.forkManager.crypto i.forkManager.codec h with
    | .ok hash => .ok hash
    | .error (.panic p) => .error p
    | .error _ => .ok zeroHash

def unmarshalBlock (input : Bytes) : Except (Fault IbftError) Block :=
  match i.forkManager.codec.parse input with
  | none => .error (.error (.decode (.rlp .malformed)))
  | some v =>
    (Block.unmarshalRLPFrom i.headerHash
      (fun v => i.forkManager.crypto.keccak256 (i.forkManager.codec.marshal v)) v).mapError
      (.map .decode)

def isValidBlock (verifyPotentialBlock : Block → Except String Unit) (s : SnapshotStore)
    (latestHeader : Header) (currentSigner : Signer) (currentValidators : Validators)
    (currentHooks : Hooks) (proposal : Bytes) : Except (Fault IbftError) Unit := do
  let newBlock ← i.unmarshalBlock proposal
  if latestHeader.number + 1 ≠ newBlock.header.number then
    throw (.error (.incorrectSequence newBlock.header.number (latestHeader.number + 1)))
  i.verifyHeaderImpl s latestHeader newBlock.header currentSigner currentValidators currentHooks true
  (verifyPotentialBlock newBlock).mapError fun e => .error (.invalidBlock e)
  (currentHooks.verifyBlock newBlock).mapError fun e => .error (.fork e)

def isValidCommittedSeal (currentSigner : Signer) (currentValidators : Validators)
    (proposalHash : Bytes) (committedSeal : CommittedSeal) : Except SignerError Unit :=
  currentSigner.verifyCommittedSeal i.forkManager.crypto currentValidators
    committedSeal.signerAddress committedSeal.signature proposalHash

def validateExtraDataFormat (s : SnapshotStore) (header : Header) :
    Except (Fault IbftError) Unit := do
  let (blockSigner, _, _) ← i.getModulesFromForkManager s header.number
  let _ ← (blockSigner.getIBFTExtra i.forkManager.codec header).mapError (.map .signer)
  return ()

def insertBlock (order : MapOrder) (s : SnapshotStore) (currentSigner : Signer) (proposal : Bytes)
    (committedSeals : List CommittedSeal) : Except (Fault IbftError) Block := do
  let newBlock ← i.unmarshalBlock proposal
  let sealMap := committedSealsMap committedSeals
  let header ← (currentSigner.writeCommittedSeals i.forkManager.crypto i.forkManager.codec
    newBlock.header (order.iterate sealMap)).mapError (.map .signer)
  (i.validateExtraDataFormat s header).mapError fun
    | .error e =>
      if sealMap.length < committedSeals.length then .panic .indexOutOfRange else .error e
    | e => e
  return { newBlock with header := header }

end BackendIBFT

def toyBackend (forks : IBFTForks) (epochSize : Nat) (hpos : 0 < epochSize) : BackendIBFT where
  forkManager := {
    crypto := .toy
    codec := Rlp.standard
    forks := forks
    keyManagers := fun type => some ⟨type, zeroAddress⟩
    contractValidators := fun _ _ => .error .snapshotNotFound
    epochSize := epochSize
    epochSize_pos := hpos }
  quorumSizeBlockNum := 0

theorem toyEpochSize_pos : 0 < 10 := by decide

def blsBackend : BackendIBFT := toyBackend [⟨.poA, .bls, 0, none, none⟩] 10 toyEpochSize_pos

end Nxchain
