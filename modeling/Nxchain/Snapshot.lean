import Nxchain.Lib.Versions
import Nxchain.Signer

namespace Nxchain

structure Vote where
  validator : Address
  candidate : Validator
  authorize : Bool
deriving DecidableEq

def Vote.equal (v vv : Vote) : Bool :=
  v.validator = vv.validator && v.candidate.equal vv.candidate && v.authorize = vv.authorize

structure Snapshot where
  number : Nat
  hash : Hash
  votes : List Vote
  set : Validators
deriving DecidableEq

namespace Snapshot

def equal (s ss : Snapshot) : Bool :=
  s.votes.length = ss.votes.length && (s.votes.zip ss.votes).all (fun (v, vv) => v.equal vv)
    && s.set.equal ss.set

def count (s : Snapshot) (h : Vote → Bool) : Nat := s.votes.countP h

def addVote (s : Snapshot) (voter : Address) (candidate : Validator) (authorize : Bool) : Snapshot :=
  { s with votes := s.votes ++ [⟨voter, candidate, authorize⟩] }

def copy (s : Snapshot) : Snapshot := ⟨0, zeroHash, s.votes, s.set⟩

def countByVoterAndCandidate (s : Snapshot) (voter : Address) (candidate : Validator) : Nat :=
  s.count fun v => v.validator = voter && v.candidate.equal candidate

def countByCandidate (s : Snapshot) (candidate : Validator) : Nat :=
  s.count fun v => v.candidate.equal candidate

def removeVotes (s : Snapshot) (shouldRemoveFn : Vote → Bool) : Snapshot :=
  { s with votes := s.votes.filter (fun v => !shouldRemoveFn v) }

def removeVotesByVoter (s : Snapshot) (address : Address) : Snapshot :=
  s.removeVotes fun v => v.validator = address

def removeVotesByCandidate (s : Snapshot) (candidate : Validator) : Snapshot :=
  s.removeVotes fun v => v.candidate.equal candidate

end Snapshot

structure SnapshotStore where
  lastNumber : Nat
  list : List Snapshot
deriving DecidableEq

inductive ForkError where
  | forkNotFound
  | keyManagerNotFound
  | txInLastEpochOfBlock
deriving DecidableEq

inductive SnapshotError where
  | invalidNonce
  | snapshotNotFound
  | unauthorizedProposer
  | incorrectNonce
  | multipleVotesBySameValidator
  | signerNotFound (number : Nat)
  | headerNotFound (number : Nat)
  | validators (e : ValidatorsError)
  | signer (e : SignerError)
  | fork (e : ForkError)
deriving DecidableEq

namespace SnapshotStore

def empty : SnapshotStore := ⟨0, []⟩

def updateLastBlock (s : SnapshotStore) (num : Nat) : SnapshotStore := { s with lastNumber := num }

def sortSnapshots (list : List Snapshot) : List Snapshot :=
  list.insertionSort (fun s ss => s.number ≤ ss.number)

def add (s : SnapshotStore) (snap : Snapshot) : SnapshotStore :=
  { s with list := sortSnapshots (s.list ++ [snap]) }

def numberAt (s : SnapshotStore) (p : Nat → Bool) (i : Nat) : Bool :=
  (s.list[i]?).any fun snap => p snap.number

def find (s : SnapshotStore) (num : Nat) : Option Snapshot :=
  match s.list.getLast? with
  | none => none
  | some last =>
    if last.number < num then some last
    else
      let i := Versions.search s.list.length (s.numberAt (· ≥ num))
      match s.list[i]? with
      | none => none
      | some snap =>
        if i = 0 then s.list.head?
        else if snap.number = num then some snap
        else s.list[i - 1]?

def putByNumber (s : SnapshotStore) (snap : Snapshot) : SnapshotStore :=
  let i := Versions.search s.list.length (s.numberAt (· = snap.number))
  if i < s.list.length then { s with list := s.list.set i snap } else s.add snap

def closestLoop (numbers : Nat → Nat) (blockNum : Nat) : Nat → Nat → Nat → Nat ⊕ Nat × Nat
  | 0, low, high => .inr (low, high)
  | fuel + 1, low, high =>
    if low ≤ high then
      let mid := (high + low) / 2
      if blockNum < numbers mid then closestLoop numbers blockNum fuel low (mid - 1)
      else if blockNum > numbers mid then closestLoop numbers blockNum fuel (mid + 1) high
      else .inl mid
    else .inr (low, high)

def findClosestSnapshotIndex (s : SnapshotStore) (blockNum : Nat) :
    Except (Fault SnapshotError) Nat :=
  match s.list.head?, s.list.getLast? with
  | some first, some last =>
    if blockNum < first.number then .ok 0
    else if blockNum > last.number then .ok (s.list.length - 1)
    else
      let numbers := fun i => ((s.list[i]?).map Snapshot.number).getD 0
      match closestLoop numbers blockNum s.list.length 0 (s.list.length - 1) with
      | .inl mid => .ok mid
      | .inr (low, high) =>
        match s.list[low]?, s.list[high]? with
        | some above, some below =>
          if sub64 above.number blockNum < sub64 blockNum below.number then .ok high
          else .ok low
        | _, _ => .error (.panic .indexOutOfRange)
  | _, _ => .error (.panic .indexOutOfRange)

def deleteLower (s : SnapshotStore) (num : Nat) : Except (Fault SnapshotError) SnapshotStore := do
  let pruneIndex ← s.findClosestSnapshotIndex num
  return { s with list := s.list.drop pruneIndex }

def getValidatorsByHeight (s : SnapshotStore) (height : Nat) : Except SnapshotError Validators :=
  match s.find height with
  | none => .error .snapshotNotFound
  | some snapshot => .ok snapshot.set

end SnapshotStore

def nonceAuthVote : Nonce := ⟨List.replicate 8 255, rfl⟩

def nonceDropVote : Nonce := FixedBytes.zero 8

def isAuthorize (nonce : Nonce) : Except SnapshotError Bool :=
  if nonce = nonceAuthVote then .ok true
  else if nonce = nonceDropVote then .ok false
  else .error .incorrectNonce

def shouldProcessVote (validators : Validators) (candidate : Address) (voteAction : Bool) : Bool :=
  voteAction ≠ validators.includes candidate

def addsOrDelsCandidate (validators : Validators) (candidate : Validator) (updateAction : Bool) :
    Except ValidatorsError Validators :=
  if updateAction then validators.add candidate else validators.del candidate

def minerToValidator (codec : Rlp.Codec) (validatorType : ValidatorType) (miner : Bytes) :
    Except ValidatorsError Validator :=
  Validator.setFromBytes codec validatorType miner

def castVote (snapshot : Snapshot) (voter : Address) (candidate : Validator) (authorize : Bool) :
    Except SnapshotError Snapshot := do
  let voteCount := snapshot.countByVoterAndCandidate voter candidate
  if voteCount > 1 then
    throw .multipleVotesBySameValidator
  let snapshot := if voteCount = 0 then snapshot.addVote voter candidate authorize else snapshot
  let totalVotes := snapshot.countByCandidate candidate
  if totalVotes > snapshot.set.len / 2 then
    let set ← (addsOrDelsCandidate snapshot.set candidate authorize).mapError .validators
    let snapshot := { snapshot with set := set }
    let snapshot := if authorize then snapshot else snapshot.removeVotesByVoter candidate.addr
    return snapshot.removeVotesByCandidate candidate
  else
    return snapshot

def processVote (codec : Rlp.Codec) (snapshot : Snapshot) (header : Header)
    (candidateType : ValidatorType) (proposer : Address) : Except SnapshotError Snapshot := do
  let authorize ← isAuthorize header.nonce
  let candidate ← (minerToValidator codec candidateType header.miner).mapError .validators
  if !shouldProcessVote snapshot.set candidate.addr authorize then
    return snapshot
  castVote snapshot proposer candidate authorize

structure SignerInterface where
  type : ValidatorType
  ecrecoverFromHeader : Header → Except (Fault SignerError) Address
  getValidators : Header → Except (Fault SignerError) Validators

structure HeaderGetter where
  header : Header
  getHeaderByNumber : Nat → Option Header

structure SnapshotConfig where
  codec : Rlp.Codec
  getSigner : Nat → Except ForkError (Option SignerInterface)
  epochSize : Nat
  epochSize_pos : 0 < epochSize

def Fault.ofSigner : Fault SignerError → Fault SnapshotError := Fault.map .signer

namespace SnapshotConfig

variable (config : SnapshotConfig)

def signerAt (height : Nat) : Except (Fault SnapshotError) SignerInterface := do
  match ← (config.getSigner height).mapError fun e => .error (.fork e) with
  | none => throw (.error (.signerNotFound height))
  | some signer => return signer

def addHeaderSnap (s : SnapshotStore) (header : Header) :
    Except (Fault SnapshotError) SnapshotStore := do
  let signer ← config.signerAt header.number
  let validators ← (signer.getValidators header).mapError .ofSigner
  return s.add ⟨header.number, header.hash, [], validators⟩

def saveSnapshotIfChanged (s : SnapshotStore) (parentSnapshot snapshot : Snapshot)
    (header : Header) : SnapshotStore :=
  if snapshot.equal parentSnapshot then s
  else s.add { snapshot with number := header.number, hash := header.hash }

def resetSnapshot (s : SnapshotStore) (parentSnapshot snapshot : Snapshot) (header : Header) :
    SnapshotStore :=
  saveSnapshotIfChanged s parentSnapshot { snapshot with votes := [] } header

def removeLowerSnapshots (s : SnapshotStore) (currentHeight : Nat) :
    Except (Fault SnapshotError) SnapshotStore :=
  if currentHeight / config.epochSize > 2 then
    s.deleteLower ((currentHeight / config.epochSize - 2) * config.epochSize)
  else .ok s

def processHeader (s : SnapshotStore) (header : Header) :
    Except (Fault SnapshotError) SnapshotStore := do
  let signer ← config.signerAt header.number
  let proposer ← (signer.ecrecoverFromHeader header).mapError .ofSigner
  match s.find (pred64 header.number) with
  | none => throw (.error .snapshotNotFound)
  | some parentSnap =>
    if !parentSnap.set.includes proposer then
      throw (.error .unauthorizedProposer)
    let snap := parentSnap.copy
    if header.number % config.epochSize = 0 then
      let s := resetSnapshot s parentSnap snap header
      let s ← config.removeLowerSnapshots s header.number
      return s.updateLastBlock header.number
    if header.miner = zeroAddress.toBytes then
      return s.updateLastBlock header.number
    let snap ← (processVote config.codec snap header signer.type proposer).mapError .error
    return saveSnapshotIfChanged (s.updateLastBlock header.number) parentSnap snap header

def verifyHeader (header : Header) : Except SnapshotError Unit :=
  if header.nonce ≠ nonceAuthVote ∧ header.nonce ≠ nonceDropVote then .error .invalidNonce
  else .ok ()

variable (chain : HeaderGetter)

def processHeaderAt (s : SnapshotStore) (i : Nat) : Except (Fault SnapshotError) SnapshotStore :=
  if i = 0 then .ok s
  else
    match chain.getHeaderByNumber i with
    | none => .error (.error (.headerNotFound i))
    | some header => config.processHeader s header

def processHeadersInRange (s : SnapshotStore) (start stop : Nat) :
    Except (Fault SnapshotError) SnapshotStore :=
  (List.range' start (stop + 1 - start)).foldlM (config.processHeaderAt chain) s

def restoreBeginning (s : SnapshotStore) : Except (Fault SnapshotError) SnapshotStore := do
  let beginHeight := chain.header.number / config.epochSize * config.epochSize
  match chain.getHeaderByNumber beginHeight with
  | none => throw (.error (.headerNotFound beginHeight))
  | some beginHeader =>
    let s ← config.addHeaderSnap s beginHeader
    return s.updateLastBlock beginHeight

def initializeStore (s : SnapshotStore) : Except (Fault SnapshotError) SnapshotStore := do
  let header := chain.header
  let metaLastBlock := s.lastNumber
  let s ← if header.number = 0 then config.addHeaderSnap s header else pure s
  let currentEpoch := header.number / config.epochSize
  let metaEpoch := metaLastBlock / config.epochSize
  let s ←
    if (s.find header.number).isNone ∨ metaEpoch < currentEpoch then
      config.restoreBeginning chain s
    else pure s
  if header.number > s.lastNumber then
    config.processHeadersInRange chain s (s.lastNumber + 1) header.number
  else
    return s

def updateValidatorSet (s : SnapshotStore) (newValidators : Validators) (fromHeight : Nat) :
    Except SnapshotError SnapshotStore :=
  let snapshotHeight := pred64 fromHeight
  match chain.getHeaderByNumber snapshotHeight with
  | none => .error (.headerNotFound snapshotHeight)
  | some header => .ok (s.putByNumber ⟨header.number, header.hash, [], newValidators⟩)

end SnapshotConfig

end Nxchain
