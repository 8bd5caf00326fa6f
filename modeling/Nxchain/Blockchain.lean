import Nxchain.Lib.Lru
import Nxchain.Types

namespace Nxchain

structure Storage where
  canonical : Nat → Option Hash
  headHash : Option Hash
  headNumber : Option Nat
  forks : Option (List Hash)
  difficulty : Hash → Option Nat
  headers : Hash → Option Header

namespace Storage

def empty : Storage where
  canonical := fun _ => none
  headHash := none
  headNumber := none
  forks := none
  difficulty := fun _ => none
  headers := fun _ => none

def writeCanonicalHash (s : Storage) (n : Nat) (hash : Hash) : Storage :=
  { s with canonical := Function.update s.canonical n (some hash) }

def writeHeadHash (s : Storage) (hash : Hash) : Storage := { s with headHash := some hash }

def writeHeadNumber (s : Storage) (n : Nat) : Storage := { s with headNumber := some n }

def writeForks (s : Storage) (forks : List Hash) : Storage := { s with forks := some forks }

def writeTotalDifficulty (s : Storage) (hash : Hash) (diff : Nat) : Storage :=
  { s with difficulty := Function.update s.difficulty hash (some diff) }

def writeHeader (s : Storage) (h : Header) : Storage :=
  { s with headers := Function.update s.headers h.hash (some h) }

def writeCanonicalHeader (s : Storage) (h : Header) (diff : Nat) : Storage :=
  ((((s.writeHeader h).writeHeadHash h.hash).writeHeadNumber h.number).writeCanonicalHash
    h.number h.hash).writeTotalDifficulty h.hash diff

def readHeader (headerHash : Header → Hash) (s : Storage) (hash : Hash) : Option Header :=
  (s.headers hash).map (Header.computeHash headerHash)

end Storage

inductive EventType where
  | head
  | reorg
  | fork
deriving DecidableEq

structure Event where
  oldChain : List Header := []
  newChain : List Header := []
  difficulty : Option Nat := none
  type : EventType := .head
  source : String := ""

namespace Event

def addNewHeader (e : Event) (h : Header) : Event := { e with newChain := e.newChain ++ [h] }

def addOldHeader (e : Event) (h : Header) : Event := { e with oldChain := e.oldChain ++ [h] }

def setDifficulty (e : Event) (d : Nat) : Event := { e with difficulty := some d }

end Event

structure Blockchain where
  db : Storage
  genesis : Hash
  headersCache : Lru Hash Header
  difficultyCache : Lru Hash Nat
  currentHeader : Option Header
  currentDifficulty : Option Nat

inductive BlockchainError where
  | parentDifficultyNotFound
  | parentNotFound (hash : Hash) (number : Nat)
deriving DecidableEq

namespace Blockchain

def defaultCacheSize : Nat := 100

def new : Blockchain where
  db := Storage.empty
  genesis := zeroHash
  headersCache := Lru.empty defaultCacheSize
  difficultyCache := Lru.empty defaultCacheSize
  currentHeader := none
  currentDifficulty := none

abbrev M := EStateM (Fault BlockchainError) Blockchain

def modifyDb (f : Storage → Storage) : M Unit := modify fun b => { b with db := f b.db }

def setCurrentHeader (h : Header) (diff : Nat) : M Unit :=
  modify fun b => { b with currentHeader := some h, currentDifficulty := some diff }

def header : M Header := do
  match (← get).currentHeader with
  | some h => return h
  | none => throw (.panic .nilDereference)

def readTotalDifficulty (headerHash : Hash) : M (Option Nat) := do
  let b ← get
  match b.difficultyCache.get headerHash with
  | some (d, cache) =>
    set { b with difficultyCache := cache }
    return some d
  | none =>
    match b.db.difficulty headerHash with
    | none => return none
    | some d =>
      set { b with difficultyCache := b.difficultyCache.add headerHash d }
      return some d

variable (headerHash : Header → Hash)

def readHeader (hash : Hash) : M (Option Header) := do
  let b ← get
  match b.headersCache.get hash with
  | some (h, cache) =>
    set { b with headersCache := cache }
    return some h
  | none =>
    match b.db.readHeader headerHash hash with
    | none => return none
    | some h =>
      let h := h.computeHash headerHash
      set { b with headersCache := b.headersCache.add hash h }
      return some h

def readParent (h : Header) : M Header := do
  match ← readHeader headerHash h.parentHash with
  | some parent => return parent
  | none => throw (.panic .nilDereference)

def writeCanonicalHeader (evnt : Event) (h : Header) : M Event := do
  match ← readTotalDifficulty h.parentHash with
  | none => throw (.error .parentDifficultyNotFound)
  | some parentTD =>
    let newTD := parentTD + h.difficulty
    modifyDb (·.writeCanonicalHeader h newTD)
    setCurrentHeader h newTD
    return { (evnt.addNewHeader h).setDifficulty newTD with type := .head }

def advanceHead (newHeader : Header) : M Nat := do
  modifyDb (·.writeHeadHash newHeader.hash)
  modifyDb (·.writeHeadNumber newHeader.number)
  modifyDb (·.writeCanonicalHash newHeader.number newHeader.hash)
  let parentTD ←
    -- the zero hash marks a header that has no parent
    if newHeader.parentHash ≠ zeroHash then
      match ← readTotalDifficulty newHeader.parentHash with
      | none => throw (.error .parentDifficultyNotFound)
      | some td => pure td
    else
      pure 0
  let newTD := parentTD + newHeader.difficulty
  modifyDb (·.writeTotalDifficulty newHeader.hash newTD)
  setCurrentHeader newHeader newTD
  return newTD

def writeGenesisImpl (h : Header) : M Unit := do
  modify fun b => { b with genesis := h.hash }
  modifyDb (·.writeHeader h)
  let _ ← advanceHead h

def writeFork (h : Header) : M Unit := do
  let forks := (← get).db.forks.getD []
  let newForks := forks.filter (fun fork => fork ≠ h.parentHash) ++ [h.hash]
  modifyDb (·.writeForks newForks)

def walkDown (number : Nat) : Nat → Header → List Header → M (Header × List Header)
  | 0, _, _ => throw .outOfFuel
  | fuel + 1, h, chain => do
    if h.number > number then
      let parent ← readParent headerHash h
      walkDown number fuel parent (chain ++ [parent])
    else
      return (h, chain)

def walkTogether : Nat → Header → Header → List Header → M (List Header)
  | 0, _, _, _ => throw .outOfFuel
  | fuel + 1, oldHeader, newHeader, oldChain => do
    if oldHeader.hash ≠ newHeader.hash then
      let oldHeader ← readParent headerHash oldHeader
      let newHeader ← readParent headerHash newHeader
      walkTogether fuel oldHeader newHeader (oldChain ++ [oldHeader])
    else
      return oldChain

def handleReorg (fuel : Nat) (evnt : Event) (oldHeader newHeader : Header) : M Event := do
  let newChainHead := newHeader
  let oldChainHead := oldHeader
  let (oldHeader, oldChain) ← walkDown headerHash newHeader.number fuel oldHeader []
  let (newHeader, newChain) ← walkDown headerHash oldHeader.number fuel newHeader []
  let oldChain ← walkTogether headerHash fuel oldHeader newHeader oldChain
  -- `oldChain[:len(oldChain)-1]`
  if oldChain.isEmpty then
    throw (.panic .indexOutOfRange)
  let evnt := oldChain.dropLast.foldl Event.addOldHeader evnt
  let evnt := (evnt.addOldHeader oldChainHead).addNewHeader newChainHead
  let evnt := newChain.foldl Event.addNewHeader evnt
  writeFork oldChainHead
  modifyDb fun db => newChain.foldl (fun db h => db.writeCanonicalHash h.number h.hash) db
  let diff ← advanceHead newChainHead
  return { evnt.setDifficulty diff with type := .reorg }

def writeHeaderImpl (fuel : Nat) (evnt : Event) (h : Header) : M Event := do
  let currentHeader ← header
  if h.parentHash = currentHeader.hash then
    writeCanonicalHeader evnt h
  else
    modifyDb (·.writeHeader h)
    match ← readTotalDifficulty currentHeader.hash with
    | none => throw (.panic (.explicit "failed to get header difficulty"))
    | some currentTD =>
      match ← readTotalDifficulty h.parentHash with
      | none => throw (.error (.parentNotFound h.hash h.number))
      | some parentTD =>
        let incomingTD := parentTD + h.difficulty
        modifyDb (·.writeTotalDifficulty h.hash incomingTD)
        modify fun b => { b with headersCache := b.headersCache.add h.hash h }
        if incomingTD > currentTD then
          handleReorg headerHash fuel evnt currentHeader h
        else
          writeFork h
          return { evnt.addOldHeader h with type := .fork }

def getHashLoop (i : Nat) : Nat → Nat → Hash → M Hash
  | 0, _, _ => throw .outOfFuel
  | fuel + 1, num, hash => do
    if num = i then
      return hash
    match ← readHeader headerHash hash with
    | none => return zeroHash
    | some h =>
      if num = 0 then
        return zeroHash
      getHashLoop i fuel (num - 1) h.parentHash

def getHashHelper (fuel : Nat) (header : Header) (i : Nat) : M Hash :=
  getHashLoop headerHash i fuel (pred64 header.number) header.parentHash

end Blockchain

end Nxchain
