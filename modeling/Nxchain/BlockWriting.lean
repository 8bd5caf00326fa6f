import Nxchain.Blockchain
import Nxchain.Encoding

namespace Nxchain

inductive WriteError where
  | chain (e : BlockchainError)
  | database
  | sender (message : String)
  | parentNotFound
  | execution (message : String)
  | consensus (message : String)
deriving DecidableEq

structure BlockStore where
  chain : Blockchain
  bodies : Hash → Option Body
  txLookup : Hash → Option Hash
  receipts : Hash → Option (List Receipt)
  receiptsCache : Lru Hash (List Receipt)
  writes : Nat
  events : List Event

structure WriteEnv where
  headerHash : Header → Hash
  fails : Nat → Bool
  sender : Transaction → Except String Address
  processBlock : Header → Block → Except String (List Receipt)
  processHeaders : BlockStore → List Header → Except String Unit

namespace BlockStore

abbrev M := EStateM (Fault WriteError) BlockStore

def onChain {α : Type} (x : Blockchain.M α) : M α := fun s =>
  match x.run s.chain with
  | .ok a chain => .ok a { s with chain }
  | .error e chain => .error (e.map .chain) { s with chain }

def check {ε α : Type} (error : ε → WriteError) : Except ε α → M α
  | .ok a => pure a
  | .error e => throw (.error (error e))

variable (env : WriteEnv)

def put (f : BlockStore → BlockStore) : M Unit := do
  let s ← get
  if env.fails s.writes then
    set { s with writes := s.writes + 1 }
    throw (.error .database)
  else
    set { f s with writes := s.writes + 1 }

def putDb (f : Storage → Storage) : M Unit :=
  put env fun s => { s with chain := { s.chain with db := f s.chain.db } }

def writeCanonicalHeader (evnt : Event) (h : Header) : M Event := do
  match ← onChain (Blockchain.readTotalDifficulty h.parentHash) with
  | none => throw (.error (.chain .parentDifficultyNotFound))
  | some parentTD =>
    let newTD := parentTD + h.difficulty
    putDb env (·.writeHeader h)
    putDb env (·.writeHeadHash h.hash)
    putDb env (·.writeHeadNumber h.number)
    putDb env (·.writeCanonicalHash h.number h.hash)
    putDb env (·.writeTotalDifficulty h.hash newTD)
    onChain (Blockchain.setCurrentHeader h newTD)
    return { (evnt.addNewHeader h).setDifficulty newTD with type := .head }

def advanceHead (newHeader : Header) : M Nat := do
  putDb env (·.writeHeadHash newHeader.hash)
  putDb env (·.writeHeadNumber newHeader.number)
  putDb env (·.writeCanonicalHash newHeader.number newHeader.hash)
  let parentTD ←
    if newHeader.parentHash ≠ zeroHash then
      match ← onChain (Blockchain.readTotalDifficulty newHeader.parentHash) with
      | none => throw (.error (.chain .parentDifficultyNotFound))
      | some td => pure td
    else
      pure 0
  let newTD := parentTD + newHeader.difficulty
  putDb env (·.writeTotalDifficulty newHeader.hash newTD)
  onChain (Blockchain.setCurrentHeader newHeader newTD)
  return newTD

def writeFork (h : Header) : M Unit := do
  let forks := (← get).chain.db.forks.getD []
  let newForks := forks.filter (fun fork => fork ≠ h.parentHash) ++ [h.hash]
  putDb env (·.writeForks newForks)

def walkReorg (fuel : Nat) (oldHeader newHeader : Header) : Blockchain.M (List Header × List Header) := do
  let (oldHeader, oldChain) ← Blockchain.walkDown env.headerHash newHeader.number fuel oldHeader []
  let (newHeader, newChain) ← Blockchain.walkDown env.headerHash oldHeader.number fuel newHeader []
  let oldChain ← Blockchain.walkTogether env.headerHash fuel oldHeader newHeader oldChain
  if oldChain.isEmpty then
    throw (.panic .indexOutOfRange)
  return (oldChain, newChain)

def handleReorg (fuel : Nat) (evnt : Event) (oldChainHead newChainHead : Header) : M Event := do
  let (oldChain, newChain) ← onChain (walkReorg env fuel oldChainHead newChainHead)
  let evnt := oldChain.dropLast.foldl Event.addOldHeader evnt
  let evnt := (evnt.addOldHeader oldChainHead).addNewHeader newChainHead
  let evnt := newChain.foldl Event.addNewHeader evnt
  writeFork env oldChainHead
  newChain.forM fun h => putDb env (·.writeCanonicalHash h.number h.hash)
  let diff ← advanceHead env newChainHead
  return { evnt.setDifficulty diff with type := .reorg }

def writeHeaderImpl (fuel : Nat) (evnt : Event) (h : Header) : M Event := do
  let currentHeader ← onChain Blockchain.header
  if h.parentHash = currentHeader.hash then
    writeCanonicalHeader env evnt h
  else
    putDb env (·.writeHeader h)
    match ← onChain (Blockchain.readTotalDifficulty currentHeader.hash) with
    | none => throw (.panic (.explicit "failed to get header difficulty"))
    | some currentTD =>
      match ← onChain (Blockchain.readTotalDifficulty h.parentHash) with
      | none => throw (.error (.chain (.parentNotFound h.hash h.number)))
      | some parentTD =>
        let incomingTD := parentTD + h.difficulty
        putDb env (·.writeTotalDifficulty h.hash incomingTD)
        onChain (modify fun b => { b with headersCache := b.headersCache.add h.hash h })
        if incomingTD > currentTD then
          handleReorg env fuel evnt currentHeader h
        else
          writeFork env h
          return { evnt.addOldHeader h with type := .fork }

def recoverFromFields (block : Block) : Except String Block := do
  let transactions ← block.transactions.mapM fun tx =>
    if tx.sender ≠ zeroAddress then .ok tx else (env.sender tx).map fun sender => { tx with sender }
  return { block with transactions }

def writeBody (block : Block) : M Block := do
  let block ← check .sender (recoverFromFields env block)
  put env fun s => { s with
    bodies := Function.update s.bodies block.header.hash (some ⟨block.transactions, block.uncles⟩) }
  block.transactions.forM fun txn => put env fun s => { s with
    txLookup := Function.update s.txLookup txn.hash (some block.header.hash) }
  return block

def executeBlockTransactions (block : Block) : M (List Receipt) := do
  match ← onChain (Blockchain.readHeader env.headerHash block.header.parentHash) with
  | none => throw (.error .parentNotFound)
  | some parent =>
    let receipts ← check .execution (env.processBlock parent block)
    modify fun s => { s with receiptsCache := s.receiptsCache.add block.header.hash receipts }
    return receipts

def extractBlockReceipts (block : Block) : M (List Receipt) := do
  let s ← get
  match s.receiptsCache.get block.header.hash with
  | some (receipts, receiptsCache) =>
    set { s with receiptsCache }
    return receipts
  | none => executeBlockTransactions env block

def writeBlock (fuel : Nat) (block : Block) (source : String) : M Unit := do
  let currentHeader ← onChain Blockchain.header
  if block.header.number ≤ currentHeader.number then
    return
  let block ← writeBody env block
  let evnt ← writeHeaderImpl env fuel { source } block.header
  let blockReceipts ← extractBlockReceipts env block
  put env fun s => { s with
    receipts := Function.update s.receipts block.header.hash (some blockReceipts) }
  check .consensus (env.processHeaders (← get) [block.header])
  modify fun s => { s with events := s.events ++ [evnt] }

end BlockStore

end Nxchain
