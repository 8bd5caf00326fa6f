import Nxchain.Jsonrpc.Logs
import Nxchain.Lib.SwapHeap

namespace Nxchain.Jsonrpc

abbrev FilterId := String

abbrev Ref := Nat

abbrev ConnId := Nat

structure FilterBase where
  id : FilterId
  heapIndex : Option Nat
  expiresAt : Nat
  ws : Option ConnId
deriving DecidableEq

def FilterBase.hasWSConn (base : FilterBase) : Bool := base.ws.isSome

structure TimeHeap where
  bases : Ref → FilterBase
  entries : List Ref

namespace TimeHeap

def setIndex (t : TimeHeap) (r : Ref) (index : Option Nat) : TimeHeap :=
  { t with bases := Function.update t.bases r { t.bases r with heapIndex := index } }

def setExpiry (t : TimeHeap) (r : Ref) (expiresAt : Nat) : TimeHeap :=
  { t with bases := Function.update t.bases r { t.bases r with expiresAt } }

def less (t : TimeHeap) (i j : Nat) : Bool :=
  match t.entries[i]?, t.entries[j]? with
  | some a, some b => (t.bases a).expiresAt < (t.bases b).expiresAt
  | _, _ => false

def swap (t : TimeHeap) (i j : Nat) : TimeHeap :=
  match t.entries[i]?, t.entries[j]? with
  | some a, some b =>
    ({ t with entries := t.entries.swap i j }.setIndex b (some i)).setIndex a (some j)
  | _, _ => t

def interface : SwapHeap.Interface TimeHeap where
  len t := t.entries.length
  less := less
  swap := swap

def push (t : TimeHeap) (r : Ref) : TimeHeap :=
  { t with entries := t.entries ++ [r] }.setIndex r (some t.entries.length)

def pop (t : TimeHeap) : TimeHeap :=
  match t.entries.getLast? with
  | none => t
  | some r => { t with entries := t.entries.dropLast }.setIndex r none

def addFilter (t : TimeHeap) (r : Ref) : TimeHeap := interface.raiseLast (t.push r)

def removeFilter (t : TimeHeap) (r : Ref) : Except Panic (TimeHeap × Bool) :=
  match (t.bases r).heapIndex with
  | none => .ok (t, false)
  | some i => if i < t.entries.length then .ok ((interface.sink t i).pop, true) else .error .indexOutOfRange

end TimeHeap

structure HeadElem where
  header : Header
  next : Option Nat
deriving DecidableEq

structure BlockStream where
  elems : List HeadElem
  head : Nat
deriving DecidableEq

namespace BlockStream

def new (header : Header) : BlockStream := ⟨[⟨header, none⟩], 0⟩

def push (b : BlockStream) (header : Header) : BlockStream where
  elems := b.elems.modify b.head (fun elem => { elem with next := some b.elems.length }) ++ [⟨header, none⟩]
  head := b.elems.length

def getUpdates (b : BlockStream) : Nat → Nat → List Header × Nat
  | 0, cur => ([], cur)
  | rounds + 1, cur =>
    match (b.elems[cur]?).bind (·.next) with
    | none => ([], cur)
    | some next =>
      let (res, last) := getUpdates b rounds next
      (((b.elems[next]?).map (·.header)).toList ++ res, last)

end BlockStream

inductive FilterKind where
  | block (elem : Nat)
  | log (query : LogQuery) (logs : List LogObject)
deriving DecidableEq

inductive Updates where
  | hashes (hashes : List Hash)
  | logs (logs : List LogObject)
deriving DecidableEq

inductive FilterError where
  | filterNotFound
  | wsFilterDoesNotSupportGetChanges
deriving DecidableEq

inductive Worker where
  | peeking
  | waiting (filterID : FilterId)
  | dispatching (headers : List Header)
  | flushing (closedFilterIDs : List FilterId)
  | stopped
deriving DecidableEq

def Worker.headers : Worker → List Header
  | .dispatching headers => headers
  | _ => []

structure FilterManager where
  timeout : Nat
  timeouts : TimeHeap
  kinds : Ref → FilterKind
  allocated : Nat
  filters : FilterId → Option Ref
  blockStream : BlockStream
  wsFilterID : ConnId → FilterId
  worker : Worker
  armed : Bool

namespace FilterManager

variable (m : FilterManager)

def base (r : Ref) : FilterBase := m.timeouts.bases r

def new (timeout : Nat) (header : Header) : FilterManager where
  timeout
  timeouts := ⟨fun _ => ⟨"", none, 0, none⟩, []⟩
  kinds := fun _ => .block 0
  allocated := 0
  filters := fun _ => none
  blockStream := .new header
  wsFilterID := fun _ => ""
  worker := .peeking
  armed := false

def allocate (id : FilterId) (ws : Option ConnId) (kind : FilterKind) : FilterManager :=
  { m with
    timeouts := { m.timeouts with
      bases := Function.update m.timeouts.bases m.allocated ⟨id, none, 0, ws⟩ }
    kinds := Function.update m.kinds m.allocated kind
    allocated := m.allocated + 1
    wsFilterID := match ws with
      | none => m.wsFilterID
      | some conn => Function.update m.wsFilterID conn id }

def newBlockFilter (id : FilterId) (ws : Option ConnId) : FilterManager :=
  m.allocate id ws (.block m.blockStream.head)

def newLogFilter (id : FilterId) (query : LogQuery) (ws : Option ConnId) : FilterManager :=
  m.allocate id ws (.log query [])

def emitSignalToUpdateCh : FilterManager :=
  match m.worker with
  | .waiting _ => { m with worker := .peeking }
  | _ => m

def addFilterTimeout (r : Ref) (now : Nat) : FilterManager :=
  { m with timeouts := (m.timeouts.setExpiry r (now + m.timeout)).addFilter r }.emitSignalToUpdateCh

def addFilter (r : Ref) (now : Nat) : FilterManager :=
  let m := { m with filters := Function.update m.filters (m.base r).id (some r) }
  if (m.base r).hasWSConn then m else m.addFilterTimeout r now

def removeFilterByID (id : FilterId) : Except Panic (FilterManager × Bool) :=
  match m.filters id with
  | none => .ok (m, false)
  | some r => do
    let (timeouts, removed) ← m.timeouts.removeFilter r
    let m := { m with filters := Function.update m.filters id none, timeouts }
    return (if removed then m.emitSignalToUpdateCh else m, true)

def refreshFilterTimeout (r : Ref) (now : Nat) : Except Panic FilterManager := do
  let (timeouts, _) ← m.timeouts.removeFilter r
  return { m with timeouts }.addFilterTimeout r now

def getUpdates (r : Ref) : FilterManager × Updates :=
  match m.kinds r with
  | .block elem =>
    let (headers, last) := m.blockStream.getUpdates m.blockStream.elems.length elem
    ({ m with kinds := Function.update m.kinds r (.block last) }, .hashes (headers.map (·.hash)))
  | .log query logs => ({ m with kinds := Function.update m.kinds r (.log query []) }, .logs logs)

def getFilterAndChanges (id : FilterId) : Except FilterError (FilterManager × Ref × Updates) :=
  match m.filters id with
  | none => .error .filterNotFound
  | some r =>
    if (m.base r).hasWSConn then .error .wsFilterDoesNotSupportGetChanges
    else
      let (m, updates) := m.getUpdates r
      .ok (m, r, updates)

def installed : List Ref := (List.range m.allocated).filter fun r => m.filters (m.base r).id = some r

def logFilters : List Ref :=
  m.installed.filter fun r =>
    match m.kinds r with
    | .block _ => false
    | .log _ _ => true

def appendLog (log : Log) (object : LogObject) (r : Ref) : FilterManager :=
  match m.kinds r with
  | .block _ => m
  | .log query logs =>
    if query.accepts log then { m with kinds := Function.update m.kinds r (.log query (logs ++ [object])) }
    else m

def logOfHeader (header : Header) (txHash : Hash) (indx : Nat) (log : Log) : LogObject :=
  { address := log.address
    topics := log.topics
    data := log.data
    blockNumber := header.number
    blockHash := header.hash
    txHash
    txIndex := indx
    logIndex := 0
    removed := false }

def receiptTxHash (block : Block) (receipt : Receipt) (indx : Nat) : Except Panic Hash :=
  if receipt.txHash = zeroHash then (Store.transactionAt block indx).map (·.hash) else .ok receipt.txHash

def appendReceiptLogs (header : Header) (block : Block) (logFilters : List Ref) (receipt : Receipt)
    (indx : Nat) : Except Panic FilterManager := do
  let txHash ← receiptTxHash block receipt indx
  return receipt.logs.foldl (fun m log =>
    logFilters.foldl (fun m => m.appendLog log (logOfHeader header txHash indx log)) m) m

def appendLogsToFilters (store : Store) (header : Header) : Except Panic FilterManager :=
  match store.getReceiptsByHash header.hash with
  | .error _ => .ok m
  | .ok receipts =>
    let logFilters := m.logFilters
    if logFilters.length = 0 then .ok m
    else
      match store.getBlockByHash header.hash with
      | none => .ok m
      | some block =>
        receipts.zipIdx.foldlM (fun m (receipt, indx) =>
          m.appendReceiptLogs header block logFilters receipt indx) m

def processHeader (store : Store) (header : Header) : Except Panic FilterManager :=
  { m with blockStream := m.blockStream.push header }.appendLogsToFilters store header

inductive Delivery where
  | sent
  | closed
  | failed
deriving DecidableEq

def wsFilters : List Ref := m.installed.filter fun r => (m.base r).hasWSConn

def flushWsFilters (delivery : Ref → Delivery) : FilterManager × List FilterId :=
  (m.wsFilters.foldl (fun m r => (m.getUpdates r).1) m,
    (m.wsFilters.filter fun r => delivery r = .closed).map fun r => (m.base r).id)

def removeClosedFilters (closedFilterIDs : List FilterId) : Except Panic FilterManager :=
  closedFilterIDs.foldlM (fun m id => (m.removeFilterByID id).map (·.1)) m

def nextTimeoutFilter : FilterId :=
  match m.timeouts.entries with
  | [] => ""
  | r :: _ => (m.base r).id

end FilterManager

end Nxchain.Jsonrpc
