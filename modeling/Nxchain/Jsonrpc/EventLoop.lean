import Nxchain.Blockchain
import Nxchain.Jsonrpc.FilterManager
import Nxchain.Lib.Runs

namespace Nxchain.Jsonrpc

def subscriptionCapacity : Nat := 1

def offer (channel : List Event) (event : Event) : List Event :=
  if channel.length < subscriptionCapacity then channel ++ [event] else channel

structure System where
  manager : FilterManager
  channel : List Event
  watched : Option Event
  created : List Ref
  polled : List Ref
  panicked : Option Panic

inductive Action where
  | push (event : Event)
  | getEvent
  | dispatchEvent
  | processHeader (store : Store)
  | flushWsFilters (delivery : Ref → FilterManager.Delivery)
  | removeClosedFilters
  | nextTimeoutFilter
  | timeoutFires
  | close
  | newBlockFilter (id : FilterId) (ws : Option ConnId)
  | newLogFilter (id : FilterId) (query : LogQuery) (ws : Option ConnId)
  | addFilter (r : Ref) (now : Nat)
  | getFilterAndChanges (id : FilterId)
  | refreshFilterTimeout (r : Ref) (now : Nat)
  | uninstall (id : FilterId)
  | removeFilterByWs (conn : ConnId)

namespace System

def new (timeout : Nat) (header : Header) : System :=
  ⟨.new timeout header, [], none, [], [], none⟩

variable (s : System)

def settle (result : Except Panic FilterManager) : System :=
  match result with
  | .error p => { s with panicked := some p }
  | .ok manager => { s with manager }

def FreshId (id : FilterId) : Prop := ∀ r < s.manager.allocated, (s.manager.base r).id ≠ id

instance (id : FilterId) : Decidable (s.FreshId id) :=
  inferInstanceAs (Decidable (∀ r < s.manager.allocated, (s.manager.base r).id ≠ id))

def create (manager : FilterManager) : System :=
  { s with manager, created := s.created ++ [s.manager.allocated] }

def removeFilter (id : FilterId) : System := s.settle ((s.manager.removeFilterByID id).map (·.1))

def work : Action → System
  | .nextTimeoutFilter =>
    match s.manager.worker with
    | .peeking =>
      let filterID := s.manager.nextTimeoutFilter
      { s with manager := { s.manager with
          worker := .waiting filterID
          armed := s.manager.armed || filterID ≠ "" } }
    | _ => s
  | .dispatchEvent =>
    match s.manager.worker, s.watched with
    | .waiting _, some event =>
      { s with manager := { s.manager with worker := .dispatching event.newChain }, watched := none }
    | _, _ => s
  | .processHeader store =>
    match s.manager.worker with
    | .dispatching (header :: headers) =>
      s.settle ({ s.manager with worker := .dispatching headers }.processHeader store header)
    | _ => s
  | .flushWsFilters delivery =>
    match s.manager.worker with
    | .dispatching [] =>
      let (manager, closedFilterIDs) := s.manager.flushWsFilters delivery
      { s with manager := { manager with worker := .flushing closedFilterIDs } }
    | _ => s
  | .removeClosedFilters =>
    match s.manager.worker with
    | .flushing closedFilterIDs =>
      s.settle ({ s.manager with worker := .peeking }.removeClosedFilters closedFilterIDs)
    | _ => s
  | .timeoutFires =>
    match s.manager.worker with
    | .waiting filterID =>
      if s.manager.armed then { s with manager := { s.manager with worker := .peeking } }.removeFilter filterID
      else s
    | _ => s
  | .close =>
    match s.manager.worker with
    | .waiting _ => { s with manager := { s.manager with worker := .stopped } }
    | _ => s
  | _ => s

def step (a : Action) : System :=
  if s.panicked.isSome then s
  else
    match a with
    | .push event => { s with channel := offer s.channel event }
    | .getEvent =>
      match s.watched, s.channel with
      | none, event :: channel => { s with watched := some event, channel }
      | _, _ => s
    | .newBlockFilter id ws => if s.FreshId id then s.create (s.manager.newBlockFilter id ws) else s
    | .newLogFilter id query ws => if s.FreshId id then s.create (s.manager.newLogFilter id query ws) else s
    | .addFilter r now =>
      if r ∈ s.created then
        { s with manager := s.manager.addFilter r now, created := s.created.erase r }
      else s
    | .getFilterAndChanges id =>
      match s.manager.getFilterAndChanges id with
      | .error _ => s
      | .ok (manager, r, _) => { s with manager, polled := r :: s.polled }
    | .refreshFilterTimeout r now =>
      if r ∈ s.polled then
        match s.manager.refreshFilterTimeout r now with
        | .error p => { s with panicked := some p }
        | .ok manager => { s with manager, polled := s.polled.erase r }
      else s
    | .uninstall id => s.removeFilter id
    | .removeFilterByWs conn => s.removeFilter (s.manager.wsFilterID conn)
    | a => s.work a

def Drained : Prop := s.channel = [] ∧ s.watched = none ∧ s.manager.worker.headers = []

instance : Decidable s.Drained :=
  inferInstanceAs (Decidable (s.channel = [] ∧ s.watched = none ∧ s.manager.worker.headers = []))

end System

end Nxchain.Jsonrpc
