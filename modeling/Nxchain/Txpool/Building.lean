import Nxchain.Txpool.Schedule

namespace Nxchain.Txpool

inductive Phase where
  | idle
  | preparing (remaining : List Address)
  | selecting
  | executing (tx : Transaction)
deriving DecidableEq

structure Node where
  system : System
  phase : Phase
  popped : List Transaction

inductive NodeEvent where
  | other (e : Event)
  | prepare
  | collect (pick : Nat)
  | peek
  | pop
  | drop
  | demote
  | finish (inserted : Bool)

def Event.isConcurrent : Event → Bool
  | .addTx _ | .run _ _ | .setHead _ | .setSealing _ | .pruneAccounts | .resetWithHeaders _ => true
  | _ => false

namespace Node

def new (maxSlots : Nat) (store : Store) (sealing : Bool) : Node :=
  ⟨.new maxSlots store sealing, .idle, []⟩

def demoteWaits (n : Node) (tx : Transaction) : Bool :=
  match n.system.pool.accounts.lookup tx.sender with
  | none => true
  | some acc => acc.resetting.isSome && maxAccountDemotions ≤ acc.demotions

def call (n : Node) : NodeEvent → Option Event
  | .other e => if e.isConcurrent then some e else none
  | .prepare =>
    match n.phase with
    | .idle => some .clearExecutables
    | _ => none
  | .collect pick =>
    match n.phase with
    | .preparing remaining =>
      (remaining[pick]?).filter n.system.unlocked |>.map .pushPrimary
    | _ => none
  | .peek =>
    match n.phase with
    | .selecting => some .peek
    | _ => none
  | .pop =>
    match n.phase with
    | .executing tx => if n.system.unlocked tx.sender then some (.pop tx) else none
    | _ => none
  | .drop =>
    match n.phase with
    | .executing tx => if n.system.unlocked tx.sender then some (.drop tx) else none
    | _ => none
  | .demote =>
    match n.phase with
    | .executing tx => if n.demoteWaits tx then none else some (.demote tx)
    | _ => none
  | .finish inserted =>
    match n.phase with
    | .selecting | .executing _ => if inserted then some (.resetWithHeaders [n.popped]) else none
    | _ => none

variable [ContainerHeap]

def progress (n : Node) : NodeEvent → Phase × List Transaction
  | .other _ => (n.phase, n.popped)
  | .prepare =>
    match n.phase with
    | .idle => (.preparing n.system.pool.accounts.keys, [])
    | phase => (phase, n.popped)
  | .collect pick =>
    match n.phase with
    | .preparing [] => (.selecting, n.popped)
    | .preparing remaining =>
      if (n.call (.collect pick)).isSome then (.preparing (remaining.eraseIdx pick), n.popped)
      else (.preparing remaining, n.popped)
    | phase => (phase, n.popped)
  | .peek =>
    match n.phase, n.system.pool.peek.1 with
    | .selecting, some tx => (.executing tx, n.popped)
    | phase, _ => (phase, n.popped)
  | .pop =>
    match n.phase, n.call .pop with
    | .executing tx, some _ => (.selecting, n.popped ++ [tx])
    | phase, _ => (phase, n.popped)
  | .drop => if (n.call .drop).isSome then (.selecting, n.popped) else (n.phase, n.popped)
  | .demote => if (n.call .demote).isSome then (.selecting, n.popped) else (n.phase, n.popped)
  | .finish _ =>
    match n.phase with
    | .selecting | .executing _ => (.idle, [])
    | phase => (phase, n.popped)

variable [Keccak] (c : Config)

def step (n : Node) (e : NodeEvent) : Node where
  system :=
    match n.call e with
    | some call => n.system.step c call
    | none => n.system
  phase := (n.progress e).1
  popped := (n.progress e).2

def run (n : Node) (events : List NodeEvent) : Node := events.foldl (step c) n

end Node

end Nxchain.Txpool
