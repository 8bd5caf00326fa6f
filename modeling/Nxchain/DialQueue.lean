import Mathlib.Data.List.Basic
import Nxchain.Lib.SwapHeap

namespace Nxchain.Dial

abbrev PeerId := String

abbrev TaskRef := Nat

structure DialTask where
  index : Option Nat
  peer : PeerId
  priority : Nat
deriving DecidableEq

structure DialQueueImpl where
  task : TaskRef → DialTask
  entries : List TaskRef

namespace DialQueueImpl

def setIndex (t : DialQueueImpl) (r : TaskRef) (index : Option Nat) : DialQueueImpl :=
  { t with task := Function.update t.task r { t.task r with index } }

def less (t : DialQueueImpl) (i j : Nat) : Bool :=
  match t.entries[i]?, t.entries[j]? with
  | some a, some b => (t.task a).priority < (t.task b).priority
  | _, _ => false

def swap (t : DialQueueImpl) (i j : Nat) : DialQueueImpl :=
  match t.entries[i]?, t.entries[j]? with
  | some a, some b =>
    ({ t with entries := t.entries.swap i j }.setIndex b (some i)).setIndex a (some j)
  | _, _ => t

def interface : SwapHeap.Interface DialQueueImpl where
  len t := t.entries.length
  less := less
  swap := swap

def push (t : DialQueueImpl) (r : TaskRef) : DialQueueImpl :=
  { t with entries := t.entries ++ [r] }.setIndex r (some t.entries.length)

def pop (t : DialQueueImpl) : DialQueueImpl :=
  match t.entries.getLast? with
  | none => t
  | some r => { t with entries := t.entries.dropLast }.setIndex r none

end DialQueueImpl

structure DialQueue where
  heap : DialQueueImpl
  tasks : PeerId → Option TaskRef
  allocated : Nat

namespace DialQueue

open DialQueueImpl (interface)

def new : DialQueue where
  heap := ⟨fun _ => ⟨none, "", 0⟩, []⟩
  tasks _ := none
  allocated := 0

def popTaskImpl (d : DialQueue) : Option TaskRef × DialQueue :=
  if d.heap.entries.length ≠ 0 then
    let heap := interface.sinkFirst d.heap
    (heap.entries.getLast?, { d with heap := heap.pop })
  else (none, d)

def deleteTask (d : DialQueue) (peer : PeerId) : DialQueue :=
  match d.tasks peer with
  | none => d
  | some item =>
    let heap :=
      match (d.heap.task item).index with
      | none => d.heap
      | some i => (interface.sink d.heap i).pop
    { d with heap, tasks := Function.update d.tasks peer none }

def addTask (d : DialQueue) (peer : PeerId) (priority : Nat) : DialQueue :=
  let r := d.allocated
  let heap := { d.heap with task := Function.update d.heap.task r ⟨some 0, peer, priority⟩ }
  { heap := interface.raiseLast (heap.push r)
    tasks := Function.update d.tasks peer (some r)
    allocated := r + 1 }

end DialQueue

inductive DialCall where
  | addTask (peer : PeerId) (priority : Nat)
  | deleteTask (peer : PeerId)
  | popTaskImpl
deriving DecidableEq

namespace DialQueue

def step (d : DialQueue) : DialCall → DialQueue
  | .addTask peer priority => d.addTask peer priority
  | .deleteTask peer => d.deleteTask peer
  | .popTaskImpl => d.popTaskImpl.2

def pops (d : DialQueue) : DialCall → List PeerId
  | .popTaskImpl => d.popTaskImpl.1.toList.map fun r => (d.heap.task r).peer
  | _ => []

end DialQueue

end Nxchain.Dial
