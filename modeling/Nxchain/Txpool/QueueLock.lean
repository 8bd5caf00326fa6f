import Nxchain.Lib.RwLock
import Nxchain.Lib.Runs

namespace Nxchain.Txpool

inductive LockPosition where
  | outside
  | locking (write : Bool)
  | storing (write : Bool)
  | holding (write : Bool)
  | releasing (write : Bool) (swapped : Nat)
deriving DecidableEq

def LockPosition.took : LockPosition → Option Bool
  | outside | locking _ => none
  | storing write | holding write | releasing write _ => some write

structure QueueLock (τ : Type) where
  mutex : RwLock
  wLock : Nat
  position : τ → LockPosition
  crashed : Bool

structure LockStep (τ : Type) where
  thread : τ
  write : Bool

structure Release where
  took : Bool
  unlock : Bool
deriving DecidableEq

namespace QueueLock

variable {τ : Type} [DecidableEq τ]

def new : QueueLock τ := ⟨.free, 0, fun _ => .outside, false⟩

def move (s : QueueLock τ) (t : τ) (p : LockPosition) : QueueLock τ :=
  { s with position := Function.update s.position t p }

def step (s : QueueLock τ) (e : LockStep τ) : QueueLock τ :=
  if s.crashed then s
  else
    match s.position e.thread with
    | .outside => s.move e.thread (.locking e.write)
    | .locking write =>
      match s.mutex.acquire write with
      | none => s
      | some mutex => { s with mutex := mutex }.move e.thread (.storing write)
    | .storing write =>
      { s with wLock := if write then 1 else 0 }.move e.thread (.holding write)
    | .holding write => { s with wLock := 0 }.move e.thread (.releasing write s.wLock)
    | .releasing _ swapped =>
      match s.mutex.release (swapped = 1) with
      | none => { s with crashed := true }
      | some mutex => { s with mutex := mutex }.move e.thread .outside

def releases (s : QueueLock τ) (e : LockStep τ) : List Release :=
  match s.crashed, s.position e.thread with
  | false, .releasing write swapped => [⟨write, swapped = 1⟩]
  | _, _ => []

end QueueLock

end Nxchain.Txpool
