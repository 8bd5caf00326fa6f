import Nxchain.Block
import Nxchain.Lib.Heap

namespace Nxchain.Txpool

def nonceLess (x y : Transaction) : Prop :=
  if x.nonce = y.nonce then y.gasPrice < x.gasPrice else x.nonce < y.nonce

instance : DecidableRel nonceLess := fun x y =>
  inferInstanceAs (Decidable (if x.nonce = y.nonce then y.gasPrice < x.gasPrice else x.nonce < y.nonce))

def priceLess (x y : Transaction) : Prop := y.gasPrice % 2 ^ 64 < x.gasPrice % 2 ^ 64

instance : DecidableRel priceLess := fun x y =>
  inferInstanceAs (Decidable (y.gasPrice % 2 ^ 64 < x.gasPrice % 2 ^ 64))

class ContainerHeap where
  byNonce : Heap.Chooser nonceLess
  byPrice : Heap.Chooser priceLess

abbrev Queue := List Transaction

variable [ContainerHeap]

namespace Queue

def push (q : Queue) (tx : Transaction) : Queue := q ++ [tx]

def peek (q : Queue) : Option Transaction := ContainerHeap.byNonce.first q

def pop (q : Queue) : Option Transaction × Queue :=
  match peek q with
  | none => (none, q)
  | some tx => (some tx, q.erase tx)

def prune (q : Queue) (nonce : Nat) : List Transaction × Queue :=
  ContainerHeap.byNonce.drain (fun tx => tx.nonce < nonce) q.length q

end Queue

inductive Error where
  | intrinsicGas
  | blockLimitExceeded
  | extractSignature
  | invalidSender
  | txPoolOverflow
  | underpriced
  | nonceTooLow
  | insufficientFunds
  | invalidAccountState
  | alreadyKnown
  | oversizedData
  | maxEnqueuedLimitReached
  | rejectFutureTx
  | smartContractRestricted
  | intrinsicGasOverflow
deriving DecidableEq

structure Account where
  enqueued : Queue
  promoted : Queue
  nextNonce : Nat
  demotions : Nat
  skips : Nat
  maxEnqueued : Nat
  resetting : Option Nat
deriving DecidableEq

namespace Account

def new (nonce maxEnqueued : Nat) : Account where
  enqueued := []
  promoted := []
  nextNonce := nonce
  demotions := 0
  skips := 0
  maxEnqueued := maxEnqueued
  resetting := none

def enqueue (a : Account) (tx : Transaction) : Except Error Account :=
  if a.enqueued.length = a.maxEnqueued then .error .maxEnqueuedLimitReached
  else if tx.nonce < a.nextNonce then .error .nonceTooLow
  else .ok { a with enqueued := Queue.push a.enqueued tx }

structure Promotion where
  nextNonce : Nat
  enqueued : Queue
  promoted : Queue
  moved : List Transaction
  pruned : List Transaction

def promoteLoop : Nat → Promotion → Promotion
  | 0, p => p
  | fuel + 1, p =>
    match Queue.peek p.enqueued with
    | none => p
    | some tx =>
      if tx.nonce = p.nextNonce then
        let nextNonce := (tx.nonce + 1) % 2 ^ 64
        let (pruned, enqueued) := Queue.prune (p.enqueued.erase tx) nextNonce
        promoteLoop fuel
          { nextNonce := nextNonce
            enqueued := enqueued
            promoted := Queue.push p.promoted tx
            moved := p.moved ++ [tx]
            pruned := p.pruned ++ pruned }
      else p

def promote (a : Account) : (List Transaction × List Transaction) × Account :=
  match Queue.peek a.enqueued with
  | none => (([], []), a)
  | some first =>
    if a.nextNonce < first.nonce then (([], []), a)
    else
      let p := promoteLoop a.enqueued.length ⟨first.nonce, a.enqueued, a.promoted, [], []⟩
      let nextNonce := if a.nextNonce < p.nextNonce then p.nextNonce else a.nextNonce
      ((p.moved, p.pruned),
        { a with enqueued := p.enqueued, promoted := p.promoted, nextNonce := nextNonce })

def resetPromoted (a : Account) (nonce : Nat) : List Transaction × Account :=
  let (pruned, promoted) := Queue.prune a.promoted nonce
  let resetting := if nonce ≤ a.nextNonce then none else some nonce
  (pruned, { a with promoted := promoted, resetting := resetting })

def promotionSignal (enqueued : Queue) (nonce : Nat) : Option Address :=
  match Queue.peek enqueued with
  | some first => if first.nonce = nonce then some first.sender else none
  | none => none

def resetEnqueued (a : Account) : List Transaction × Option Address × Account :=
  match a.resetting with
  | none => ([], none, a)
  | some nonce =>
    let (pruned, enqueued) := Queue.prune a.enqueued nonce
    (pruned, promotionSignal enqueued nonce,
      { a with enqueued := enqueued, nextNonce := nonce, resetting := none })

def resetDemotions (a : Account) : Account := { a with demotions := 0 }

def incrementDemotions (a : Account) : Account := { a with demotions := (a.demotions + 1) % 2 ^ 64 }

def resetSkips (a : Account) : Account := { a with skips := 0 }

def incrementSkips (a : Account) : Account := { a with skips := (a.skips + 1) % 2 ^ 64 }

def pop (a : Account) : Account :=
  { a with promoted := (Queue.pop a.promoted).2, demotions := 0 }

def drop (a : Account) (tx : Transaction) : Account :=
  { a with nextNonce := tx.nonce, promoted := [], enqueued := [] }

def pruneNonceHoles (a : Account) : List Transaction × Account :=
  match Queue.peek a.enqueued with
  | none => ([], a)
  | some first =>
    if first.nonce = a.nextNonce then ([], a)
    else (a.enqueued, { a with enqueued := [] })

def getLowestTx (a : Account) : Option Transaction :=
  match Queue.peek a.promoted with
  | some tx => some tx
  | none => Queue.peek a.enqueued

end Account

inductive Section where
  | enqueue (tx : Transaction)
  | promote
  | resetPromoted (nonce : Nat)
  | resetEnqueued
  | pop
  | drop (tx : Transaction)
  | pruneNonceHoles

namespace Account

def step (a : Account) : Section → Account
  | .enqueue tx =>
    match a.enqueue tx with
    | .ok a => a
    | .error _ => a
  | .pruneNonceHoles => a.pruneNonceHoles.2
  | .resetEnqueued => a.resetEnqueued.2.2
  | .promote => if a.resetting.isSome then a else a.promote.2
  | .resetPromoted nonce => if a.resetting.isSome then a else (a.resetPromoted nonce).2
  | .pop => if a.resetting.isSome then a else a.pop
  | .drop tx => if a.resetting.isSome then a else a.drop tx

end Account

end Nxchain.Txpool
