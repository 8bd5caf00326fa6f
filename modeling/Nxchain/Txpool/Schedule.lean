import Nxchain.Txpool.Pool

namespace Nxchain.Txpool

structure ResetAccounts where
  stateNonces : List (Address × Nat)
  remaining : List (Address × Nat)
  prunedPromoted : List Transaction
  prunedEnqueued : List Transaction

inductive Action where
  /- `addTx` after the validation. -/
  | checkPressure (tx : Transaction)
  | checkFuture (tx : Transaction)
  | checkOverflow (tx : Transaction)
  | addIndex (tx : Transaction)
  | createAccountOnce (tx : Transaction)
  | fetchNonce (tx : Transaction)
  | initOnce (tx : Transaction) (nonce : Nat)
  /- `handleEnqueueRequest`. -/
  | enqueue (tx : Transaction)
  | increase (tx : Transaction)
  | testNonce (tx : Transaction)
  /- `handlePromoteRequest`, and the clean-up after it and after `resetAccounts`. -/
  | promote (addr : Address)
  | removeIndex (txs : List Transaction)
  | decrease (txs : List Transaction)
  /- `pruneAccountsWithNonceHoles`. -/
  | prune (remaining : List Address)
  /- `processEvent`. -/
  | processBlocks (latest : Address → Nat) (blocks : List (List Transaction))
      (stateNonces : List (Address × Nat))
  | reset (r : ResetAccounts)
  | resetEnqueued (addr : Address) (r : ResetAccounts)
  | checkSealing (latestActiveAccounts : List Address)
  | updateSkips (latestActiveAccounts remaining : List Address)
  | drop (tx : Transaction)
  | resetSkips (addr : Address)

inductive Outcome where
  | blocked
  | rejected (e : Error)
  | done (pool : Pool) (next : List Action) (promotions : List Address)

namespace Action

variable [ContainerHeap] [Keccak] (c : Config) (store : Store) (sealing : Bool) (p : Pool)

def next {α : Type} (remaining : List α) (pick : Nat) (finish : Outcome)
    (visit : α → List α → Outcome) : Outcome :=
  match remaining, remaining[pick]? with
  | [], _ => finish
  | _ :: _, none => .blocked
  | _ :: _, some x => visit x (remaining.eraseIdx pick)

def visitReset (r : ResetAccounts) (addr : Address) (nonce : Nat)
    (remaining : List (Address × Nat)) : Outcome :=
  match p.accounts.lookup addr with
  | none => .done p [.reset { r with remaining := remaining }] []
  | some a =>
    if a.resetting.isSome then .blocked
    else
      let (pruned, a) := a.resetPromoted nonce
      let r := { r with remaining := remaining, prunedPromoted := r.prunedPromoted ++ pruned }
      if a.resetting.isSome then .done (p.setAccount addr a) [.resetEnqueued addr r] []
      else .done (p.setAccount addr a.resetDemotions) [.reset r] []

def finishReset (r : ResetAccounts) : Outcome :=
  .done p
    [.removeIndex r.prunedPromoted, .decrease r.prunedPromoted, .removeIndex r.prunedEnqueued,
      .decrease r.prunedEnqueued, .checkSealing (r.stateNonces.map Prod.fst)] []

def visitSkips (latestActiveAccounts : List Address) (addr : Address) (remaining : List Address) :
    Outcome :=
  let rest := Action.updateSkips latestActiveAccounts remaining
  match p.accounts.lookup addr with
  | none => .done p [rest] []
  | some a =>
    if addr ∈ latestActiveAccounts then .done (p.setAccount addr a.resetSkips) [rest] []
    else if a.resetting.isSome then .blocked
    else
      match a.getLowestTx with
      | none => .done p [rest] []
      | some firstTx =>
        if a.incrementSkips.skips < maxAccountSkips then
          .done (p.setAccount addr a.incrementSkips) [rest] []
        else
          .done (p.setAccount addr a.incrementSkips) [.drop firstTx, .resetSkips addr, rest] []

def run (pick : Nat) : Action → Outcome
  | checkPressure tx =>
    .done p [if p.gauge.highPressure then checkFuture tx else checkOverflow tx] []
  | checkFuture tx =>
    if p.rejectsFuture tx then .rejected .rejectFutureTx else .done p [checkOverflow tx] []
  | checkOverflow tx =>
    if p.overflows c tx then .rejected .txPoolOverflow
    else .done p [addIndex (c.computeHash tx)] []
  | addIndex tx =>
    if (p.index tx.hash).isSome then .rejected .alreadyKnown
    else .done (p.addIndex tx) [createAccountOnce tx] []
  | createAccountOnce tx =>
    if (p.accounts.lookup tx.sender).isSome then .done p [enqueue tx] []
    else .done p [fetchNonce tx] []
  | fetchNonce tx => .done p [initOnce tx (store.nonce tx.sender)] []
  | initOnce tx nonce => .done (p.initOnce c tx.sender nonce) [enqueue tx] []
  | enqueue tx =>
    match p.accounts.lookup tx.sender with
    | none => .blocked
    | some a =>
      match a.enqueue tx with
      | .error _ => .done p [removeIndex [tx]] []
      | .ok a => .done (p.setAccount tx.sender a) [increase tx] []
  | increase tx => .done (p.increase c [tx]) [testNonce tx] []
  | testNonce tx =>
    match p.accounts.lookup tx.sender with
    | none => .blocked
    | some a => .done p [] (if a.nextNonce < tx.nonce then [] else [tx.sender])
  | promote addr =>
    match p.accounts.lookup addr with
    | none => .blocked
    | some a =>
      if a.resetting.isSome then .blocked
      else
        let ((_, pruned), a) := a.promote
        .done (p.setAccount addr a) [removeIndex pruned, decrease pruned] []
  | removeIndex txs => .done (p.removeIndex txs) [] []
  | decrease txs => .done (p.decrease c txs) [] []
  | prune remaining =>
    next remaining pick (.done p [] []) fun addr remaining =>
      .done (p.pruneAccount c addr) [prune remaining] []
  | processBlocks _ [] stateNonces => .done p [reset ⟨stateNonces, stateNonces, [], []⟩] []
  | processBlocks latest (txs :: blocks) stateNonces =>
    .done (p.removeIndex txs)
      [processBlocks latest blocks (c.addStateNonces latest stateNonces txs)] []
  | reset r =>
    next r.remaining pick (finishReset p r) fun (addr, nonce) remaining =>
      visitReset p r addr nonce remaining
  | resetEnqueued addr r =>
    match p.accounts.lookup addr with
    | none => .blocked
    | some a =>
      let (pruned, signal, a) := a.resetEnqueued
      .done (p.setAccount addr a.resetDemotions)
        [reset { r with prunedEnqueued := r.prunedEnqueued ++ pruned }] signal.toList
  | checkSealing latestActiveAccounts =>
    .done p (if sealing then [] else [updateSkips latestActiveAccounts p.accounts.keys]) []
  | updateSkips latestActiveAccounts remaining =>
    next remaining pick (.done p [] []) fun addr remaining =>
      visitSkips p latestActiveAccounts addr remaining
  | drop tx =>
    match p.accounts.lookup tx.sender with
    | none => .blocked
    | some a => if a.resetting.isSome then .blocked else .done (p.drop c tx) [] []
  | resetSkips addr => .done (p.modifyAccount addr Account.resetSkips) [] []

end Action

structure System where
  pool : Pool
  store : Store
  sealing : Bool
  goroutines : List (List Action)

inductive Event where
  | addTx (tx : Transaction)
  | run (goroutine pick : Nat)
  | setHead (store : Store)
  | setSealing (sealing : Bool)
  | pruneAccounts
  | resetWithHeaders (blocks : List (List Transaction))
  | clearExecutables
  | pushPrimary (addr : Address)
  | peek
  | pop (tx : Transaction)
  | drop (tx : Transaction)
  | demote (tx : Transaction)

namespace System

def new (maxSlots : Nat) (store : Store) (sealing : Bool) : System :=
  ⟨.new maxSlots, store, sealing, []⟩

def pending (s : System) : List Action := s.goroutines.flatten

def Quiet (s : System) : Prop := s.pending = []

instance (s : System) : Decidable s.Quiet :=
  decidable_of_iff (s.pending.isEmpty = true) List.isEmpty_iff

variable [ContainerHeap] [Keccak] (c : Config)

def unlocked (s : System) (addr : Address) : Bool :=
  match s.pool.accounts.lookup addr with
  | none => false
  | some a => a.resetting.isNone

def go (s : System) (actions : List Action) : System :=
  { s with goroutines := actions :: s.goroutines }

def advance (s : System) (goroutine pick : Nat) : System :=
  match s.goroutines[goroutine]? with
  | some (a :: rest) =>
    let others := s.goroutines.eraseIdx goroutine
    match a.run c s.store s.sealing s.pool pick with
    | .blocked => s
    | .rejected _ => { s with goroutines := rest :: others }
    | .done pool next promotions =>
      { s with
        pool := pool
        goroutines := (next ++ rest) :: (promotions.map fun addr => [.promote addr]) ++ others }
  | _ => s

def step (s : System) : Event → System
  | .addTx tx =>
    match c.validateTx s.store tx with
    | .error _ => s
    | .ok tx => s.go [.checkPressure tx]
  | .run goroutine pick => s.advance c goroutine pick
  | .setHead store => { s with store := store }
  | .setSealing sealing => { s with sealing := sealing }
  | .pruneAccounts => s.go [.prune s.pool.accounts.keys]
  | .resetWithHeaders blocks => s.go [.processBlocks s.store.nonce blocks []]
  | .clearExecutables => { s with pool := { s.pool with executables := [] } }
  | .pushPrimary addr =>
    match s.pool.accounts.lookup addr with
    | none => s
    | some a =>
      if a.resetting.isSome then s
      else
        { s with pool :=
            { s.pool with
              executables := s.pool.executables ++ (Queue.peek a.promoted).toList } }
  | .peek => { s with pool := s.pool.peek.2 }
  | .pop tx => if s.unlocked tx.sender then { s with pool := s.pool.pop c tx } else s
  | .drop tx => if s.unlocked tx.sender then { s with pool := s.pool.drop c tx } else s
  | .demote tx =>
    -- the counter is not protected by the locks, only an account that is dropped has to wait
    match s.pool.accounts.lookup tx.sender with
    | none => s
    | some a =>
      if a.resetting.isSome && maxAccountDemotions ≤ a.demotions then s
      else { s with pool := s.pool.demote c tx }

def run (s : System) (events : List Event) : System := events.foldl (step c) s

end System

end Nxchain.Txpool
