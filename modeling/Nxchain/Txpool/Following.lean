import Nxchain.Txpool.Pool

namespace Nxchain.Txpool

structure Follower where
  pool : Pool
  store : Store
  enqueueRequests : List Transaction
  promoteRequests : List Address

inductive FollowerEvent where
  | addTx (tx : Transaction)
  | enqueue (pick : Nat)
  | promote (pick : Nat)
  | insertBlocks (blocks : List (List Transaction)) (store : Store)
  | pruneAccounts

namespace Follower

def new (maxSlots : Nat) (store : Store) : Follower := ⟨.new maxSlots, store, [], []⟩

def Quiet (f : Follower) : Prop := f.enqueueRequests = [] ∧ f.promoteRequests = []

instance (f : Follower) : Decidable f.Quiet :=
  inferInstanceAs (Decidable (f.enqueueRequests = [] ∧ f.promoteRequests = []))

variable [ContainerHeap] [Keccak] (c : Config)

def step (f : Follower) : FollowerEvent → Follower
  | .addTx tx =>
    match f.pool.addTx c f.store tx with
    | .error _ => f
    | .ok (tx, pool) => { f with pool := pool, enqueueRequests := f.enqueueRequests ++ [tx] }
  | .enqueue pick =>
    match f.enqueueRequests[pick]? with
    | none => f
    | some tx =>
      let (signal, pool) := f.pool.handleEnqueueRequest c tx
      { f with
        pool := pool
        enqueueRequests := f.enqueueRequests.eraseIdx pick
        promoteRequests := f.promoteRequests ++ signal.toList }
  | .promote pick =>
    match f.promoteRequests[pick]? with
    | none => f
    | some addr =>
      { f with
        pool := f.pool.handlePromoteRequest c addr
        promoteRequests := f.promoteRequests.eraseIdx pick }
  | .insertBlocks blocks store =>
    let (promotions, pool) := f.pool.processEvent c false store.nonce blocks
    { f with
      pool := pool
      store := store
      promoteRequests := f.promoteRequests ++ promotions }
  | .pruneAccounts => { f with pool := f.pool.pruneAccountsWithNonceHoles c }

def run (f : Follower) (events : List FollowerEvent) : Follower := events.foldl (step c) f

end Follower

end Nxchain.Txpool
