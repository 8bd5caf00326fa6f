import Mathlib.Data.List.AList
import Nxchain.BlockBuilding
import Nxchain.Txpool.Account

namespace Nxchain.Txpool

def txSlotSize : Nat := 32 * 1024

def txMaxSize : Nat := 128 * 1024

def highPressureMark : Nat := 80

def maxAccountDemotions : Nat := 10

def maxAccountSkips : Nat := 10

structure SlotGauge where
  height : Nat
  max : Nat
deriving DecidableEq

namespace SlotGauge

def increase (g : SlotGauge) (slots : Nat) : SlotGauge :=
  { g with height := (g.height + slots) % 2 ^ 64 }

def decrease (g : SlotGauge) (slots : Nat) : SlotGauge :=
  { g with height := (g.height + (2 ^ 64 - slots)) % 2 ^ 64 }

def highPressure (g : SlotGauge) : Bool := highPressureMark * g.max % 2 ^ 64 / 100 < g.height

end SlotGauge

structure Config where
  codec : Rlp.Codec
  signer : Transaction → Option Address
  deploymentWhitelist : List Address
  priceLimit : Nat
  homestead : Bool
  istanbul : Bool
  maxAccountEnqueued : Nat

structure Store where
  nonce : Address → Nat
  balance : Address → Option Nat
  gasLimit : Nat

namespace Config

variable (c : Config)

def size (tx : Transaction) : Nat := (c.codec.marshal tx.marshalRLPWith).length % 2 ^ 64

def slotsRequired (txs : List Transaction) : Nat :=
  txs.foldl
    (fun slots tx => (slots + (c.size tx + txSlotSize - 1) % 2 ^ 64 / txSlotSize) % 2 ^ 64) 0

def computeHash [Keccak] (tx : Transaction) : Transaction :=
  { tx with hash := keccak256 (c.codec.marshal tx.marshalRLPWith) }

def deploymentAllowed (addr : Address) : Bool :=
  c.deploymentWhitelist.isEmpty || addr ∈ c.deploymentWhitelist

def checkTx (store : Store) (tx : Transaction) : Except Error Unit := do
  if tx.recipient.isNone && !c.deploymentAllowed tx.sender then
    throw .smartContractRestricted
  if tx.gasPrice < c.priceLimit then
    throw .underpriced
  if tx.nonce < store.nonce tx.sender then
    throw .nonceTooLow
  let some accountBalance := store.balance tx.sender | throw .invalidAccountState
  if accountBalance < tx.gasPrice * tx.gas + tx.value then
    throw .insufficientFunds
  let some intrinsicGas := transactionGasCost tx c.homestead c.istanbul | throw .intrinsicGasOverflow
  if tx.gas < intrinsicGas then
    throw .intrinsicGas
  if store.gasLimit < tx.gas then
    throw .blockLimitExceeded

def validateTx (store : Store) (tx : Transaction) : Except Error Transaction :=
  if txMaxSize < c.size tx then .error .oversizedData
  else
    match c.signer tx with
    | none => .error .extractSignature
    | some signedBy =>
      if tx.sender ≠ zeroAddress ∧ tx.sender ≠ signedBy then .error .invalidSender
      else (c.checkTx store { tx with sender := signedBy }).map fun _ =>
        { tx with sender := signedBy }

def blockSender (tx : Transaction) : Option Address :=
  if tx.sender = zeroAddress then c.signer tx else some tx.sender

def addStateNonces (latest : Address → Nat) (stateNonces : List (Address × Nat))
    (txs : List Transaction) : List (Address × Nat) :=
  txs.foldl (fun nonces tx =>
    match c.blockSender tx with
    | none => nonces
    | some addr => if addr ∈ nonces.map Prod.fst then nonces else nonces ++ [(addr, latest addr)])
    stateNonces

end Config

structure Pool where
  accounts : AList fun _ : Address => Account
  executables : List Transaction
  index : Hash → Option Transaction
  gauge : SlotGauge

namespace Pool

def new (maxSlots : Nat) : Pool := ⟨∅, [], fun _ => none, ⟨0, maxSlots⟩⟩

variable (p : Pool)

def setAccount (addr : Address) (a : Account) : Pool :=
  { p with accounts := p.accounts.insert addr a }

def addIndex (tx : Transaction) : Pool :=
  { p with index := fun hash => if hash = tx.hash then some tx else p.index hash }

def removeIndex (txs : List Transaction) : Pool :=
  { p with index := fun hash => if hash ∈ txs.map Transaction.hash then none else p.index hash }

def initOnce (c : Config) (addr : Address) (nonce : Nat) : Pool :=
  match p.accounts.lookup addr with
  | some _ => p
  | none => p.setAccount addr (.new nonce c.maxAccountEnqueued)

def createAccountOnce (c : Config) (store : Store) (addr : Address) : Pool :=
  p.initOnce c addr (store.nonce addr)

variable (c : Config)

def increase (txs : List Transaction) : Pool :=
  { p with gauge := p.gauge.increase (c.slotsRequired txs) }

def decrease (txs : List Transaction) : Pool :=
  { p with gauge := p.gauge.decrease (c.slotsRequired txs) }

def rejectsFuture (tx : Transaction) : Bool :=
  match p.accounts.lookup tx.sender with
  | some a => a.nextNonce < tx.nonce
  | none => false

def overflows (tx : Transaction) : Bool :=
  p.gauge.max < (p.gauge.height + c.slotsRequired [tx]) % 2 ^ 64

def addTx [Keccak] (store : Store) (tx : Transaction) : Except Error (Transaction × Pool) := do
  let tx ← c.validateTx store tx
  if p.gauge.highPressure && p.rejectsFuture tx then
    throw .rejectFutureTx
  if p.overflows c tx then
    throw .txPoolOverflow
  let tx := c.computeHash tx
  if (p.index tx.hash).isSome then
    throw .alreadyKnown
  return (tx, (p.addIndex tx).createAccountOnce c store tx.sender)

variable [ContainerHeap]

def handleEnqueueRequest (tx : Transaction) : Option Address × Pool :=
  match p.accounts.lookup tx.sender with
  | none => (none, p)
  | some a =>
    match a.enqueue tx with
    | .error _ => (none, p.removeIndex [tx])
    | .ok a =>
      (if a.nextNonce < tx.nonce then none else some tx.sender,
        (p.setAccount tx.sender a).increase c [tx])

def handlePromoteRequest (addr : Address) : Pool :=
  match p.accounts.lookup addr with
  | none => p
  | some a =>
    let ((_, pruned), a) := a.promote
    ((p.setAccount addr a).removeIndex pruned).decrease c pruned

def getPrimaries : List Transaction :=
  p.accounts.entries.filterMap fun entry => Queue.peek entry.2.promoted

def prepare : Pool := { p with executables := p.getPrimaries }

def peek : Option Transaction × Pool :=
  match ContainerHeap.byPrice.first p.executables with
  | none => (none, p)
  | some tx => (some tx, { p with executables := p.executables.erase tx })

def pop (tx : Transaction) : Pool :=
  match p.accounts.lookup tx.sender with
  | none => p
  | some a =>
    let p := (p.setAccount tx.sender a.pop).decrease c [tx]
    { p with executables := p.executables ++ (Queue.peek a.pop.promoted).toList }

omit [ContainerHeap] in
def drop (tx : Transaction) : Pool :=
  match p.accounts.lookup tx.sender with
  | none => p
  | some a =>
    let p := ((p.setAccount tx.sender (a.drop tx)).removeIndex a.promoted).decrease c a.promoted
    (p.removeIndex a.enqueued).decrease c a.enqueued

def modifyAccount (addr : Address) (f : Account → Account) : Pool :=
  match p.accounts.lookup addr with
  | none => p
  | some a => p.setAccount addr (f a)

def demote (tx : Transaction) : Pool :=
  match p.accounts.lookup tx.sender with
  | none => p
  | some a =>
    if maxAccountDemotions ≤ a.demotions then
      (p.drop c tx).modifyAccount tx.sender Account.resetDemotions
    else p.setAccount tx.sender a.incrementDemotions

def pruneAccount (addr : Address) : Pool :=
  match p.accounts.lookup addr with
  | none => p
  | some a =>
    let (removed, a) := a.pruneNonceHoles
    ((p.setAccount addr a).removeIndex removed).decrease c removed

def pruneAccountsWithNonceHoles : Pool :=
  p.accounts.keys.foldl (fun p addr => p.pruneAccount c addr) p

structure Resets where
  pool : Pool
  prunedPromoted : List Transaction
  prunedEnqueued : List Transaction
  promotions : List Address

def resetAccount (r : Resets) (addr : Address) (nonce : Nat) : Resets :=
  match r.pool.accounts.lookup addr with
  | none => r
  | some a =>
    let (prunedPromoted, a) := a.resetPromoted nonce
    let (prunedEnqueued, signal, a) := a.resetEnqueued
    { pool := r.pool.setAccount addr a.resetDemotions
      prunedPromoted := r.prunedPromoted ++ prunedPromoted
      prunedEnqueued := r.prunedEnqueued ++ prunedEnqueued
      promotions := r.promotions ++ signal.toList }

def resetAccounts (stateNonces : List (Address × Nat)) : List Address × Pool :=
  let r := stateNonces.foldl (fun r (addr, nonce) => resetAccount r addr nonce) ⟨p, [], [], []⟩
  let p := (r.pool.removeIndex r.prunedPromoted).decrease c r.prunedPromoted
  (r.promotions, (p.removeIndex r.prunedEnqueued).decrease c r.prunedEnqueued)

def updateAccountSkips (latestActiveAccounts : List Address) (addr : Address) : Pool :=
  match p.accounts.lookup addr with
  | none => p
  | some a =>
    if addr ∈ latestActiveAccounts then p.setAccount addr a.resetSkips
    else
      match a.getLowestTx with
      | none => p
      | some firstTx =>
        if a.incrementSkips.skips < maxAccountSkips then p.setAccount addr a.incrementSkips
        else
          ((p.setAccount addr a.incrementSkips).drop c firstTx).modifyAccount addr
            Account.resetSkips

def updateAccountSkipsCounts (latestActiveAccounts : List Address) : Pool :=
  p.accounts.keys.foldl (fun p addr => p.updateAccountSkips c latestActiveAccounts addr) p

def processEvent (sealing : Bool) (latest : Address → Nat) (blocks : List (List Transaction)) :
    List Address × Pool :=
  let p := blocks.foldl removeIndex p
  let stateNonces := blocks.foldl (c.addStateNonces latest) []
  let (promotions, p) := p.resetAccounts c stateNonces
  (promotions, if sealing then p else p.updateAccountSkipsCounts c (stateNonces.map Prod.fst))

def txPool : TxPool Pool where
  prepare p := p.prepare
  peek p := p.peek
  pop p tx := p.pop c tx
  drop p tx := p.drop c tx
  demote p tx := p.demote c tx

end Pool

end Nxchain.Txpool
