import Mathlib.Data.List.AList
import Nxchain.Lib.Lru
import Nxchain.Runtime

namespace Nxchain

structure Account where
  nonce : Nat
  balance : Nat
  root : Hash
  codeHash : Bytes
deriving DecidableEq

structure StateObject where
  account : Account
  code : Bytes := []
  suicide : Bool := false
  deleted : Bool := false
  dirtyCode : Bool := false
  storage : AList (fun _ : Hash => Hash) := ∅
deriving DecidableEq

def StateObject.withBalance (s : StateObject) (balance : Nat) : StateObject :=
  { s with account := { s.account with balance := balance } }

def emptyStateHash : Hash :=
  FixedBytes.ofBytes 32
    [0x56, 0xe8, 0x1f, 0x17, 0x1b, 0xcc, 0x55, 0xa6, 0xff, 0x83, 0x45, 0xe6, 0x92, 0xc0, 0xf8, 0x6e,
      0x5b, 0x48, 0xe0, 0x1b, 0x99, 0x6c, 0xad, 0xc0, 0x01, 0x62, 0x2f, 0xb5, 0xe3, 0x63, 0xb4, 0x21]

structure ReadSnapshot where
  getStorage : Address → Hash → Hash → Hash
  getAccount : Address → Option Account
  getCode : Hash → Option Bytes
  getStorage_empty : ∀ addr key, getStorage addr emptyStateHash key = zeroHash

structure Overlay where
  objects : AList (fun _ : Address => StateObject)
  logs : List Log
  refund : Nat
deriving DecidableEq

structure Txn where
  snapshot : ReadSnapshot
  snapshots : List Overlay
  overlay : Overlay
  codeCache : Lru Address Bytes

section Defaults

variable [Keccak]

def emptyCodeHash : Bytes := (keccak256 []).toBytes

def StateObject.empty (s : StateObject) : Bool :=
  s.account.nonce = 0 && s.account.balance = 0 && s.account.codeHash = emptyCodeHash

def newStateObject : StateObject where
  account := { nonce := 0, balance := 0, root := emptyStateHash, codeHash := emptyCodeHash }

end Defaults

namespace Txn

def newTxn (snapshot : ReadSnapshot) : Txn where
  snapshot := snapshot
  snapshots := []
  overlay := { objects := ∅, logs := [], refund := 0 }
  codeCache := Lru.empty 20

def takeSnapshot (txn : Txn) : Nat × Txn :=
  (txn.snapshots.length, { txn with snapshots := txn.snapshots ++ [txn.overlay] })

def revertToSnapshot (txn : Txn) (id : Nat) : Except Panic Txn :=
  match txn.snapshots[id]? with
  | none => .error (if txn.snapshots.length < id then .explicit "" else .indexOutOfRange)
  | some tree => .ok { txn with overlay := tree }

def getStateObject (txn : Txn) (addr : Address) : Option StateObject :=
  match txn.overlay.objects.lookup addr with
  | some obj => if obj.deleted then none else some obj
  | none => (txn.snapshot.getAccount addr).map fun account => { account := account }

def insertObject (txn : Txn) (addr : Address) (object : StateObject) : Txn :=
  { txn with overlay := { txn.overlay with objects := txn.overlay.objects.insert addr object } }

variable [Keccak]

def upsertAccount (txn : Txn) (addr : Address) (create : Bool) (f : StateObject → StateObject) :
    Txn :=
  match txn.getStateObject addr with
  | some object => txn.insertObject addr (f object)
  | none => if create then txn.insertObject addr (f newStateObject) else txn

def addBalance (txn : Txn) (addr : Address) (balance : Int) : Txn :=
  txn.upsertAccount addr true fun object =>
    object.withBalance (object.account.balance + balance).natAbs

def getBalance (txn : Txn) (addr : Address) : Nat :=
  ((txn.getStateObject addr).map (·.account.balance)).getD 0

def subBalance (txn : Txn) (addr : Address) (amount : Int) : Option Txn :=
  if amount = 0 then some txn
  else if (txn.getBalance addr : Int) < amount then none
  else some (txn.upsertAccount addr true fun object =>
    object.withBalance (object.account.balance - amount).natAbs)

def setBalance (txn : Txn) (addr : Address) (balance : Int) : Txn :=
  txn.upsertAccount addr true fun object => object.withBalance balance.natAbs

def incrNonce (txn : Txn) (addr : Address) : Txn :=
  txn.upsertAccount addr true fun object =>
    { object with account := { object.account with nonce := (object.account.nonce + 1) % 2 ^ 64 } }

def setNonce (txn : Txn) (addr : Address) (nonce : Nat) : Txn :=
  txn.upsertAccount addr true fun object =>
    { object with account := { object.account with nonce := nonce } }

def getNonce (txn : Txn) (addr : Address) : Nat :=
  ((txn.getStateObject addr).map (·.account.nonce)).getD 0

def touchAccount (txn : Txn) (addr : Address) : Txn := txn.upsertAccount addr true id

def exist (txn : Txn) (addr : Address) : Bool := (txn.getStateObject addr).isSome

def empty (txn : Txn) (addr : Address) : Bool :=
  match txn.getStateObject addr with
  | none => true
  | some obj => obj.empty

def createAccount (txn : Txn) (addr : Address) : Txn :=
  match txn.getStateObject addr with
  | some prev => txn.insertObject addr (newStateObject.withBalance prev.account.balance)
  | none => txn.insertObject addr newStateObject

def setCode (txn : Txn) (addr : Address) (code : Bytes) : Txn :=
  txn.upsertAccount addr true fun object =>
    { object with
      account := { object.account with codeHash := (keccak256 code).toBytes }
      dirtyCode := true
      code := code }

def getCode (txn : Txn) (addr : Address) : Bytes × Txn :=
  match txn.getStateObject addr with
  | none => ([], txn)
  | some object =>
    if object.dirtyCode then (object.code, txn)
    else
      match txn.codeCache.get addr with
      | some (code, cache) => (code, { txn with codeCache := cache })
      | none =>
        let code := (txn.snapshot.getCode (FixedBytes.ofBytes 32 object.account.codeHash)).getD []
        (code, { txn with codeCache := txn.codeCache.add addr code })

def code (txn : Txn) (addr : Address) : Bytes :=
  match txn.getStateObject addr with
  | none => []
  | some object =>
    if object.dirtyCode then object.code
    else (txn.snapshot.getCode (FixedBytes.ofBytes 32 object.account.codeHash)).getD []

def getCodeSize (txn : Txn) (addr : Address) : Nat × Txn :=
  let (code, txn) := txn.getCode addr
  (code.length, txn)

def getCodeHash (txn : Txn) (addr : Address) : Hash :=
  match txn.getStateObject addr with
  | none => zeroHash
  | some object => FixedBytes.ofBytes 32 object.account.codeHash

def suicide (txn : Txn) (addr : Address) : Txn :=
  txn.upsertAccount addr false fun object => { object.withBalance 0 with suicide := true }

def hasSuicided (txn : Txn) (addr : Address) : Bool :=
  match txn.getStateObject addr with
  | none => false
  | some object => object.suicide

def emitLog (txn : Txn) (addr : Address) (topics : List Hash) (data : Bytes) : Txn :=
  { txn with overlay := { txn.overlay with logs := txn.overlay.logs ++ [⟨addr, topics, data⟩] } }

def logs (txn : Txn) : List Log × Txn :=
  (txn.overlay.logs, { txn with overlay := { txn.overlay with logs := [] } })

def getRefund (txn : Txn) : Nat := txn.overlay.refund

def addRefund (txn : Txn) (gas : Nat) : Txn :=
  { txn with overlay := { txn.overlay with refund := (txn.overlay.refund + gas) % 2 ^ 64 } }

def subRefund (txn : Txn) (gas : Nat) : Txn :=
  { txn with overlay := { txn.overlay with refund := sub64 txn.overlay.refund gas } }

def getState (txn : Txn) (addr : Address) (key : Hash) : Hash :=
  match txn.getStateObject addr with
  | none => zeroHash
  | some object =>
    (object.storage.lookup key).getD (txn.snapshot.getStorage addr object.account.root key)

def setState (txn : Txn) (addr : Address) (key value : Hash) : Txn :=
  txn.upsertAccount addr true fun object =>
    { object with storage := object.storage.insert key value }

def getCommittedState (txn : Txn) (addr : Address) (key : Hash) : Hash :=
  match txn.getStateObject addr with
  | none => zeroHash
  | some obj => txn.snapshot.getStorage addr obj.account.root key

def setStorage (txn : Txn) (addr : Address) (key value : Hash) (config : ForksInTime) :
    StorageStatus × Txn :=
  let oldValue := txn.getState addr key
  if oldValue = value then (.unchanged, txn)
  else
    let current := oldValue
    let original := txn.getCommittedState addr key
    let txn := txn.setState addr key value
    let legacyGasMetering := !config.istanbul && (config.petersburg || !config.constantinople)
    if legacyGasMetering then
      if oldValue = zeroHash then (.added, txn)
      else if value = zeroHash then (.deleted, txn.addRefund 15000)
      else (.modified, txn)
    else if original = current then
      if original = zeroHash then (.added, txn)
      else if value = zeroHash then (.deleted, txn.addRefund 15000)
      else (.modified, txn)
    else
      let txn :=
        if original ≠ zeroHash then
          if current = zeroHash then txn.subRefund 15000
          else if value = zeroHash then txn.addRefund 15000
          else txn
        else txn
      let txn :=
        if original = value then
          if original = zeroHash then txn.addRefund (if config.istanbul then 19200 else 19800)
          else txn.addRefund (if config.istanbul then 4200 else 4800)
        else txn
      (.modifiedAgain, txn)

def markDeleted (objects : AList (fun _ : Address => StateObject)) (k : Address) :
    AList (fun _ : Address => StateObject) :=
  match objects.lookup k with
  | some obj => objects.insert k { obj with deleted := true }
  | none => objects

def cleanDeleteObjects (txn : Txn) (deleteEmptyObjects : Bool) : Txn :=
  let remove := txn.overlay.objects.keys.filter fun k =>
    (txn.overlay.objects.lookup k).any fun a => a.suicide || (a.empty && deleteEmptyObjects)
  { txn with
    overlay := { txn.overlay with
      objects := remove.foldl markDeleted txn.overlay.objects
      refund := 0 } }

end Txn

end Nxchain
