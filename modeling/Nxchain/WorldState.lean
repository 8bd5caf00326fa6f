import Nxchain.Itrie

namespace Nxchain

inductive AccountError where
  | rlp (e : Rlp.Error)
  | elements (found : Nat)
deriving DecidableEq

namespace Account

def marshalWith (a : Account) : Rlp.Value :=
  .list [.bytes (Rlp.bigEndian a.nonce), .bytes (Rlp.bigEndian a.balance), .bytes a.root.toBytes,
    .bytes a.codeHash]

def ofElems : List Rlp.Value → Except AccountError Account
  | nonce :: balance :: root :: codeHash :: _ => do
    let nonce ← nonce.getUint64.mapError .rlp
    let balance ← balance.getBigInt.mapError .rlp
    let root ← (root.getFixed 32).mapError .rlp
    let codeHash ← codeHash.getBytes.mapError .rlp
    return { nonce := nonce, balance := balance, root := ⟨root.1, root.2⟩, codeHash := codeHash }
  | elems => throw (.elements elems.length)

def unmarshalRlp (rlp : Rlp.Codec) (b : Bytes) : Except AccountError Account :=
  match rlp.parse b with
  | none => throw (.rlp .malformed)
  | some v => do ofElems (← v.getElems.mapError .rlp)

end Account

structure StorageObject where
  deleted : Bool
  key : Bytes
  val : Bytes

structure Object where
  address : Address
  codeHash : Hash
  balance : Nat
  root : Hash
  nonce : Nat
  deleted : Bool
  dirtyCode : Bool
  code : Bytes
  storage : List StorageObject

def storageObject (key value : Hash) : StorageObject :=
  if value = zeroHash then { deleted := true, key := key.toBytes, val := [] }
  else { deleted := false, key := key.toBytes, val := value.toBytes }

namespace StateObject

def toObject (a : StateObject) (address : Address) : Object where
  address := address
  codeHash := FixedBytes.ofBytes 32 a.account.codeHash
  balance := a.account.balance
  root := a.account.root
  nonce := a.account.nonce
  deleted := a.deleted
  dirtyCode := a.dirtyCode
  code := a.code
  storage :=
    if a.deleted then [] else a.storage.entries.map fun entry => storageObject entry.1 entry.2

end StateObject

def Txn.commit [Keccak] (txn : Txn) (deleteEmptyObjects : Bool) : List Object :=
  (txn.cleanDeleteObjects deleteEmptyObjects).overlay.objects.entries.map fun entry =>
    entry.2.toObject entry.1

namespace Itrie

def Trie.get (rlp : Fastrlp) (fuel : Nat) (t : Trie) (k : Bytes) :
    Except (Fault String) (Option Bytes) :=
  (t.txn.lookup rlp fuel k).map Prod.fst

structure Snapshot where
  trie : Trie
  code : Hash → Option Bytes

namespace Snapshot

variable [Keccak] (rlp : Fastrlp) (fuel : Nat) (s : Snapshot)

def getStorage (root rawkey : Hash) : Except (Fault String) Hash :=
  let trie :=
    if root = emptyStateHash then .ok (newTrie s.trie.storage)
    else newTrieAt rlp s.trie.storage root
  match trie with
  | .error (.error _) => .ok zeroHash
  | .error (.panic p) => .error (.panic p)
  | .error .outOfFuel => .error .outOfFuel
  | .ok trie => do
    match ← trie.get rlp fuel (keccak256 rawkey.toBytes).toBytes with
    | none => return zeroHash
    | some val =>
      match rlp.parse val with
      | some (.bytes res) => return FixedBytes.ofBytes 32 res
      | _ => return zeroHash

def getAccount (addr : Address) : Except (Fault String) (Except AccountError (Option Account)) := do
  match ← s.trie.get rlp fuel (keccak256 addr.toBytes).toBytes with
  | none => return .ok none
  | some data => return (Account.unmarshalRlp rlp.toCodec data).map some

theorem getStorage_emptyStateHash (rawkey : Hash) :
    (s.getStorage rlp fuel emptyStateHash rawkey).toOption.getD zeroHash = zeroHash := by
  cases fuel <;> simp [getStorage, Trie.get, Txn.lookup, newTrie, Trie.txn, lookup, Except.toOption,
    bind, Except.bind, Except.map, pure, Except.pure]

def reader : ReadSnapshot where
  getStorage _ root key := (s.getStorage rlp fuel root key).toOption.getD zeroHash
  getAccount addr := (s.getAccount rlp fuel addr).toOption.bind fun r => r.toOption.join
  getCode := s.code
  getStorage_empty _ key := s.getStorage_emptyStateHash rlp fuel key

end Snapshot

def newSnapshotAt (rlp : Fastrlp) (storage : Storage) (code : Hash → Option Bytes) (root : Hash) :
    Except (Fault StateError) Snapshot :=
  (newTrieAt rlp storage root).map fun trie => { trie := trie, code := code }

section Commit

variable [Keccak] (rlp : Fastrlp) (fuel : Nat)

def hashit (k : Bytes) : Bytes := (keccak256 k).toBytes

def trimLeft (b : Bytes) : Bytes := b.dropWhile (· = 0)

def commitEntry (localTxn : Txn) (entry : StorageObject) : Except (Fault String) Txn :=
  if entry.deleted then localTxn.delete rlp fuel (hashit entry.key)
  else localTxn.insert rlp fuel (hashit entry.key) (rlp.marshal (.bytes (trimLeft entry.val)))

def hashString (h : Hash) : String :=
  h.toBytes.foldl (fun s b => (s.push (Nat.digitChar (b.toNat / 16))).push (Nat.digitChar (b.toNat % 16)))
    "0x"

def StateError.message : StateError → String
  | storageRoot root cause => "failed to get storage root " ++ hashString root ++ ": " ++ cause
  | notFound root => "state not found at hash " ++ hashString root

def panicOnStateError {α : Type} : Except (Fault StateError) α → Except (Fault String) α
  | .ok a => .ok a
  | .error (.error e) => .error (.panic (.explicit e.message))
  | .error (.panic p) => .error (.panic p)
  | .error .outOfFuel => .error .outOfFuel

def commitStorage (storage : Storage) (obj : Object) :
    Except (Fault String) (Hash × List (Bytes × Bytes)) :=
  if obj.storage.length = 0 then .ok (obj.root, [])
  else do
    let trie ← panicOnStateError (newTrieAt rlp storage obj.root)
    let localTxn ← obj.storage.foldlM (commitEntry rlp fuel) { trie.txn with batch := some [] }
    let (accountStateRoot, localTxn) ← localTxn.hash rlp
    return (FixedBytes.ofBytes 32 accountStateRoot, localTxn.batch.getD [])

def Object.account (obj : Object) (root : Hash) : Account where
  nonce := obj.nonce
  balance := obj.balance
  root := root
  codeHash := obj.codeHash.toBytes

def commitObject (tt : Txn) (obj : Object) : Except (Fault String) Txn :=
  if obj.deleted then tt.delete rlp fuel (hashit obj.address.toBytes)
  else do
    let (root, written) ← commitStorage rlp fuel tt.storage obj
    (tt.put written).insert rlp fuel (hashit obj.address.toBytes)
      (rlp.marshal (Object.account obj root).marshalWith)

def Trie.commit (t : Trie) (objs : List Object) : Except (Fault String) (Bytes × Txn) := do
  let tt ← objs.foldlM (commitObject rlp fuel) { t.txn with batch := some [] }
  tt.hash rlp

def commitCode (code : Hash → Option Bytes) (obj : Object) : Hash → Option Bytes :=
  if obj.deleted = false ∧ obj.dirtyCode then Function.update code obj.codeHash (some obj.code)
  else code

end Commit

end Itrie

end Nxchain
