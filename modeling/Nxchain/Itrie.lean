import Nxchain.Txn
import Nxchain.Lib.ContentStore

namespace Nxchain

namespace Itrie

abbrev Nibble := Fin 17

def terminator : Nibble := 16

def hasTerminator (hex : List Nibble) : Bool := hex.getLast? = some terminator

def nibblesOf (b : UInt8) : List Nibble := [Fin.ofNat 17 (b.toNat / 16), Fin.ofNat 17 (b.toNat % 16)]

def bytesToHexNibbles (b : Bytes) : List Nibble := b.flatMap nibblesOf ++ [terminator]

def packNibbles : List Nibble → Bytes
  | high :: low :: rest =>
    (UInt8.ofNat high.val <<< 4 ||| UInt8.ofNat low.val) :: packNibbles rest
  | _ => []

def encodeCompact (hex : List Nibble) : Bytes :=
  let flag := if hasTerminator hex then 2 else 0
  let hex := if hasTerminator hex then hex.dropLast else hex
  if hex.length % 2 = 1 then packNibbles (Fin.ofNat 17 (flag + 1) :: hex)
  else packNibbles (Fin.ofNat 17 flag :: 0 :: hex)

def dropFirst : List Nibble → Except (Fault String) (List Nibble)
  | _ :: base => .ok base
  | [] => .error (.panic .indexOutOfRange)

def decodeCompact (compact : Bytes) : Except (Fault String) (List Nibble) :=
  match bytesToHexNibbles compact with
  | [] => .error (.panic .indexOutOfRange)
  | flag :: base =>
    let base := if flag.val < 2 then base.dropLast else base
    if flag.val % 2 = 1 then .ok base else dropFirst base

def prefixLen : List Nibble → List Nibble → Nat
  | a :: k₁, b :: k₂ => if a = b then prefixLen k₁ k₂ + 1 else 0
  | _, _ => 0

inductive Node where
  | nil
  | value (hash : Bool) (buf : Bytes)
  | short (hash : Bytes) (key : List Nibble) (child : Node)
  | full (hash : Bytes) (epoch : Nat) (edges : Nibble → Node)

namespace Node

def isNil : Node → Bool
  | nil => true
  | _ => false

def isReference : Node → Bool
  | value true _ => true
  | _ => false

end Node

abbrev Storage := Bytes → Option Bytes

structure Fastrlp extends Rlp.Codec where
  len : Rlp.Value → Nat
  len_bytes : ∀ b, len (.bytes b) = b.length

def decodeFull (vs : List Rlp.Value) (nodes : List (Except (Fault String) Node)) :
    Except (Fault String) Node := do
  let children ← ((vs.zip nodes).take 16).mapM fun (v, node) =>
    match v with
    | .bytes [] => .ok .nil
    | _ => node
  match vs[16]? with
  | some (Rlp.Value.bytes b) =>
    let value := if b = [] then .nil else .value false b
    return .full [] 0 fun i => if i = terminator then value else children.getD i .nil
  | _ => throw (.error "full node value expected to be bytes")

def decodeShort (key value : Rlp.Value) (child : Except (Fault String) Node) :
    Except (Fault String) Node := do
  match key with
  | .list _ => throw (.error "short key expected to be bytes")
  | .bytes compact =>
    let key ← decodeCompact compact
    if hasTerminator key then
      match value with
      | .list _ => throw (.error "short leaf value expected to be bytes")
      | .bytes b => return .short [] key (.value false b)
    else
      return .short [] key (← child)

mutual

def decodeNode : Rlp.Value → Except (Fault String) Node
  | .bytes b => .ok (.value true b)
  | .list vs =>
    match vs, decodeAll vs with
    | [key, value], [_, child] => decodeShort key value child
    | vs, nodes =>
      if vs.length = 17 then decodeFull vs nodes
      else .error (.error "node has incorrect number of leafs")

def decodeAll : List Rlp.Value → List (Except (Fault String) Node)
  | [] => []
  | v :: vs => decodeNode v :: decodeAll vs

end

def getNode (rlp : Fastrlp) (storage : Storage) (root : Bytes) :
    Except (Fault String) (Option Node) :=
  match storage root with
  | none => .ok none
  | some data =>
    match rlp.parse data with
    | none => .error (.error "malformed")
    | some (.bytes _) => .error (.error "storage item should be an array")
    | some (.list vs) => (decodeNode (.list vs)).map some

def panicOnError {α : Type} : Except (Fault String) α → Except (Fault String) α
  | .error (.error message) => .error (.panic (.explicit message))
  | r => r

structure Txn where
  root : Node
  epoch : Nat
  storage : Storage
  batch : Option (List (Bytes × Bytes))

structure LookupResult where
  node : Node
  loaded : Option Node
  value : Option Bytes

structure DeleteResult where
  node : Node
  result : Option Node

section Recursion

variable (rlp : Fastrlp) (storage : Storage)

def lookup : Nat → Node → List Nibble → Except (Fault String) LookupResult
  | 0, _, _ => .error .outOfFuel
  | _ + 1, .nil, _ => .ok ⟨.nil, none, none⟩
  | fuel + 1, .value true buf, key => do
    match ← panicOnError (getNode rlp storage buf) with
    | none => return ⟨.value true buf, none, none⟩
    | some nc =>
      let r ← lookup fuel nc key
      return ⟨.value true buf, some r.node, r.value⟩
  | _ + 1, .value false buf, key =>
    .ok ⟨.value false buf, none, if key = [] then some buf else none⟩
  | fuel + 1, .short hash nkey child, key =>
    if nkey <+: key then do
      let r ← lookup fuel child (key.drop nkey.length)
      return ⟨.short hash nkey (r.loaded.getD r.node), none, r.value⟩
    else .ok ⟨.short hash nkey child, none, none⟩
  | fuel + 1, .full hash epoch edges, [] => do
    let r ← lookup fuel (edges terminator) []
    return ⟨.full hash epoch (Function.update edges terminator r.node), r.loaded, r.value⟩
  | fuel + 1, .full hash epoch edges, k :: key => do
    let r ← lookup fuel (edges k) key
    -- a loaded node is written to the children, which have no edge for the terminator
    if r.loaded.isSome ∧ k = terminator then throw (.panic .indexOutOfRange)
    return ⟨.full hash epoch (Function.update edges k (r.loaded.getD r.node)), none, r.value⟩

def writtenHash (epoch : Nat) (hash : Bytes) (nodeEpoch : Nat) : Bytes :=
  if epoch = nodeEpoch then hash else []

def splitShort (epoch : Nat) (key : List Nibble) (child : Node) (plen : Nat) : Node :=
  match key.drop plen with
  | [] => .full [] epoch fun _ => .nil
  | k :: rest =>
    .full [] epoch
      (Function.update (fun _ => .nil) k (if rest = [] then child else .short [] rest child))

def insert (epoch : Nat) : Nat → Node → List Nibble → Bytes → Except (Fault String) Node
  | 0, _, _, _ => .error .outOfFuel
  | _ + 1, .nil, [], value => .ok (.value false value)
  | fuel + 1, .nil, search, value => do
    return .short [] search (← insert epoch fuel .nil [] value)
  | fuel + 1, .value true buf, search, value => do
    match ← panicOnError (getNode rlp storage buf) with
    | none => return .nil
    | some nc => insert epoch fuel nc search value
  | _ + 1, .value false _, [], value => .ok (.value false value)
  | fuel + 1, .value false buf, search, value =>
    insert epoch fuel (.full [] epoch (Function.update (fun _ => .nil) terminator (.value false buf)))
      search value
  | fuel + 1, .short _ key child, search, value => do
    let plen := prefixLen search key
    if plen = key.length then
      return .short [] key (← insert epoch fuel child (search.drop plen) value)
    else
      let child ← insert epoch fuel (splitShort epoch key child plen) (search.drop plen) value
      return if plen = 0 then child else .short [] (search.take plen) child
  | fuel + 1, .full hash nodeEpoch edges, [], value => do
    let newValue ← insert epoch fuel (edges terminator) [] value
    return .full (writtenHash epoch hash nodeEpoch) epoch (Function.update edges terminator newValue)
  | fuel + 1, .full hash nodeEpoch edges, k :: search, value => do
    let newChild ← insert epoch fuel (edges k) search value
    return .full (writtenHash epoch hash nodeEpoch) epoch (Function.update edges k newChild)

def remaining (edges : Nibble → Node) : List (Fin 16) :=
  (List.finRange 16).filter fun i => !(edges i.castSucc).isNil

def lastChild (indx : Fin 16) (child : Node) : Except (Fault String) (Option Node) := do
  let nc ←
    match child with
    | .value true buf => panicOnError (getNode rlp storage buf)
    | child => .ok (some child)
  return nc.map fun nc =>
    match nc with
    | .short _ key child => .short [] (indx.castSucc :: key) child
    | nc => .short [] [indx.castSucc] nc

def collapseFull (edges : Nibble → Node) : Except (Fault String) (Option Node) :=
  match remaining edges with
  | [] =>
    if (edges terminator).isNil then .ok (some .nil)
    else .ok (some (.short [] [terminator] (edges terminator)))
  | [indx] =>
    if (edges terminator).isNil then lastChild rlp storage indx (edges indx.castSucc)
    else .ok (some (.full [] 0 edges))
  | _ => .ok (some (.full [] 0 edges))

def mergeShort (key : List Nibble) : Node → Node
  | .nil => .nil
  | .short _ key' child => .short [] (key ++ key') child
  | child => .short [] key child

def delete : Nat → Node → List Nibble → Except (Fault String) DeleteResult
  | 0, _, _ => .error .outOfFuel
  | _ + 1, .nil, _ => .ok ⟨.nil, none⟩
  | fuel + 1, .short _ key child, search => do
    let plen := prefixLen search key
    if plen = search.length then
      return ⟨.short [] key child, some .nil⟩
    else if plen = 0 then
      return ⟨.short [] key child, none⟩
    else
      -- the rest of the key is not compared
      let r ← delete fuel child (search.drop plen)
      return ⟨.short [] key r.node, r.result.map (mergeShort key)⟩
  | fuel + 1, .value true buf, search => do
    match ← panicOnError (getNode rlp storage buf) with
    | none => return ⟨.value true buf, none⟩
    | some nc => return ⟨.value true buf, (← delete fuel nc search).result⟩
  | _ + 1, .value false buf, search =>
    .ok ⟨.value false buf, if search = [] then some .nil else none⟩
  | _ + 1, .full .., [] => .error (.panic .indexOutOfRange)
  | fuel + 1, .full hash epoch edges, k :: search => do
    let r ← delete fuel (edges k) search
    let node := .full hash epoch (Function.update edges k r.node)
    match r.result with
    | none => return ⟨node, none⟩
    | some newChild =>
      return ⟨node, ← collapseFull rlp storage (Function.update edges k newChild)⟩

end Recursion

def emptyRoot : Bytes := emptyStateHash.toBytes

structure HashResult where
  value : Rlp.Value
  node : Node
  written : List (Bytes × Bytes)

section Hash

variable [Keccak] (rlp : Fastrlp)

def hashNode (value : Rlp.Value) (node : Bytes → Node) (written : List (Bytes × Bytes)) :
    HashResult :=
  if rlp.len value < 32 then ⟨value, node [], written⟩
  else
    let tmp := (keccak256 (rlp.marshal value)).toBytes
    ⟨.bytes tmp, node tmp, written ++ [(tmp, rlp.marshal value)]⟩

def hashEdge (node : Node) (hash : Except (Fault String) HashResult) :
    Except (Fault String) HashResult :=
  if node.isNil then .ok ⟨.bytes [], .nil, []⟩ else hash

def hash : Node → Except (Fault String) HashResult
  | .nil => .error (.panic .nilDereference)
  | .value isHash buf => .ok ⟨.bytes buf, .value isHash buf, []⟩
  | .short memo key child =>
    if memo ≠ [] then .ok ⟨.bytes memo, .short memo key child, []⟩
    else do
      let r ← hash child
      return hashNode rlp (.list [.bytes (encodeCompact key), r.value])
        (fun memo => .short memo key r.node) r.written
  | .full memo epoch edges =>
    if memo ≠ [] then .ok ⟨.bytes memo, .full memo epoch edges, []⟩
    else do
      let hashes := fun k => hashEdge (edges k) (hash (edges k))
      let rs ← (List.finRange 17).mapM hashes
      return hashNode rlp (.list (rs.map HashResult.value))
        (fun memo => .full memo epoch fun k => (rs.map HashResult.node).getD k .nil)
        (rs.flatMap HashResult.written)

end Hash

namespace Txn

section Storage

variable (rlp : Fastrlp) (fuel : Nat) (t : Txn)

def lookup (key : Bytes) : Except (Fault String) (Option Bytes × Txn) := do
  let r ← Itrie.lookup rlp t.storage fuel t.root (bytesToHexNibbles key)
  return (r.value, { t with root := r.node })

def insert (key value : Bytes) : Except (Fault String) Txn := do
  let root ← Itrie.insert rlp t.storage t.epoch fuel t.root (bytesToHexNibbles key) value
  return if root.isNil then t else { t with root := root }

def delete (key : Bytes) : Except (Fault String) Txn := do
  let r ← Itrie.delete rlp t.storage fuel t.root (bytesToHexNibbles key)
  return { t with root := r.result.getD r.node }

end Storage

def put (t : Txn) (written : List (Bytes × Bytes)) : Txn :=
  { t with batch := t.batch.map (· ++ written) }

def hash [Keccak] (rlp : Fastrlp) (t : Txn) : Except (Fault String) (Bytes × Txn) :=
  if t.root.isNil then .ok (emptyRoot, t)
  else do
    let r ← Itrie.hash rlp t.root
    let t := { t with root := r.node }.put r.written
    match r.value with
    | .bytes b =>
      if rlp.len r.value ≠ 32 then
        let root := (keccak256 b).toBytes
        return (root, t.put [(root, b)])
      else return (b, t)
    | .list vs =>
      let tmp := rlp.marshal (.list vs)
      let root := (keccak256 tmp).toBytes
      return (root, t.put [(root, tmp)])

end Txn

structure Trie where
  root : Node
  epoch : Nat
  storage : Storage

def newTrie (storage : Storage) : Trie where
  root := .nil
  epoch := 0
  storage := storage

def Trie.txn (t : Trie) : Txn where
  root := t.root
  epoch := (t.epoch + 1) % 2 ^ 32
  storage := t.storage
  batch := none

def Txn.commit (t : Txn) : Trie where
  root := t.root
  epoch := t.epoch
  storage := t.storage

def Txn.written (t : Txn) : Storage := ContentStore.write t.storage (t.batch.getD [])

inductive StateError where
  | storageRoot (root : Hash) (cause : String)
  | notFound (root : Hash)
deriving DecidableEq

def newTrieAt (rlp : Fastrlp) (storage : Storage) (root : Hash) : Except (Fault StateError) Trie :=
  if root = emptyStateHash then .ok (newTrie storage)
  else do
    match ← (getNode rlp storage root.toBytes).mapError (Fault.map (StateError.storageRoot root)) with
    | none => throw (.error (.notFound root))
    | some n => return { root := n, epoch := 0, storage := storage }

end Itrie

end Nxchain
