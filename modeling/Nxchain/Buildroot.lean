import Nxchain.BlockBuilding
import Nxchain.Itrie

namespace Nxchain

structure FastHasher where
  dst : Bytes

namespace FastHasher

def putUint64 (n : Nat) : Bytes := ((List.range 8).map fun i => UInt8.ofNat (n / 256 ^ i)).reverse

def intsize (val : Nat) : Nat :=
  if val < 2 ^ 8 then 1
  else if val < 2 ^ 16 then 2
  else if val < 2 ^ 24 then 3
  else if val < 2 ^ 32 then 4
  else if val < 2 ^ 40 then 5
  else if val < 2 ^ 48 then 6
  else if val < 2 ^ 56 then 7
  else 8

def getRlpSize (size : Nat) : Nat := if size < 56 then 1 else intsize size + 1

def marshalRlpSize (dst : Bytes) (size : Nat) (short long : UInt8) : Bytes :=
  if size < 56 then dst ++ [short + UInt8.ofNat size]
  else
    let intSize := intsize size
    dst ++ [long + UInt8.ofNat intSize] ++ (putUint64 size).drop (8 - intSize)

-- a sum of lengths may leave the range of `int`, but not that of `uint64`
def marshalItemRlpSize (dst : Bytes) (size : Nat) : Bytes := marshalRlpSize dst (size % 2 ^ 64) 0x80 0xB7

def marshalListRlpSize (dst : Bytes) (size : Nat) : Bytes := marshalRlpSize dst (size % 2 ^ 64) 0xC0 0xF7

def leafVal : Bytes := [0x20]

def rlpEmptyValue : Bytes := [0x80]

def rlpHashPrefix : Bytes := [0xa0]

def zeroKey : Bytes := [0x30]

def oneKey : Bytes := [0x31]

def singleKey : Bytes := [0x82, 0x20, 0x80]

variable [Keccak]

def appendHash (dst b : Bytes) : Bytes := dst ++ (keccak256 b).toBytes

def encodeSingle (dst v : Bytes) (b : Bool) : Bytes :=
  let num := v.length
  let n := getRlpSize num
  let buf2 := marshalListRlpSize [] (n + num + 1)
  let buf2 := buf2 ++ if b then oneKey else zeroKey
  let buf2 := marshalItemRlpSize buf2 num
  let buf2 := buf2 ++ v
  appendHash dst buf2

variable (num : Nat) (cb : Nat → Bytes)

def getCb (i : Nat) : Option Bytes :=
  if i > num then none
  else
    let val := cb i
    if val.length < 32 then none else some val

def encodeOneItem (f : FastHasher) : Option Bytes × FastHasher :=
  match getCb num cb 0 with
  | none => (none, f)
  | some val =>
    let n := getRlpSize val.length
    let buf2 := marshalListRlpSize [] (n + val.length + singleKey.length)
    let buf2 := buf2 ++ singleKey
    let buf2 := marshalItemRlpSize buf2 val.length
    let buf2 := buf2 ++ val
    let dst := appendHash f.dst buf2
    (some dst, ⟨dst⟩)

def appendLeaf (buf : Bytes) (i : Nat) : Option Bytes := do
  let val ← getCb num cb i
  let buf := buf ++ rlpHashPrefix
  let n := getRlpSize val.length
  let buf2 := marshalListRlpSize [] (n + 1 + val.length)
  let buf2 := buf2 ++ leafVal
  let buf2 := marshalItemRlpSize buf2 val.length
  let buf2 := buf2 ++ val
  return appendHash buf buf2

def deriveGroup (dst : Bytes) (first last : Nat) : Option Bytes :=
  let count := last - first
  if count = 1 then
    (getCb num cb first).map fun val => encodeSingle dst val (first = 1)
  else do
    -- the first group has no value at its first edge
    let buf := if first = 1 then rlpEmptyValue else []
    let buf ← (List.range' first count).foldlM (appendLeaf num cb) buf
    let edges := if first = 1 then 15 else 16
    let buf := if count < 16 then buf ++ (List.replicate (edges - count) rlpEmptyValue).flatten else buf
    let buf := buf ++ rlpEmptyValue
    let buf2 := marshalListRlpSize [] buf.length
    let buf2 := buf2 ++ buf
    return appendHash dst buf2

def appendGroup (step1 : Nat) (dst : Bytes) (i : Nat) : Option Bytes :=
  let ini := if i = 0 then 1 else i
  deriveGroup num cb (dst ++ rlpHashPrefix) ini (min step1 (i + 16))

def hash (f : FastHasher) : Option Bytes × FastHasher :=
  if num = 1 then encodeOneItem num cb f
  else
    let step1 := min num 128
    match (List.range' 0 ((step1 + 15) / 16) 16).foldlM (appendGroup num cb step1) f.dst with
    | none => (none, ⟨[]⟩)
    | some dst =>
      let dst := dst ++ (List.replicate ((128 - step1) / 16) rlpEmptyValue).flatten
      let dst := dst ++ rlpHashPrefix
      match getCb num cb 0 with
      | none => (none, ⟨dst⟩)
      | some val =>
        let dst := encodeSingle dst val false
        let dst := dst ++ (List.replicate 8 rlpEmptyValue).flatten
        let buf2 := marshalListRlpSize [] dst.length
        let buf2 := buf2 ++ dst
        let dst := appendHash [] buf2
        (some dst, ⟨dst⟩)

def reset (_ : FastHasher) : FastHasher := ⟨[]⟩

abbrev Idle := { f : FastHasher // f.dst = [] }

def acquireFastHasher : Option Idle → FastHasher
  | none => ⟨[]⟩
  | some f => f.val

def releaseFastHasher (f : FastHasher) : Idle := ⟨f.reset, rfl⟩

end FastHasher

open FastHasher Itrie

def indexFuel : Nat := 4 * 19 + 3

variable [Keccak] (rlp : Fastrlp)

def indexKey (i : Nat) : Bytes := rlp.marshal (.bytes (Rlp.bigEndian i))

def deriveSlow (num : Nat) (h : Nat → Bytes) : Except (Fault String) Bytes := do
  let txn ← (List.range num).foldlM (fun (txn : Itrie.Txn) i => txn.insert rlp indexFuel (indexKey rlp i) (h i))
    (newTrie fun _ => none).txn
  let (x, _) ← txn.hash rlp
  return x

def calculateRoot (pooled : Option Idle) (num : Nat) (h : Nat → Bytes) :
    Except (Fault String) (Hash × Option Idle) := do
  if num = 0 then
    return (emptyRootHash, pooled)
  else if num ≤ 128 then
    let (dst, fastH) := (acquireFastHasher pooled).hash num h
    let res := FixedBytes.ofBytes 32 (dst.getD [])
    let pooled := some (releaseFastHasher fastH)
    if dst.isSome then
      return (res, pooled)
    else
      return (FixedBytes.ofBytes 32 (← deriveSlow rlp num h), pooled)
  else
    return (FixedBytes.ofBytes 32 (← deriveSlow rlp num h), pooled)

def calculateRootWithRlp (pooled : Option Idle) (num : Nat) (h : Nat → Rlp.Value) :
    Except (Fault String) (Hash × Option Idle) :=
  calculateRoot rlp pooled num fun i => rlp.marshal (h i)

end Nxchain
