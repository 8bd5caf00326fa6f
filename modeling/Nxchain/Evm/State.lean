import Mathlib.Data.Int.Bitwise
import Nxchain.Host
import Nxchain.Lib.Program

namespace Nxchain.Evm

namespace Word

def bitLen (x : Int) : Nat := if x = 0 then 0 else x.natAbs.log2 + 1

def bytes (x : Int) : Bytes := Rlp.bigEndian x.natAbs

def ofBytes (b : Bytes) : Int := Rlp.ofBigEndian b

def bits (x : Int) : List Nat := Nat.digits (2 ^ 64) x.natAbs

def isUint64 (x : Int) : Bool := 0 ≤ x && x < 2 ^ 64

def isInt64 (x : Int) : Bool := -2 ^ 63 ≤ x && x < 2 ^ 63

def uint64 (x : Int) : Nat := x.natAbs % 2 ^ 64

def toInt64 (n : Nat) : Int := if n % 2 ^ 64 < 2 ^ 63 then n % 2 ^ 64 else n % 2 ^ 64 - 2 ^ 64

def ofInt64 (x : Int) : Nat := (x % 2 ^ 64).toNat

def int64 (x : Int) : Int :=
  let v := toInt64 (uint64 x)
  if x < 0 then toInt64 (ofInt64 (-v)) else v

def tt256 : Int := 2 ^ 256

def tt256m1 : Int := tt256 - 1

def toU256 (x : Int) : Int := if x < 0 || 256 < bitLen x then Int.land x tt256m1 else x

def to256 (x : Int) : Int := if 255 < bitLen x then x - tt256 else x

def toHash (x : Int) : Hash := FixedBytes.ofBytes 32 (bytes x)

def toAddress (x : Int) : Address := FixedBytes.ofBytes 20 (bytes x)

end Word

class SliceGrowth where
  spare : Nat → Nat → Nat

structure Slice where
  bytes : Bytes
  rest : Bytes
deriving DecidableEq

namespace Slice

def nil : Slice := ⟨[], []⟩

def array (b : Slice) : Bytes := b.bytes ++ b.rest

def cap (b : Slice) : Nat := b.array.length

def split (array : Bytes) (len : Nat) : Slice := ⟨array.take len, array.drop len⟩

def overwrite (array : Bytes) (lo : Nat) (data : Bytes) : Bytes :=
  array.take lo ++ data ++ array.drop (lo + data.length)

def slice (b : Slice) (lo hi : Nat) : Except Panic Bytes :=
  if lo ≤ hi ∧ hi ≤ b.cap then .ok ((b.array.take hi).drop lo) else .error .indexOutOfRange

def copySlice (b : Slice) (lo hi : Nat) (data : Bytes) : Except Panic Slice :=
  if lo ≤ hi ∧ hi ≤ b.cap then
    .ok (split (overwrite b.array lo (data.take (hi - lo))) b.bytes.length)
  else .error .indexOutOfRange

def copyTail (b : Slice) (lo : Nat) (data : Bytes) : Except Panic Slice :=
  if lo ≤ b.bytes.length then
    .ok { b with bytes := overwrite b.bytes lo (data.take (b.bytes.length - lo)) }
  else .error .indexOutOfRange

def setTail (b : Slice) (lo : Nat) (data : Bytes) : Except Panic Slice :=
  if lo + data.length ≤ b.bytes.length then .ok { b with bytes := overwrite b.bytes lo data }
  else .error .indexOutOfRange

def setIndex (b : Slice) (i : Nat) (v : UInt8) : Except Panic Slice :=
  if i < b.bytes.length then .ok { b with bytes := b.bytes.set i v } else .error .indexOutOfRange

def index (b : Slice) (i : Nat) : Except Panic UInt8 :=
  match b.bytes[i]? with
  | some v => .ok v
  | none => .error .indexOutOfRange

def extendByteSlice [SliceGrowth] (b : Slice) (needLen : Nat) : Slice :=
  if needLen ≤ b.cap then split b.array needLen
  else
    let grown := needLen - b.cap + SliceGrowth.spare b.cap needLen
    split (b.array ++ List.replicate grown 0) needLen

def clear (b : Slice) : Slice := ⟨[], List.replicate b.bytes.length 0 ++ b.rest⟩

end Slice

namespace Bitmap

def bitmapSize : Nat := 8

def isPushOp (i : UInt8) : Bool := i.toNat >>> 5 = 3

def isSet (buf : Slice) (i : Nat) : Except Panic Bool := do
  let byte ← buf.index (i / bitmapSize)
  return byte.toNat.testBit (i % bitmapSize)

def set (buf : Bytes) (i : Nat) : Bytes :=
  buf.modify (i / bitmapSize) fun byte => byte ||| UInt8.ofNat (2 ^ (i % bitmapSize))

def setCodeLoop (code : Bytes) : Nat → Nat → Bytes → Bytes
  | 0, _, buf => buf
  | rounds + 1, i, buf =>
    match code[i]? with
    | none => buf
    | some c =>
      if isPushOp c then setCodeLoop code rounds (i + (c.toNat - 0x60 + 2)) buf
      else setCodeLoop code rounds (i + 1) (if c = 0x5b then set buf i else buf)

def setCode [SliceGrowth] (buf : Slice) (code : Bytes) : Slice :=
  let buf := buf.extendByteSlice (code.length / bitmapSize + 1)
  { buf with bytes := setCodeLoop code code.length 0 buf.bytes }

end Bitmap

structure State where
  ip : Int
  tmp : Bytes
  memory : Slice
  lastGasCost : Nat
  stack : List Int
  unused : List Int
  err : Option Runtime.Error
  stop : Bool
  gas : Nat
  bitmap : Slice
  returnData : Bytes
  ret : Bytes
deriving DecidableEq

namespace State

def new : State where
  ip := 0
  tmp := []
  memory := .nil
  lastGasCost := 0
  stack := []
  unused := []
  err := none
  stop := false
  gas := 0
  bitmap := .nil
  returnData := []
  ret := []

def reset (c : State) : State where
  ip := 0
  tmp := []
  memory := c.memory.clear
  lastGasCost := 0
  stack := []
  unused := []
  err := none
  stop := false
  gas := 0
  bitmap := c.bitmap.clear
  returnData := c.returnData
  ret := []

def exit (c : State) (err : Runtime.Error) : State := { c with stop := true, err := some err }

def push (c : State) (v : Int) : State :=
  { c with stack := v :: c.stack, unused := c.unused.tail }

def pop (c : State) : Option Int × State :=
  match c.stack with
  | [] => (none, c)
  | v :: rest => (some v, { c with stack := rest, unused := v :: c.unused })

def peekAt (c : State) (n : Nat) : Option Int :=
  if n = 0 then c.unused.head? else c.stack[n - 1]?

def swap (c : State) (n : Nat) : Except Panic State :=
  match c.stack[0]?, c.stack[n]? with
  | some v, some w => .ok { c with stack := (c.stack.set 0 w).set n v }
  | _, _ => .error .indexOutOfRange

def consumeGas (c : State) (gas : Nat) : Bool × State :=
  if c.gas < gas then (false, c.exit .outOfGas) else (true, { c with gas := c.gas - gas })

def memoryCost (w : Nat) : Nat := (3 * w + w * w % 2 ^ 64 / 512) % 2 ^ 64

def allocateMemory [SliceGrowth] (c : State) (offset size : Int) : Bool × State :=
  if !Word.isUint64 offset || !Word.isUint64 size then (false, c.exit .gasUintOverflow)
  else if size = 0 then (true, c)
  else
    let o := Word.uint64 offset
    let s := Word.uint64 size
    if 0xffffffffe0 < o || 0xffffffffe0 < s then (false, c.exit .gasUintOverflow)
    else if c.memory.bytes.length < o + s then
      let w := (o + s + 31) / 32
      let newCost := memoryCost w
      let cost := sub64 newCost c.lastGasCost
      let c := { c with lastGasCost := newCost }
      match c.consumeGas cost with
      | (false, c) => (false, c.exit .outOfGas)
      | (true, c) => (true, { c with memory := c.memory.extendByteSlice (w * 32) })
    else (true, c)

end State

inductive Action where
  | pop
  | top
  | setTop (v : Int)
  | push (v : Int)
  | peekAt (n : Nat)
  | swap (n : Nat)
  | stackSize
  | gas
  | consumeGas (gas : Nat)
  | addGas (gas : Nat)
  | exit (err : Runtime.Error)
  | halt
  | ip
  | setIp (ip : Int)
  | allocateMemory (offset size : Int)
  | memorySize
  | slice (lo hi : Nat)
  | copySlice (lo hi : Nat) (data : Bytes)
  | copyTail (lo : Nat) (data : Bytes)
  | setTail (lo : Nat) (data : Bytes)
  | setIndex (i : Nat) (v : UInt8)
  | isSet (i : Nat)
  | tmp
  | setTmp (b : Bytes)
  | setRet (b : Bytes)
  | returnData
  | setReturnData (b : Bytes)
  | panic (p : Panic)

namespace Action

abbrev Answer : Action → Type
  | pop | top => Option Int
  | peekAt _ | ip => Int
  | stackSize | gas | memorySize => Nat
  | consumeGas _ | allocateMemory .. | isSet _ => Bool
  | slice .. | tmp | returnData => Bytes
  | panic _ => Empty
  | setTop _ | push _ | swap _ | addGas _ | exit _ | halt | setIp _ | copySlice .. | copyTail ..
  | setTail .. | setIndex .. | setTmp _ | setRet _ | setReturnData _ => Unit

end Action

abbrev Fault := Nxchain.Fault Empty

def State.store (c : State) (result : Except Panic Slice) : Except Fault (Unit × State) :=
  match result with
  | .ok memory => .ok ((), { c with memory := memory })
  | .error p => .error (.panic p)

def State.look {α : Type} (c : State) (result : Except Panic α) : Except Fault (α × State) :=
  match result with
  | .ok a => .ok (a, c)
  | .error p => .error (.panic p)

def Action.exec [SliceGrowth] : (op : Action) → State → Except Fault (op.Answer × State)
  | .pop, c => .ok c.pop
  | .top, c => .ok (c.stack.head?, c)
  | .setTop v, c =>
    match c.stack with
    | [] => .error (.panic .nilDereference)
    | _ :: rest => .ok ((), { c with stack := v :: rest })
  | .push v, c => .ok ((), c.push v)
  | .peekAt n, c =>
    match c.peekAt n with
    | none => .error (.panic .indexOutOfRange)
    | some v => .ok (v, c)
  | .swap n, c =>
    match c.swap n with
    | .error p => .error (.panic p)
    | .ok c => .ok ((), c)
  | .stackSize, c => .ok (c.stack.length, c)
  | .gas, c => .ok (c.gas, c)
  | .consumeGas amount, c => .ok (c.consumeGas amount)
  | .addGas amount, c => .ok ((), { c with gas := (c.gas + amount) % 2 ^ 64 })
  | .exit err, c => .ok ((), c.exit err)
  | .halt, c => .ok ((), { c with stop := true })
  | .ip, c => .ok (c.ip, c)
  | .setIp i, c => .ok ((), { c with ip := i })
  | .allocateMemory offset size, c => .ok (c.allocateMemory offset size)
  | .memorySize, c => .ok (c.memory.bytes.length, c)
  | .slice lo hi, c => c.look (c.memory.slice lo hi)
  | .copySlice lo hi data, c => c.store (c.memory.copySlice lo hi data)
  | .copyTail lo data, c => c.store (c.memory.copyTail lo data)
  | .setTail lo data, c => c.store (c.memory.setTail lo data)
  | .setIndex i v, c => c.store (c.memory.setIndex i v)
  | .isSet i, c => c.look (Bitmap.isSet c.bitmap i)
  | .tmp, c => .ok (c.tmp, c)
  | .setTmp b, c => .ok ((), { c with tmp := b })
  | .setRet b, c => .ok ((), { c with ret := b })
  | .returnData, c => .ok (c.returnData, c)
  | .setReturnData b, c => .ok ((), { c with returnData := b })
  | .panic p, _ => .error (.panic p)

end Nxchain.Evm
