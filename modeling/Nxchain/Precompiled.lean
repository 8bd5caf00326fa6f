import Mathlib.Data.Nat.Size
import Nxchain.Lib.Rlp
import Nxchain.Lib.Slice
import Nxchain.Types

namespace Nxchain

structure Precompiled where
  buf : Bytes
deriving DecidableEq

namespace Precompiled

open Slice (copyTo)

def extendByteSlice (b : Bytes) (needLen : Int) : Except Panic Bytes :=
  let n := needLen - b.length
  let b := if n > 0 then b ++ List.replicate n.toNat 0 else b
  if needLen < 0 then .error .indexOutOfRange else .ok b

def zeroPadding : Bytes := List.replicate 64 0

def get (p : Precompiled) (input : Bytes) (size : Int) : Except Panic (Bytes × Bytes × Precompiled) := do
  let buf ← extendByteSlice p.buf size
  let n := if (input.length : Int) < size then input.length else size.toNat
  let buf := copyTo buf 0 (input.take n)
  let buf :=
    if (n : Int) < size then
      let rest := size.toNat - n
      if rest < 64 then copyTo buf n (zeroPadding.take rest)
      else copyTo buf n (List.replicate rest 0)
    else buf
  return (buf.take size.toNat, input.drop n, ⟨buf⟩)

def getUint64 (p : Precompiled) (input : Bytes) : Except Panic (Nat × Bytes × Precompiled) := do
  let (buf, input, p) ← p.get input 32
  return (Rlp.ofBigEndian ((buf.drop 24).take 8), input, p)

def leftPad (buf : Bytes) (n : Int) : Bytes :=
  let l := buf.length
  if (l : Int) > n then buf else copyTo (List.replicate n.toNat 0) (n.toNat - l) buf

end Precompiled

namespace ModExp

open Rlp (bigEndian ofBigEndian)

def divisor : Int := 20

def adjustedExponentLength (expLen head : Int) : Int :=
  let bitlength : Int := if head ≠ 0 then head.natAbs.size - 1 else 0
  if expLen ≤ 32 then bitlength else (expLen - 32) * 8 + bitlength

def subMul (x a b c : Int) : Int :=
  let tmp := x * x / a
  x * b - c + tmp

def multComplexity (x : Int) : Int :=
  if x ≤ 64 then x * x
  else if x ≤ 1024 then subMul x 4 96 3072
  else subMul x 16 480 199680

def price (baseLen expLen modLen expHead : Int) : Nat :=
  let gasCost := if modLen ≥ baseLen then modLen else baseLen
  let gasCost := multComplexity gasCost
  let adjExpLen := adjustedExponentLength expLen expHead
  let gasCost := if adjExpLen ≥ 1 then gasCost * adjExpLen else gasCost * 1
  let gasCost := gasCost / divisor
  if 0 ≤ gasCost ∧ gasCost < 2 ^ 64 then gasCost.toNat else 2 ^ 64 - 1

def gas (p : Precompiled) (input : Bytes) : Except Panic (Nat × Precompiled) := do
  let (val, tail, p) ← p.get input 32
  let baseLen := ofBigEndian val
  let (val, tail, p) ← p.get tail 32
  let expLen := ofBigEndian val
  let (val, _, p) ← p.get tail 32
  let modLen := ofBigEndian val
  let input := if input.length > 96 then input.drop 96 else []
  let expHeadLen : Nat := if expLen < 32 then expLen % 2 ^ 64 else 32
  let bLen := baseLen % 2 ^ 64
  if bLen < input.length then
    let (val, _, p) ← p.get (input.drop bLen) expHeadLen
    return (price baseLen expLen modLen (ofBigEndian val), p)
  else return (price baseLen expLen modLen 0, p)

def run (p : Precompiled) (input : Bytes) : Except Panic (Bytes × Precompiled) := do
  let (baseLen, input, p) ← p.getUint64 input
  let (exponentLen, input, p) ← p.getUint64 input
  let (modulusLen, input, p) ← p.getUint64 input
  if baseLen = 0 ∧ modulusLen = 0 then return ([], p)
  let (val, input, p) ← p.get input (asInt64 baseLen)
  let base := ofBigEndian val
  let (val, input, p) ← p.get input (asInt64 exponentLen)
  let exponent := ofBigEndian val
  let (val, _, p) ← p.get input (asInt64 modulusLen)
  let modulus := ofBigEndian val
  let res : Bytes := if modulus ≠ 0 then bigEndian (base ^ exponent % modulus) else []
  return (Precompiled.leftPad res (asInt64 modulusLen), p)

end ModExp

end Nxchain
