import Mathlib

namespace Nxchain

abbrev Bytes := List UInt8

structure FixedBytes (n : Nat) where
  toBytes : Bytes
  length_toBytes : toBytes.length = n
deriving DecidableEq

namespace FixedBytes

variable {n : Nat}

@[ext]
theorem ext {left right : FixedBytes n} (h : left.toBytes = right.toBytes) : left = right := by
  cases left
  cases h
  rfl

def ofBytes (n : Nat) (b : Bytes) : FixedBytes n where
  toBytes := List.replicate (n - min b.length n) 0 ++ b.drop (b.length - min b.length n)
  length_toBytes := by
    simp only [List.length_append, List.length_replicate, List.length_drop]
    omega

@[simp]
theorem ofBytes_toBytes (b : FixedBytes n) : ofBytes n b.toBytes = b := by
  simp [ofBytes, b.length_toBytes]

def zero (n : Nat) : FixedBytes n := ⟨List.replicate n 0, List.length_replicate⟩

end FixedBytes

abbrev Hash := FixedBytes 32
abbrev Address := FixedBytes 20
abbrev Nonce := FixedBytes 8
abbrev Bloom := FixedBytes 256

instance : LawfulBEq Hash := inferInstance

instance : LawfulBEq Address := inferInstance

def zeroHash : Hash := FixedBytes.zero 32

def zeroAddress : Address := FixedBytes.zero 20

def pred64 : Nat → Nat
  | 0 => 2 ^ 64 - 1
  | n + 1 => n

@[simp]
theorem pred64_succ (n : Nat) : pred64 (n + 1) = n := rfl

def sub64 (m n : Nat) : Nat := (m + 2 ^ 64 - n) % 2 ^ 64

def asInt64 (n : Int) : Int := n.bmod (2 ^ 64)

theorem sub64_eq {m n : Nat} (hm : m < 2 ^ 64) (hnm : n ≤ m) : sub64 m n = m - n := by
  rw [sub64, show m + 2 ^ 64 - n = m - n + 2 ^ 64 by omega, Nat.add_mod_right,
    Nat.mod_eq_of_lt (by omega)]

theorem asInt64_eq {n : Int} (hlow : -2 ^ 63 ≤ n) (hhigh : n < 2 ^ 63) : asInt64 n = n := by
  apply Int.bmod_eq_of_le <;> omega

inductive Panic where
  | nilDereference
  | indexOutOfRange
  | explicit (message : String)
deriving DecidableEq

inductive Fault (ε : Type) where
  | error (e : ε)
  | panic (p : Panic)
  | outOfFuel
deriving DecidableEq

def Fault.map {ε δ : Type} (f : ε → δ) : Fault ε → Fault δ
  | .error e => .error (f e)
  | .panic p => .panic p
  | .outOfFuel => .outOfFuel

structure Header where
  parentHash : Hash
  sha3Uncles : Hash
  miner : Bytes
  stateRoot : Hash
  txRoot : Hash
  receiptsRoot : Hash
  logsBloom : Bloom
  difficulty : Nat
  number : Nat
  gasLimit : Nat
  gasUsed : Nat
  timestamp : Nat
  extraData : Bytes
  mixHash : Hash
  nonce : Nonce
  hash : Hash
deriving DecidableEq

namespace Header

def computeHash (headerHash : Header → Hash) (h : Header) : Header :=
  { h with hash := headerHash h }

def isGenesis (h : Header) : Bool := h.hash ≠ zeroHash && h.number = 0

end Header

end Nxchain
