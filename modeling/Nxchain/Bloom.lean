import Nxchain.Executor

namespace Nxchain.Bloom

def bitAt (buf : Hash) (i : Nat) : Nat :=
  ((buf.toBytes.getD (i + 1) 0).toNat + ((buf.toBytes.getD i 0).toNat <<< 8)) &&& 2047

def places : List Nat := [0, 2, 4]

def shiftedOne (count : Nat) : UInt8 := if count < 8 then UInt8.ofNat (1 <<< count) else 0

def setBit (b : Bloom) (bit : Nat) : Bloom :=
  let byteLocation := 256 - 1 - bit / 8
  let bitLocation := bit % 8
  ⟨b.toBytes.modify byteLocation (· ||| shiftedOne bitLocation), by
    rw [List.length_modify, b.length_toBytes]⟩

def isSet (b : Bloom) (bit : Nat) : Bool :=
  let byteLocation := 256 - 1 - bit / 8
  let bitLocation := bit % 8
  let referenceByte := b.toBytes.getD byteLocation 0
  referenceByte &&& shiftedOne (pred64 bitLocation) != 0

variable [Keccak]

def setEncode (b : Bloom) (h : Bytes) : Bloom :=
  let buf := keccak256 h
  places.foldl (fun b i => b.setBit (bitAt buf i)) b

def addLog (b : Bloom) (log : Log) : Bloom :=
  log.topics.foldl (fun b topic => setEncode b topic.toBytes) (setEncode b log.address.toBytes)

def createBloom (receipts : List Receipt) : Bloom :=
  receipts.foldl (fun b receipt => receipt.logs.foldl addLog b) (FixedBytes.zero 256)

def isByteArrPresent (b : Bloom) (data : Bytes) : Bool :=
  let buf := keccak256 data
  places.all fun i => b.isSet (bitAt buf i)

def isLogInBloom (b : Bloom) (log : Log) : Bool :=
  if !isByteArrPresent b log.address.toBytes then false
  else log.topics.all fun topic => isByteArrPresent b topic.toBytes

end Nxchain.Bloom
