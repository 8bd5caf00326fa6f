import Nxchain.Encoding
import Nxchain.Lib.Slice

namespace Nxchain.Archive

open Rlp (ofBigEndian)

structure Reader where
  rest : Bytes
  reads : Nat
  limit : Nat → Nat → Nat

def Reader.read (r : Reader) (n : Nat) : Option (Bytes × Reader) :=
  if n = 0 then some ([], { r with reads := r.reads + 1 })
  else if r.rest = [] then none
  else
    let count := max 1 (min (r.limit r.reads n) n)
    some (r.rest.take count, { r with rest := r.rest.drop count, reads := r.reads + 1 })

structure Metadata where
  latest : Nat
  latestHash : Hash
deriving DecidableEq

namespace Metadata

def marshalRLPWith (m : Metadata) : Rlp.Value :=
  .list [.bytes (Rlp.bigEndian m.latest), .bytes m.latestHash.toBytes]

def unmarshalRLPFrom (v : Rlp.Value) : Except DecodeError Metadata := do
  match ← v.getElems.mapError .rlp with
  | latest :: latestHash :: _ =>
    let latest ← latest.getUint64.mapError .rlp
    let latestHash ← (getArray 32 latestHash).mapError .rlp
    return ⟨latest, latestHash⟩
  | elems => throw (.incorrectNumberOfElements 2 elems.length)

end Metadata

inductive Error where
  | eof
  | expectedArray
  | decode (e : DecodeError)
deriving DecidableEq

structure BlockStream where
  input : Reader
  buffer : Bytes

namespace BlockStream

def new (input : Reader) : BlockStream := ⟨input, List.replicate 1024 0⟩

def readInto (b : BlockStream) (lo hi : Nat) : Except (Fault Error) (Nat × BlockStream) :=
  if lo ≤ hi ∧ hi ≤ b.buffer.length then
    match b.input.read (hi - lo) with
    | none => .error (.error .eof)
    | some (got, input) => .ok (got.length, ⟨input, Slice.copyTo b.buffer lo got⟩)
  else .error (.panic .indexOutOfRange)

def reserveCap (b : BlockStream) (size : Nat) : Except (Fault Error) BlockStream :=
  let diff := asInt64 (asInt64 size - b.buffer.length)
  if diff > 0 then
    if b.buffer.length + diff < 2 ^ 63 then
      .ok { b with buffer := b.buffer ++ List.replicate diff.toNat 0 }
    else .error (.panic .indexOutOfRange)
  else if size ≤ b.buffer.length then .ok b
  else .error (.panic .indexOutOfRange)

def loadRLPPrefix (b : BlockStream) : Except (Fault Error) (UInt8 × BlockStream) := do
  let (_, b) ← b.readInto 0 1
  return (b.buffer.getD 0 0, b)

def loadPrefixSize (b : BlockStream) (offset : Nat) (tag : UInt8) :
    Except (Fault Error) (Nat × Nat × BlockStream) :=
  if tag ≥ 0xc0 ∧ tag ≤ 0xf7 then .ok (1, (tag - 0xc0).toNat, b)
  else if tag ≥ 0xf8 then do
    let payloadSizeSize := (tag - 0xf7).toNat
    let b ← b.reserveCap (offset + payloadSizeSize)
    let (n, b) ← b.readInto offset (offset + payloadSizeSize)
    if n < payloadSizeSize then throw (.error .eof)
    let payloadSizeBytes := (b.buffer.drop offset).take payloadSizeSize
    let payloadSize := asInt64 (ofBigEndian payloadSizeBytes)
    return (payloadSizeSize + 1, (payloadSize % 2 ^ 64).toNat, b)
  else .error (.error .expectedArray)

def loadPayload (b : BlockStream) (offset size : Nat) : Except (Fault Error) BlockStream := do
  let b ← b.reserveCap ((offset + size) % 2 ^ 64)
  let (_, b) ← b.readInto offset ((offset + size) % 2 ^ 64)
  return b

def loadRLPArray (b : BlockStream) : Except (Fault Error) (Nat × BlockStream) :=
  match b.loadRLPPrefix with
  | .error (.error .eof) => .ok (0, b)
  | .error e => .error e
  | .ok (tag, b) => do
    let (headerSize, payloadSize, b) ← b.loadPrefixSize 1 tag
    let b ← b.loadPayload headerSize payloadSize
    return ((headerSize + payloadSize) % 2 ^ 64, b)

def next {α : Type} (parse : Bytes → Except (Fault DecodeError) α) (b : BlockStream) :
    Except (Fault Error) (Option α × BlockStream) := do
  let (size, b) ← b.loadRLPArray
  if size = 0 then return (none, b)
  if size ≤ b.buffer.length then
    let a ← (parse (b.buffer.take size)).mapError (Fault.map .decode)
    return (some a, b)
  else throw (.panic .indexOutOfRange)

end BlockStream

structure Decoders where
  codec : Rlp.Codec
  headerHash : Header → Except Panic Hash
  hashOf : Rlp.Value → Hash

namespace Decoders

variable (d : Decoders)

def parseMetadata (data : Bytes) : Except (Fault DecodeError) Metadata :=
  unmarshalWith d.codec (fun v => (Metadata.unmarshalRLPFrom v).mapError .error) data

def parseBlock (data : Bytes) : Except (Fault DecodeError) Block :=
  unmarshalWith d.codec (Block.unmarshalRLPFrom d.headerHash d.hashOf) data

end Decoders

def BlockStream.getMetadata (d : Decoders) (b : BlockStream) :
    Except (Fault Error) (Option Metadata × BlockStream) :=
  b.next d.parseMetadata

def BlockStream.nextBlock (d : Decoders) (b : BlockStream) :
    Except (Fault Error) (Option Block × BlockStream) :=
  b.next d.parseBlock

inductive Ending where
  | more
  | endOfStream
  | fault (f : Fault Error)
deriving DecidableEq

def collect {σ α : Type} (next : σ → Except (Fault Error) (Option α × σ)) : Nat → σ → List α × Ending
  | 0, _ => ([], .more)
  | n + 1, s =>
    match next s with
    | .error f => ([], .fault f)
    | .ok (none, _) => ([], .endOfStream)
    | .ok (some a, s) =>
      let (rest, ending) := collect next n s
      (a :: rest, ending)

structure Outcome where
  metadata : Option Metadata
  blocks : List Block
  ending : Ending
deriving DecidableEq

def restoreWith {σ : Type} (getMetadata : σ → Except (Fault Error) (Option Metadata × σ))
    (nextBlock : σ → Except (Fault Error) (Option Block × σ)) (n : Nat) (s : σ) : Outcome :=
  match getMetadata s with
  | .error f => ⟨none, [], .fault f⟩
  | .ok (none, _) => ⟨none, [], .endOfStream⟩
  | .ok (some m, s) =>
    let (blocks, ending) := collect nextBlock n s
    ⟨some m, blocks, ending⟩

def restore (d : Decoders) (n : Nat) (input : Reader) : Outcome :=
  restoreWith (BlockStream.getMetadata d) (BlockStream.nextBlock d) n (.new input)

end Nxchain.Archive
