import Mathlib.Data.List.TakeWhile
import Nxchain.Encoding
import Nxchain.Lib.Except

namespace Nxchain

open Rlp

@[simp]
theorem getArray_toBytes {n : Nat} (b : FixedBytes n) : getArray n (.bytes b.toBytes) = .ok b := by
  simp [getArray, Value.getFixed, b.length_toBytes, Except.map]

theorem ofBytes_bigEndian {n : Nat} (b : FixedBytes n) :
    FixedBytes.ofBytes n (bigEndian (ofBigEndian b.toBytes)) = b := by
  rw [bigEndian_ofBigEndian]
  have hsplit : b.toBytes.takeWhile (· == 0) ++ b.toBytes.dropWhile (· == 0) = b.toBytes :=
    List.takeWhile_append_dropWhile
  have hzeros : b.toBytes.takeWhile (· == 0) = List.replicate (b.toBytes.takeWhile (· == 0)).length 0 := by
    refine List.eq_replicate_iff.mpr ⟨rfl, fun x hx => ?_⟩
    have hzero := List.mem_takeWhile_imp hx
    exact beq_iff_eq.mp hzero
  have hlength : (b.toBytes.takeWhile (· == 0)).length + (b.toBytes.dropWhile (· == 0)).length = n := by
    rw [← List.length_append, hsplit, b.length_toBytes]
  have hle : (b.toBytes.dropWhile (· == 0)).length ≤ n := by omega
  apply FixedBytes.ext
  change List.replicate _ 0 ++ List.drop _ _ = _
  rw [Nat.min_eq_left hle, Nat.sub_self, List.drop_zero,
    show n - (b.toBytes.dropWhile (· == 0)).length = (b.toBytes.takeWhile (· == 0)).length by omega,
    ← hzeros, hsplit]

structure Header.Fits (h : Header) : Prop where
  difficulty : h.difficulty < 2 ^ 64
  number : h.number < 2 ^ 64
  gasLimit : h.gasLimit < 2 ^ 64
  gasUsed : h.gasUsed < 2 ^ 64
  timestamp : h.timestamp < 2 ^ 64

structure Transaction.Fits (t : Transaction) : Prop where
  nonce : t.nonce < 2 ^ 64
  gas : t.gas < 2 ^ 64

structure Block.Fits (b : Block) : Prop where
  header : b.header.Fits
  transactions : ∀ t ∈ b.transactions, t.Fits
  uncles : ∀ h ∈ b.uncles, h.Fits

structure Body.Fits (b : Body) : Prop where
  transactions : ∀ t ∈ b.transactions, t.Fits
  uncles : ∀ h ∈ b.uncles, h.Fits

structure Receipt.Fits (r : Receipt) : Prop where
  cumulativeGasUsed : r.cumulativeGasUsed < 2 ^ 64
  gasUsed : r.gasUsed < 2 ^ 64
  status : ∀ status ∈ r.status, status = .failed ∨ status = .success

theorem Header.unmarshalRLPFrom_marshalRLPWith {h : Header} (hfits : h.Fits)
    (headerHash : Header → Except Panic Hash) :
    unmarshalRLPFrom headerHash h.marshalRLPWith =
      ((headerHash { h with hash := zeroHash }).mapError .panic).map fun hash =>
        { h with hash := hash } := by
  have hnonce : (Value.bytes h.nonce.toBytes).getUint64 = .ok (ofBigEndian h.nonce.toBytes) :=
    Value.getUint64_bytes h.nonce.length_toBytes.le
  simp only [unmarshalRLPFrom, marshalRLPWith, Value.getElems_list, Except.mapError, List.length_cons,
    List.length_nil, List.take_succ_cons, List.take_zero, unmarshalFields, getArray_toBytes, hnonce,
    Value.getBytes_bytes, Value.getUint64_bigEndian hfits.difficulty,
    Value.getUint64_bigEndian hfits.number, Value.getUint64_bigEndian hfits.gasLimit,
    Value.getUint64_bigEndian hfits.gasUsed, Value.getUint64_bigEndian hfits.timestamp,
    ofBytes_bigEndian, bind, Except.bind, pure, Except.pure]
  cases headerHash { h with hash := zeroHash } <;> rfl

theorem Transaction.unmarshalRLPFrom_marshalRLPWith {t : Transaction} (hfits : t.Fits) (hashOf : Value → Hash) :
    unmarshalRLPFrom hashOf t.marshalRLPWith =
      .ok { t.computeHash hashOf with sender := zeroAddress } := by
  have hrecipient : (getArray 20 (.bytes ((t.recipient.map FixedBytes.toBytes).getD []))).toOption =
      t.recipient := by
    cases t.recipient with
    | none => rfl
    | some address => exact congrArg Except.toOption (getArray_toBytes address)
  have hfields : unmarshalFields (hashOf t.marshalRLPWith)
      [.bytes (bigEndian t.nonce), .bytes (bigEndian t.gasPrice), .bytes (bigEndian t.gas),
        .bytes ((t.recipient.map FixedBytes.toBytes).getD []), .bytes (bigEndian t.value),
        .bytes t.input, .bytes (bigEndian t.v), .bytes (bigEndian t.r), .bytes (bigEndian t.s)] =
      .ok { t.computeHash hashOf with sender := zeroAddress } := by
    simp only [unmarshalFields, hrecipient, Value.getUint64_bigEndian hfits.nonce,
      Value.getUint64_bigEndian hfits.gas, Value.getBigInt_bigEndian, Value.getBytes_bytes, bind,
      Except.bind, pure, Except.pure, computeHash]
  refine Except.bind_eq_ok rfl ?_
  exact Except.mapError_eq_ok_iff.mpr hfields

theorem mapM_decode {ε α β : Type} {encode : α → Value} {decode : Value → Except ε β} {received : α → β}
    {as : List α} (h : ∀ a ∈ as, decode (encode a) = .ok (received a)) :
    (as.map encode).mapM decode = .ok (as.map received) := by
  rw [Except.mapM_eq_ok_iff, List.forall₂_map_left_iff, List.forall₂_map_right_iff, List.forall₂_same]
  exact h

section Hashes

/- The consensus hashes the encoding of a header. -/
variable (headerHash hashOf : Value → Hash)

def Header.received (h : Header) : Header := { h with hash := headerHash h.marshalRLPWith }

def Transaction.received (t : Transaction) : Transaction :=
  { t.computeHash hashOf with sender := zeroAddress }

def Block.received (b : Block) : Block where
  header := b.header.received headerHash
  transactions := b.transactions.map (·.received hashOf)
  uncles := b.uncles.map (·.received headerHash)

def Body.restored (b : Body) : Body where
  transactions := b.transactions.map (·.computeHash hashOf)
  uncles := b.uncles.map (·.received headerHash)

def hashEncoded (h : Header) : Except Panic Hash := .ok (headerHash h.marshalRLPWith)

variable {headerHash hashOf}

theorem Header.unmarshal_received {h : Header} (hfits : h.Fits) :
    unmarshalRLPFrom (hashEncoded headerHash) h.marshalRLPWith = .ok (h.received headerHash) := by
  rw [unmarshalRLPFrom_marshalRLPWith hfits]
  rfl

theorem Transaction.unmarshal_received {t : Transaction} (hfits : t.Fits) :
    unmarshalRLPFrom hashOf t.marshalRLPWith = .ok (t.received hashOf) :=
  unmarshalRLPFrom_marshalRLPWith hfits hashOf

theorem Block.unmarshal_received {b : Block} (hfits : b.Fits) :
    unmarshalRLPFrom (hashEncoded headerHash) hashOf b.marshalRLPWith =
      .ok (b.received headerHash hashOf) := by
  refine Except.bind_eq_ok rfl ?_
  refine Except.bind_eq_ok (Header.unmarshal_received hfits.header) ?_
  refine Except.bind_eq_ok rfl ?_
  refine Except.bind_eq_ok (Except.mapError_eq_ok_iff.mpr (mapM_decode fun t ht =>
    Transaction.unmarshal_received (hfits.transactions t ht))) ?_
  refine Except.bind_eq_ok rfl ?_
  exact Except.bind_eq_ok (mapM_decode fun h hh =>
    Header.unmarshal_received (hfits.uncles h hh)) rfl

theorem Transaction.unmarshal_restored {t : Transaction} (hfits : t.Fits) :
    unmarshalStoreRLPFrom hashOf t.marshalStoreRLPWith = .ok (t.computeHash hashOf) := by
  refine Except.bind_eq_ok rfl ?_
  refine Except.bind_eq_ok (unmarshalRLPFrom_marshalRLPWith hfits hashOf) ?_
  exact Except.bind_eq_ok (Except.mapError_eq_ok_iff.mpr (getArray_toBytes _)) rfl

theorem Body.unmarshal_restored {b : Body} (hfits : b.Fits) :
    unmarshalRLPFrom (hashEncoded headerHash) hashOf b.marshalRLPWith =
      .ok (b.restored headerHash hashOf) := by
  refine Except.bind_eq_ok rfl ?_
  refine Except.bind_eq_ok rfl ?_
  refine Except.bind_eq_ok (Except.mapError_eq_ok_iff.mpr (mapM_decode fun t ht =>
    Transaction.unmarshal_restored (hfits.transactions t ht))) ?_
  refine Except.bind_eq_ok rfl ?_
  exact Except.bind_eq_ok (mapM_decode fun h hh =>
    Header.unmarshal_received (hfits.uncles h hh)) rfl

end Hashes

namespace Receipt

def restored (r : Receipt) : Receipt :=
  { r with root := if r.status.isSome then zeroHash else r.root }

def received (r : Receipt) : Receipt :=
  { r.restored with gasUsed := 0, contractAddress := none, txHash := zeroHash }

theorem unmarshalLog_marshalLog (l : Log) : unmarshalLog (marshalLog l) = .ok l := by
  have htopics : (l.topics.map fun t => Value.bytes t.toBytes).mapM (getArray 32) = .ok l.topics := by
    rw [mapM_decode fun t _ => getArray_toBytes t, List.map_id']
  refine Except.bind_eq_ok rfl ?_
  refine Except.bind_eq_ok (Except.mapError_eq_ok_iff.mpr (getArray_toBytes _)) ?_
  refine Except.bind_eq_ok rfl ?_
  refine Except.bind_eq_ok (Except.mapError_eq_ok_iff.mpr htopics) ?_
  exact Except.bind_eq_ok rfl rfl

theorem rootOrStatus_marshal {r : Receipt} (hfits : r.Fits) :
    rootOrStatus ((r.status.map marshalStatus).getD r.root.toBytes) = (r.restored.root, r.status) := by
  unfold restored
  cases hstatus : r.status with
  | none =>
    have hlength := r.root.length_toBytes
    change rootOrStatus r.root.toBytes = (r.root, none)
    unfold rootOrStatus
    split
    · rename_i code hroot
      rw [hroot] at hlength
      cases hlength
    · rw [if_pos hlength, FixedBytes.ofBytes_toBytes]
  | some status =>
    rcases hfits.status status hstatus with rfl | rfl
    · rfl
    · rfl

theorem unmarshal_received {r : Receipt} (hfits : r.Fits) : unmarshalRLPFrom r.marshalRLPWith = .ok r.received := by
  refine Except.bind_eq_ok rfl ?_
  refine Except.bind_eq_ok rfl ?_
  rw [rootOrStatus_marshal hfits]
  refine Except.bind_eq_ok (Except.mapError_eq_ok_iff.mpr (Value.getUint64_bigEndian hfits.cumulativeGasUsed)) ?_
  refine Except.bind_eq_ok (Except.mapError_eq_ok_iff.mpr (getArray_toBytes _)) ?_
  refine Except.bind_eq_ok rfl ?_
  refine Except.bind_eq_ok (mapM_decode fun l _ => unmarshalLog_marshalLog l) ?_
  rw [List.map_id']
  rfl

theorem unmarshal_restored {r : Receipt} (hfits : r.Fits) :
    unmarshalStoreRLPFrom r.marshalStoreRLPWith = .ok r.restored := by
  refine Except.bind_eq_ok rfl ?_
  refine Except.bind_eq_ok (unmarshal_received hfits) ?_
  refine Except.bind_eq_ok rfl ?_
  refine Except.bind_eq_ok (Except.mapError_eq_ok_iff.mpr (Value.getUint64_bigEndian hfits.gasUsed)) ?_
  have hhash : unmarshalTxHash [.bytes r.txHash.toBytes] = .ok r.txHash :=
    congrArg Except.ok (FixedBytes.ofBytes_toBytes r.txHash)
  refine Except.bind_eq_ok (Except.mapError_eq_ok_iff.mpr hhash) ?_
  have haddress : (if ((r.contractAddress.map FixedBytes.toBytes).getD []).length = 20 then
      some (FixedBytes.ofBytes 20 ((r.contractAddress.map FixedBytes.toBytes).getD [])) else none) =
        r.contractAddress := by
    cases r.contractAddress with
    | none => rfl
    | some address =>
      change (if address.toBytes.length = 20 then some (FixedBytes.ofBytes 20 address.toBytes) else none)
        = some address
      rw [if_pos address.length_toBytes, FixedBytes.ofBytes_toBytes]
  rw [haddress]
  rfl

end Receipt

namespace Receipts

theorem unmarshal_received {receipts : List Receipt} (hfits : ∀ r ∈ receipts, r.Fits) :
    unmarshalRLPFrom (marshalRLPWith receipts) = .ok (receipts.map (·.received)) :=
  Except.bind_eq_ok rfl (mapM_decode fun r hr => Receipt.unmarshal_received (hfits r hr))

theorem unmarshal_restored {receipts : List Receipt} (hfits : ∀ r ∈ receipts, r.Fits) :
    unmarshalStoreRLPFrom (marshalStoreRLPWith receipts) = .ok (receipts.map (·.restored)) :=
  Except.bind_eq_ok rfl (mapM_decode fun r hr => Receipt.unmarshal_restored (hfits r hr))

end Receipts

theorem unmarshalWith_marshal {α : Type} {codec : Codec} {decode : Value → Except (Fault DecodeError) α} {v : Value}
    {a : α} (hsize : (codec.marshal v).length < maxLength) (hdecode : decode v = .ok a) :
    unmarshalWith codec decode (codec.marshal v) = .ok a := by
  rw [unmarshalWith, codec.parse_marshal v hsize]
  exact hdecode

def ReadsBack {α β : Type} (codec : Codec) (encode : α → Value)
    (decode : Value → Except (Fault DecodeError) β) (fits : α → Prop) (received : α → β) : Prop :=
  ∀ a, fits a → (codec.marshal (encode a)).length < maxLength →
    unmarshalWith codec decode (codec.marshal (encode a)) = .ok (received a)

theorem readsBack_of_decode {α β : Type} {codec : Codec} {encode : α → Value}
    {decode : Value → Except (Fault DecodeError) β} {fits : α → Prop} {received : α → β}
    (h : ∀ a, fits a → decode (encode a) = .ok (received a)) : ReadsBack codec encode decode fits received :=
  fun a hfits hsize => unmarshalWith_marshal hsize (h a hfits)

def total {α : Type} (decode : Value → Except DecodeError α) (v : Value) : Except (Fault DecodeError) α :=
  (decode v).mapError .error

theorem readsBack_total {α β : Type} {codec : Codec} {encode : α → Value} {decode : Value → Except DecodeError β}
    {fits : α → Prop} {received : α → β} (h : ∀ a, fits a → decode (encode a) = .ok (received a)) :
    ReadsBack codec encode (total decode) fits received :=
  readsBack_of_decode fun a hfits => Except.mapError_eq_ok_iff.mpr (h a hfits)

def hashOf (keccak256 : Bytes → Hash) (codec : Codec) (v : Value) : Hash := keccak256 (codec.marshal v)

theorem decoding_inverts_encoding (codec : Codec) (keccak256 : Bytes → Hash) (headerHash : Value → Hash) :
    ReadsBack codec Header.marshalRLPWith (Header.unmarshalRLPFrom (hashEncoded headerHash)) Header.Fits
        (·.received headerHash) ∧
      ReadsBack codec Transaction.marshalRLPWith
        (total (Transaction.unmarshalRLPFrom (hashOf keccak256 codec))) Transaction.Fits
        (·.received (hashOf keccak256 codec)) ∧
      ReadsBack codec Block.marshalRLPWith
        (Block.unmarshalRLPFrom (hashEncoded headerHash) (hashOf keccak256 codec)) Block.Fits
        (·.received headerHash (hashOf keccak256 codec)) ∧
      ReadsBack codec Receipts.marshalRLPWith (total Receipts.unmarshalRLPFrom)
        (fun receipts => ∀ r ∈ receipts, r.Fits) (List.map Receipt.received) ∧
      ReadsBack codec Transaction.marshalStoreRLPWith
        (total (Transaction.unmarshalStoreRLPFrom (hashOf keccak256 codec))) Transaction.Fits
        (·.computeHash (hashOf keccak256 codec)) ∧
      ReadsBack codec Body.marshalRLPWith
        (Body.unmarshalRLPFrom (hashEncoded headerHash) (hashOf keccak256 codec)) Body.Fits
        (·.restored headerHash (hashOf keccak256 codec)) ∧
      ReadsBack codec Receipts.marshalStoreRLPWith (total Receipts.unmarshalStoreRLPFrom)
        (fun receipts => ∀ r ∈ receipts, r.Fits) (List.map Receipt.restored) ∧
      ∀ t : Transaction, (t.received (hashOf keccak256 codec)).hash =
        ((t.received (hashOf keccak256 codec)).computeHash (hashOf keccak256 codec)).hash :=
  ⟨readsBack_of_decode fun _ => Header.unmarshal_received,
    readsBack_total fun _ => Transaction.unmarshal_received,
    readsBack_of_decode fun _ => Block.unmarshal_received,
    readsBack_total fun _ => Receipts.unmarshal_received,
    readsBack_total fun _ => Transaction.unmarshal_restored,
    readsBack_of_decode fun _ => Body.unmarshal_restored,
    readsBack_total fun _ => Receipts.unmarshal_restored, fun _ => rfl⟩

def creationTx : Transaction where
  nonce := 3
  gasPrice := 2
  gas := 53000
  recipient := none
  value := 5
  input := [0x60, 0x00]
  v := 38
  r := 1
  s := 1
  hash := zeroHash
  sender := FixedBytes.ofBytes 20 [1]

def creationBlock : Block where
  header :=
    { parentHash := zeroHash, sha3Uncles := zeroHash, miner := zeroAddress.toBytes,
      stateRoot := zeroHash, txRoot := zeroHash, receiptsRoot := zeroHash,
      logsBloom := FixedBytes.zero 256, difficulty := 1, number := 1, gasLimit := 60000,
      gasUsed := 53000, timestamp := 7, extraData := [], mixHash := zeroHash,
      nonce := FixedBytes.zero 8, hash := zeroHash }
  transactions := [creationTx]
  uncles := []

def creationReceipt : Receipt where
  root := zeroHash
  cumulativeGasUsed := 53000
  logsBloom := FixedBytes.zero 256
  logs := [⟨FixedBytes.ofBytes 20 [2], [zeroHash], [7]⟩]
  status := some .success
  gasUsed := 53000
  contractAddress := some (FixedBytes.ofBytes 20 [2])
  txHash := zeroHash

theorem decoding_inverts_encoding_creation :
    unmarshalWith standard (Block.unmarshalRLPFrom (hashEncoded fun _ => zeroHash)
        (hashOf (fun _ => zeroHash) standard)) (standard.marshal creationBlock.marshalRLPWith) =
        .ok (creationBlock.received (fun _ => zeroHash) (hashOf (fun _ => zeroHash) standard)) ∧
      unmarshalWith standard (total Receipts.unmarshalStoreRLPFrom)
        (standard.marshal (Receipts.marshalStoreRLPWith [creationReceipt])) =
        .ok [creationReceipt.restored] := by
  obtain ⟨-, -, hblock, -, -, -, hreceipts, -⟩ :=
    decoding_inverts_encoding standard (fun _ => zeroHash) (fun _ => zeroHash)
  refine ⟨hblock creationBlock ⟨⟨?_, ?_, ?_, ?_, ?_⟩, ?_, ?_⟩ (by decide +kernel),
    hreceipts [creationReceipt] ?_ (by decide +kernel)⟩
  iterate 5 decide
  · exact List.forall_mem_singleton.mpr ⟨by decide, by decide⟩
  · exact List.forall_mem_nil _
  · exact List.forall_mem_singleton.mpr ⟨by decide, by decide, by simp [creationReceipt]⟩

section OneEncoding

def Shortest (b : Bytes) : Prop := b.head? ≠ some 0

inductive CanonicalFields : List Value → Prop
  | intro {nonce gasPrice gas recipient value input v r s : Bytes} :
      (∀ b ∈ [nonce, gasPrice, gas, value, v, r, s], Shortest b) →
      (recipient = [] ∨ recipient.length = 20) →
      CanonicalFields [.bytes nonce, .bytes gasPrice, .bytes gas, .bytes recipient, .bytes value,
        .bytes input, .bytes v, .bytes r, .bytes s]

variable {codec : Codec} {keccak256 : Bytes → Hash} {b : Bytes} {t : Transaction}

theorem Transaction.unmarshalRLPFrom_eq_ok {v : Value} {hash : Value → Hash}
    (hdecode : unmarshalRLPFrom hash v = .ok t) :
    ∃ nonce gasPrice gas recipient value input vv r s rest,
      v = .list ([.bytes nonce, .bytes gasPrice, .bytes gas, recipient, .bytes value, .bytes input,
        .bytes vv, .bytes r, .bytes s] ++ rest) ∧
      t = ⟨ofBigEndian nonce, ofBigEndian gasPrice, ofBigEndian gas, (getArray 20 recipient).toOption,
        ofBigEndian value, input, ofBigEndian vv, ofBigEndian r, ofBigEndian s, hash v, zeroAddress⟩ := by
  obtain ⟨elems, helems, hdecode⟩ := Except.bind_eq_ok_iff.mp hdecode
  rw [Except.mapError_eq_ok_iff, Value.getElems_eq_ok_iff] at helems
  obtain ⟨_, hfields⟩ := Except.ite_throw_bind_eq_ok_iff.mp hdecode
  rw [Except.mapError_eq_ok_iff] at hfields
  have hsplit := List.take_append_drop 9 elems
  unfold unmarshalFields at hfields
  split at hfields
  · rename_i nonce gasPrice gas recipient value input vv r s htake
    simp only [Except.bind_eq_ok_iff, Value.getUint64_eq_ok_iff, Value.getBigInt_eq_ok_iff,
      Value.getBytes_eq_ok_iff] at hfields
    obtain ⟨_, ⟨nonce, rfl, _, rfl⟩, _, ⟨gasPrice, rfl, rfl⟩, _, ⟨gas, rfl, _, rfl⟩, _,
      ⟨value, rfl, rfl⟩, input, rfl, _, ⟨vv, rfl, rfl⟩, _, ⟨r, rfl, rfl⟩, _, ⟨s, rfl, rfl⟩, ht⟩ := hfields
    refine ⟨nonce, gasPrice, gas, recipient, value, input, vv, r, s, elems.drop 9, ?_, ?_⟩
    · rw [helems, ← htake, hsplit]
    · exact (Except.ok.inj ht).symm
  · cases hfields

theorem recipient_marshal_iff (recipient : Value) :
    Value.bytes (((getArray 20 recipient).toOption.map FixedBytes.toBytes).getD []) = recipient ↔
      ∃ b, recipient = .bytes b ∧ (b = [] ∨ b.length = 20) := by
  cases recipient with
  | list vs => simp
  | bytes b =>
    by_cases hb : b.length = 20
    · simp [getArray, Value.getFixed, hb, Except.map, Except.toOption]
    · simp [getArray, Value.getFixed, hb, Except.map, Except.toOption]

theorem Transaction.marshalRLPWith_eq_iff {v : Value} {hash : Value → Hash}
    (hdecode : unmarshalRLPFrom hash v = .ok t) :
    t.marshalRLPWith = v ↔ ∃ elems, v = .list elems ∧ CanonicalFields elems := by
  obtain ⟨nonce, gasPrice, gas, recipient, value, input, vv, r, s, rest, rfl, rfl⟩ := unmarshalRLPFrom_eq_ok hdecode
  simp only [marshalRLPWith, List.cons_append, List.nil_append, Value.list.injEq, List.cons.injEq,
    Value.bytes.injEq, bigEndian_ofBigEndian_eq_self_iff, recipient_marshal_iff, true_and, exists_eq_left']
  constructor
  · rintro ⟨hnonce, hgasPrice, hgas, ⟨address, rfl, haddress⟩, hvalue, hv, hr, hs, rfl⟩
    refine .intro ?_ haddress
    simp only [List.forall_mem_cons]
    exact ⟨hnonce, hgasPrice, hgas, hvalue, hv, hr, hs, List.forall_mem_nil _⟩
  · rintro ⟨hshortest, haddress⟩
    simp only [List.forall_mem_cons] at hshortest
    obtain ⟨hnonce, hgasPrice, hgas, hvalue, hv, hr, hs, -⟩ := hshortest
    exact ⟨hnonce, hgasPrice, hgas, ⟨_, rfl, haddress⟩, hvalue, hv, hr, hs, rfl⟩

def Transaction.unmarshalRLP (codec : Codec) (keccak256 : Bytes → Hash) (b : Bytes) :
    Except (Fault DecodeError) Transaction :=
  unmarshalWith codec (total (unmarshalRLPFrom fun _ => keccak256 b)) b

theorem transaction_has_one_encoding (hsize : b.length < maxLength)
    (hdecode : Transaction.unmarshalRLP codec keccak256 b = .ok t) :
    t.hash = keccak256 b ∧
      (codec.marshal t.marshalRLPWith = b ↔ ∃ elems, codec.parse b = some (.list elems) ∧
        codec.marshal (.list elems) = b ∧ CanonicalFields elems) ∧
      ((∃ elems, codec.parse b = some (.list elems) ∧ codec.marshal (.list elems) = b ∧
          CanonicalFields elems) →
        t.hash = (t.computeHash (hashOf keccak256 codec)).hash) := by
  unfold Transaction.unmarshalRLP unmarshalWith at hdecode
  cases hparse : codec.parse b with
  | none =>
    rw [hparse] at hdecode
    cases hdecode
  | some v =>
    rw [hparse] at hdecode
    have hdecode : Transaction.unmarshalRLPFrom (fun _ => keccak256 b) v = .ok t :=
      Except.mapError_eq_ok_iff.mp hdecode
    have hhash : t.hash = keccak256 b := by
      obtain ⟨_, _, _, _, _, _, _, _, _, _, _, rfl⟩ := Transaction.unmarshalRLPFrom_eq_ok hdecode
      rfl
    have hfields : codec.marshal t.marshalRLPWith = b ↔ ∃ elems, some v = some (.list elems) ∧
        codec.marshal (.list elems) = b ∧ CanonicalFields elems := by
      have hiff := Transaction.marshalRLPWith_eq_iff hdecode
      constructor
      · intro heq
        have hback := codec.parse_marshal t.marshalRLPWith (by rw [heq]; exact hsize)
        rw [heq, hparse] at hback
        obtain ⟨elems, rfl, hcanonical⟩ := hiff.mp (Option.some.inj hback).symm
        rw [← Option.some.inj hback] at heq
        exact ⟨elems, rfl, heq, hcanonical⟩
      · rintro ⟨elems, hv, hmarshal, hcanonical⟩
        rw [hiff.mpr ⟨elems, Option.some.inj hv, hcanonical⟩, Option.some.inj hv, hmarshal]
    refine ⟨hhash, hfields, fun hcanonical => ?_⟩
    rw [hhash, ← hfields.mpr hcanonical]
    rfl

def zeroFields : List Value := List.replicate 9 (.bytes [])

def zeroTransaction (hash : Hash) : Transaction := ⟨0, 0, 0, none, 0, [], 0, 0, 0, hash, zeroAddress⟩

theorem marshalRLPWith_zeroTransaction (hash : Hash) :
    (zeroTransaction hash).marshalRLPWith = .list zeroFields := by
  simp [zeroTransaction, Transaction.marshalRLPWith, zeroFields, bigEndian]

theorem unmarshal_zeroFields (surplus : List Value) (keccak256 : Bytes → Hash)
    (hsize : (encode (.list (zeroFields ++ surplus))).length < maxLength) :
    Transaction.unmarshalRLP standard keccak256 (encode (.list (zeroFields ++ surplus))) =
      .ok (zeroTransaction (keccak256 (encode (.list (zeroFields ++ surplus))))) := by
  have hdecode : ∀ hash : Hash, Transaction.unmarshalRLPFrom (fun _ => hash)
      (.list (zeroFields ++ surplus)) = .ok (zeroTransaction hash) := by
    intro hash
    refine Except.bind_eq_ok_iff.mpr ⟨zeroFields ++ surplus, rfl, ?_⟩
    exact Except.ite_throw_bind_eq_ok_iff.mpr ⟨by simp [zeroFields], rfl⟩
  have hlength : (standard.marshal (.list (zeroFields ++ surplus))).length < maxLength := hsize
  exact unmarshalWith_marshal hlength (Except.mapError_eq_ok_iff.mpr (hdecode _))

theorem transaction_has_one_encoding_zeroFields :
    encode (zeroTransaction zeroHash).marshalRLPWith = encode (.list zeroFields) :=
  (transaction_has_one_encoding (by decide +kernel)
    (unmarshal_zeroFields [] (fun _ => zeroHash) (by decide +kernel))).2.1.mpr
    ⟨zeroFields, standard.parse_marshal (.list zeroFields) (by decide +kernel), rfl,
      .intro (by simp [Shortest]) (.inl rfl)⟩

theorem surplus_element_is_accepted :
    encode (.list zeroFields) ≠ encode (.list (zeroFields ++ [.bytes []])) ∧
      ∀ keccak256 : Bytes → Hash,
        ∃ t, Transaction.unmarshalRLP standard keccak256
            (encode (.list (zeroFields ++ [.bytes []]))) = .ok t ∧
          t.hash = keccak256 (encode (.list (zeroFields ++ [.bytes []]))) ∧
          encode t.marshalRLPWith = encode (.list zeroFields) ∧
          (t.computeHash (hashOf keccak256 standard)).hash = keccak256 (encode (.list zeroFields)) := by
  refine ⟨by decide +kernel, fun keccak256 => ?_⟩
  refine ⟨_, unmarshal_zeroFields [.bytes []] keccak256 (by decide +kernel), rfl, ?_, ?_⟩
  · rw [marshalRLPWith_zeroTransaction]
  · rw [Transaction.computeHash, marshalRLPWith_zeroTransaction]
    rfl

end OneEncoding

end Nxchain
