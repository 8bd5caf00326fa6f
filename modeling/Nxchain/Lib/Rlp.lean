import Mathlib.Data.Nat.Digits.Lemmas

namespace Rlp

inductive Value where
  | bytes (b : List UInt8)
  | list (vs : List Value)

inductive Error where
  | malformed
  | noBytes
  | noArray
  | badLength (expected found : Nat)
  | tooLong (found : Nat)
deriving DecidableEq

namespace Value

def getBytes : Value → Except Error (List UInt8)
  | bytes b => .ok b
  | list _ => .error .noBytes

def getElems : Value → Except Error (List Value)
  | bytes _ => .error .noArray
  | list vs => .ok vs

theorem getElems_eq_ok_iff {v : Value} {vs : List Value} : v.getElems = .ok vs ↔ v = list vs := by
  cases v <;> simp [getElems]

def getFixed (n : Nat) : Value → Except Error { b : List UInt8 // b.length = n }
  | bytes b => if h : b.length = n then .ok ⟨b, h⟩ else .error (.badLength n b.length)
  | list _ => .error .noBytes

end Value

def maxLength : Nat := 2 ^ 63

structure Codec where
  marshal : Value → List UInt8
  parse : List UInt8 → Option Value
  parse_marshal : ∀ v, (marshal v).length < maxLength → parse (marshal v) = some v

def bigEndian (n : Nat) : List UInt8 := ((Nat.digits 256 n).map UInt8.ofNat).reverse

def ofBigEndian (b : List UInt8) : Nat := Nat.ofDigits 256 (b.reverse.map UInt8.toNat)

@[simp]
theorem ofBigEndian_bigEndian (n : Nat) : ofBigEndian (bigEndian n) = n := by
  have hdigits : (Nat.digits 256 n).map (UInt8.toNat ∘ UInt8.ofNat) = Nat.digits 256 n := by
    rw [List.map_congr_left, List.map_id]
    intro d hd
    have hlt : d < 256 := Nat.digits_lt_base (by norm_num) hd
    simp only [Function.comp_apply, id_eq, UInt8.toNat_ofNat']
    omega
  rw [ofBigEndian, bigEndian, List.reverse_reverse, List.map_map, hdigits, Nat.ofDigits_digits]

theorem length_bigEndian_le {n k : Nat} (hn : n < 256 ^ k) : (bigEndian n).length ≤ k := by
  rw [bigEndian, List.length_reverse, List.length_map]
  exact Nat.digits_length_le_iff (by norm_num) n |>.mpr hn

theorem ofBigEndian_lt {b : List UInt8} {k : Nat} (hb : b.length ≤ k) : ofBigEndian b < 256 ^ k := by
  have hlt : ofBigEndian b < 256 ^ (b.reverse.map UInt8.toNat).length := by
    apply Nat.ofDigits_lt_base_pow_length (by norm_num)
    intro d hd
    obtain ⟨x, _, rfl⟩ := List.mem_map.mp hd
    exact x.toNat_lt
  rw [List.length_map, List.length_reverse] at hlt
  exact hlt.trans_le (Nat.pow_le_pow_right (by norm_num) hb)

theorem ofBigEndian_cons (x : UInt8) (b : List UInt8) :
    ofBigEndian (x :: b) = ofBigEndian b + 256 ^ b.length * x.toNat := by
  simp only [ofBigEndian, List.reverse_cons, List.map_append, Nat.ofDigits_append, List.length_map,
    List.length_reverse, List.map_cons, List.map_nil, Nat.ofDigits_singleton]

theorem bigEndian_ofBigEndian (b : List UInt8) : bigEndian (ofBigEndian b) = b.dropWhile (· == 0) := by
  induction b with
  | nil => rfl
  | cons x b ih =>
    by_cases hx : x = 0
    · rw [hx, ofBigEndian_cons, UInt8.toNat_zero, Nat.mul_zero, Nat.add_zero, ih]
      rfl
    · rw [List.dropWhile_cons_of_neg (by simpa using hx), bigEndian, ofBigEndian,
        Nat.digits_ofDigits 256 (by norm_num)]
      · simp [Function.comp_def]
      · intro d hd
        obtain ⟨y, _, rfl⟩ := List.mem_map.mp hd
        exact y.toNat_lt
      · intro hne hlast
        rw [List.getLast_map, List.getLast_reverse] at hlast
        exact hx (UInt8.toNat_inj.mp hlast)

theorem bigEndian_ofBigEndian_eq_self_iff {b : List UInt8} : bigEndian (ofBigEndian b) = b ↔ b.head? ≠ some 0 := by
  rw [bigEndian_ofBigEndian]
  cases b with
  | nil => simp
  | cons x b =>
    rw [List.head?_cons, ne_eq, Option.some.injEq]
    constructor
    · rintro h rfl
      have hsuffix : (0 :: b) <:+ b := by
        rw [← h, List.dropWhile_cons_of_pos rfl]
        exact List.dropWhile_suffix _
      exact absurd hsuffix.length_le (by simp)
    · intro hx
      exact List.dropWhile_cons_of_neg (by simpa using hx)

namespace Value

def getBigInt (v : Value) : Except Error Nat := v.getBytes.map ofBigEndian

def getUint64 (v : Value) : Except Error Nat := do
  let b ← v.getBytes
  if b.length > 8 then
    throw (.tooLong b.length)
  return ofBigEndian b

theorem getBytes_eq_ok_iff {v : Value} {b : List UInt8} : v.getBytes = .ok b ↔ v = bytes b := by
  cases v <;> simp [getBytes]

theorem getBigInt_eq_ok_iff {v : Value} {n : Nat} : v.getBigInt = .ok n ↔ ∃ b, v = bytes b ∧ ofBigEndian b = n := by
  cases v <;> simp [getBigInt, getBytes, Except.map]

theorem getUint64_eq_ok_iff {v : Value} {n : Nat} :
    v.getUint64 = .ok n ↔ ∃ b, v = bytes b ∧ b.length ≤ 8 ∧ ofBigEndian b = n := by
  cases v with
  | list vs => simp [getUint64, getBytes, bind, Except.bind]
  | bytes b =>
    by_cases hb : b.length ≤ 8
    · simp [getUint64, getBytes, hb, not_lt.mpr hb, bind, Except.bind, pure, Except.pure]
    · simp [getUint64, getBytes, hb, not_le.mp hb, bind, Except.bind, throw, throwThe, MonadExceptOf.throw]

@[simp]
theorem getBytes_bytes (b : List UInt8) : (bytes b).getBytes = .ok b := rfl

@[simp]
theorem getElems_list (vs : List Value) : (list vs).getElems = .ok vs := rfl

@[simp]
theorem getBigInt_bigEndian (n : Nat) : (bytes (bigEndian n)).getBigInt = .ok n :=
  congrArg Except.ok (ofBigEndian_bigEndian n)

theorem getUint64_bytes {b : List UInt8} (hb : b.length ≤ 8) : (bytes b).getUint64 = .ok (ofBigEndian b) := by
  simp [getUint64, not_lt.mpr hb, bind, Except.bind, pure, Except.pure]

theorem getUint64_bigEndian {n : Nat} (hn : n < 2 ^ 64) : (bytes (bigEndian n)).getUint64 = .ok n := by
  rw [getUint64_bytes (length_bigEndian_le (k := 8) hn), ofBigEndian_bigEndian]

end Value

def lengthPrefix (offset len : Nat) : List UInt8 :=
  if len ≤ 55 then [UInt8.ofNat (offset + len)]
  else UInt8.ofNat (offset + 55 + (bigEndian len).length) :: bigEndian len

mutual

def encode : Value → List UInt8
  | .bytes b =>
    if b.length = 1 ∧ b.all (· < 128) then b else lengthPrefix 128 b.length ++ b
  | .list vs => lengthPrefix 192 (encodeAll vs).length ++ encodeAll vs

def encodeAll : List Value → List UInt8
  | [] => []
  | v :: vs => encode v ++ encodeAll vs

end

theorem length_lengthPrefix_le (offset : Nat) {len k : Nat} (hlen : len < 256 ^ k) :
    (lengthPrefix offset len).length ≤ k + 1 := by
  unfold lengthPrefix
  split_ifs
  · exact Nat.le_add_left 1 k
  · exact Nat.succ_le_succ (length_bigEndian_le hlen)

theorem length_encode_bytes_le {b : List UInt8} {k : Nat} (hb : b.length < 256 ^ k) :
    (encode (.bytes b)).length ≤ k + 1 + b.length := by
  unfold encode
  split_ifs
  · omega
  · rw [List.length_append]
    exact Nat.add_le_add_right (length_lengthPrefix_le 128 hb) _

theorem length_encode_list_le {vs : List Value} {k : Nat} (hvs : (encodeAll vs).length < 256 ^ k) :
    (encode (.list vs)).length ≤ k + 1 + (encodeAll vs).length := by
  rw [encode, List.length_append]
  exact Nat.add_le_add_right (length_lengthPrefix_le 192 hvs) _

def splitPayload (len : Nat) (b : List UInt8) : Option (List UInt8 × List UInt8) :=
  if len ≤ b.length then some (b.take len, b.drop len) else none

def payload (tag : Nat) (b : List UInt8) : Option (List UInt8 × List UInt8) :=
  if tag ≤ 55 then splitPayload tag b
  else
    (splitPayload (tag - 55) b).bind fun (size, rest) => splitPayload (ofBigEndian size) rest

mutual

def decodeOne : Nat → List UInt8 → Option (Value × List UInt8)
  | 0, _ => none
  | _ + 1, [] => none
  | fuel + 1, b :: rest =>
    if b.toNat < 128 then some (.bytes [b], rest)
    else if b.toNat < 192 then
      (payload (b.toNat - 128) rest).map fun (content, rest) => (.bytes content, rest)
    else
      (payload (b.toNat - 192) rest).bind fun (content, rest) =>
        (decodeAll fuel content).map fun vs => (.list vs, rest)

def decodeAll : Nat → List UInt8 → Option (List Value)
  | 0, _ => none
  | _ + 1, [] => some []
  | fuel + 1, b :: rest =>
    (decodeOne fuel (b :: rest)).bind fun (v, rest) =>
      (decodeAll fuel rest).map fun vs => v :: vs

end

def decode (b : List UInt8) : Option Value :=
  match decodeOne (2 * b.length) b with
  | some (v, []) => some v
  | _ => none

theorem splitPayload_append (content rest : List UInt8) :
    splitPayload content.length (content ++ rest) = some (content, rest) := by
  simp [splitPayload]

theorem lengthPrefix_spec (offset : Nat) (content : List UInt8) (hlen : content.length < maxLength) :
    ∃ tag size, tag < 64 ∧ lengthPrefix offset content.length = UInt8.ofNat (offset + tag) :: size
      ∧ ∀ rest, payload tag (size ++ (content ++ rest)) = some (content, rest) := by
  by_cases hshort : content.length ≤ 55
  · refine ⟨content.length, [], by omega, by rw [lengthPrefix, if_pos hshort], ?_⟩
    intro rest
    rw [payload, if_pos hshort, List.nil_append, splitPayload_append]
  · have hle : (bigEndian content.length).length ≤ 8 := length_bigEndian_le (hlen.trans (by norm_num [maxLength]))
    have hpos : 0 < (bigEndian content.length).length := by
      rw [List.length_pos_iff]
      intro hnil
      have hzero := ofBigEndian_bigEndian content.length
      rw [hnil] at hzero
      simp [ofBigEndian] at hzero
      omega
    refine ⟨55 + (bigEndian content.length).length, bigEndian content.length, by omega, ?_, ?_⟩
    · rw [lengthPrefix, if_neg hshort, Nat.add_assoc]
    · intro rest
      rw [payload, if_neg (by omega), Nat.add_sub_cancel_left]
      simp only [Option.bind_some, ofBigEndian_bigEndian, splitPayload_append]

theorem encode_ne_nil (v : Value) : encode v ≠ [] := by
  cases v with
  | bytes b =>
    rw [encode]
    split
    · rename_i hone
      exact List.ne_nil_of_length_eq_add_one hone.1
    · rw [lengthPrefix]
      split <;> simp
  | list vs =>
    rw [encode, lengthPrefix]
    split <;> simp

theorem toNat_ofNat_tag (offset : Nat) {tag : Nat} (hoffset : offset ≤ 192) (htag : tag < 64) :
    (UInt8.ofNat (offset + tag)).toNat = offset + tag := by
  rw [UInt8.toNat_ofNat']
  omega

mutual

theorem decodeOne_encode (v : Value) (fuel : Nat) (rest : List UInt8) (hlen : (encode v).length < maxLength)
    (hfuel : 2 * (encode v).length ≤ fuel) : decodeOne fuel (encode v ++ rest) = some (v, rest) := by
  have hpos : 0 < (encode v).length := List.length_pos_iff.mpr (encode_ne_nil v)
  obtain ⟨fuel, rfl⟩ : ∃ k, fuel = k + 1 := ⟨fuel - 1, by omega⟩
  match v with
  | .bytes b =>
    rw [encode] at hlen ⊢
    by_cases hone : b.length = 1 ∧ b.all (· < 128)
    · obtain ⟨x, rfl⟩ := List.length_eq_one_iff.mp hone.1
      have hx : x.toNat < 128 := by simpa [UInt8.lt_iff_toNat_lt] using hone.2
      rw [if_pos hone, List.singleton_append, decodeOne, if_pos hx]
    · rw [if_neg hone] at hlen ⊢
      rw [List.length_append] at hlen
      obtain ⟨tag, size, htag, hbytes, hpayload⟩ := lengthPrefix_spec 128 b (by omega)
      have htoNat := toNat_ofNat_tag 128 (by norm_num) htag
      rw [hbytes, List.append_assoc, List.cons_append, decodeOne, if_neg (by omega),
        if_pos (by omega), htoNat, Nat.add_sub_cancel_left, hpayload]
      rfl
  | .list vs =>
    rw [encode] at hlen hfuel hpos ⊢
    rw [List.length_append] at hlen hfuel
    obtain ⟨tag, size, htag, hbytes, hpayload⟩ := lengthPrefix_spec 192 (encodeAll vs) (by omega)
    have htoNat := toNat_ofNat_tag 192 le_rfl htag
    have hcontent := decodeAll_encodeAll vs fuel (by omega) (by
      rw [hbytes, List.length_cons] at hfuel
      omega)
    rw [hbytes, List.append_assoc, List.cons_append, decodeOne, if_neg (by omega),
      if_neg (by omega), htoNat, Nat.add_sub_cancel_left, hpayload]
    simp only [Option.bind_some, hcontent, Option.map_some]

theorem decodeAll_encodeAll (vs : List Value) (fuel : Nat) (hlen : (encodeAll vs).length < maxLength)
    (hfuel : 2 * (encodeAll vs).length < fuel) : decodeAll fuel (encodeAll vs) = some vs := by
  obtain ⟨fuel, rfl⟩ : ∃ k, fuel = k + 1 := ⟨fuel - 1, by omega⟩
  match vs with
  | [] => rfl
  | v :: vs =>
    rw [encodeAll] at hlen hfuel ⊢
    rw [List.length_append] at hlen hfuel
    have hpos : 0 < (encode v).length := List.length_pos_iff.mpr (encode_ne_nil v)
    have hfirst := decodeOne_encode v fuel (encodeAll vs) (by omega) (by omega)
    have hrest := decodeAll_encodeAll vs fuel (by omega) (by omega)
    obtain ⟨x, tail, hcons⟩ := List.exists_cons_of_ne_nil (encode_ne_nil v)
    rw [hcons, List.cons_append] at hfirst ⊢
    simp only [decodeAll, hfirst, Option.bind_some, hrest, Option.map_some]

end

def standard : Codec where
  marshal := encode
  parse := decode
  parse_marshal := by
    intro v hlen
    have hone := decodeOne_encode v (2 * (encode v).length) [] hlen le_rfl
    rw [List.append_nil] at hone
    rw [decode, hone]

end Rlp
