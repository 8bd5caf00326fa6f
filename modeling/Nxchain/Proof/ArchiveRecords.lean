import Nxchain.Archive
import Nxchain.Proof.RoundTrip

namespace Nxchain.Archive

open Rlp (ofBigEndian bigEndian maxLength)

def announced : Bytes → Except Error (Nat × Nat)
  | [] => .error .eof
  | tag :: tail =>
    if tag.toNat < 192 then .error .expectedArray
    else if tag.toNat ≤ 247 then .ok (1, tag.toNat - 192)
    else if tail.length < tag.toNat - 247 then .error .eof
    else .ok (tag.toNat - 247 + 1, ofBigEndian (tail.take (tag.toNat - 247)))

theorem announced_bounds {rest : Bytes} {header payload : Nat} (h : announced rest = .ok (header, payload)) :
    0 < header ∧ header ≤ 9 ∧ header ≤ rest.length ∧ payload < 2 ^ 64 := by
  unfold announced at h
  split at h
  · cases h
  · rename_i tag tail
    have htag := tag.toNat_lt
    have hvalue : ofBigEndian (tail.take (tag.toNat - 247)) < 256 ^ 8 :=
      Rlp.ofBigEndian_lt (by rw [List.length_take]; omega)
    split_ifs at h with hlow hshort hcut <;> cases h <;> rw [List.length_cons] <;> omega

namespace Reader

variable {r : Reader} {i n header payload : Nat}

def Fills (r : Reader) (i n : Nat) : Prop := n ≤ max 1 (r.limit (r.reads + i) n)

instance (r : Reader) (i n : Nat) : Decidable (r.Fills i n) := Nat.decLe _ _

def announced (r : Reader) : Except Error (Nat × Nat) := do
  let (header, payload) ← Archive.announced r.rest
  if r.Fills 1 (header - 1) then return (header, payload) else throw .eof

theorem announced_eq_ok_iff : r.announced = .ok (header, payload) ↔
    Archive.announced r.rest = .ok (header, payload) ∧ r.Fills 1 (header - 1) := by
  unfold announced
  cases hfound : Archive.announced r.rest with
  | error e => simp [bind, Except.bind]
  | ok x =>
    obtain ⟨header', payload'⟩ := x
    rw [Except.ok_bind]
    by_cases hfills : r.Fills 1 (header' - 1)
    · simp only [if_pos hfills, pure, Except.pure, Except.ok.injEq, Prod.mk.injEq]
      exact ⟨fun h => ⟨h, h.1 ▸ hfills⟩, fun h => h.1⟩
    · simp only [if_neg hfills, throw, throwThe, MonadExceptOf.throw, reduceCtorEq, Except.ok.injEq,
        Prod.mk.injEq, false_iff]
      rintro ⟨⟨rfl, rfl⟩, h⟩
      exact hfills h

def Safe (r : Reader) : Prop := ∀ header payload, r.announced = .ok (header, payload) →
  header + payload < maxLength ∧
    (r.rest.length ≤ header ∨ header + payload ≤ r.rest.length ∧ r.Fills (min header 2) payload)

def Filled (r : Reader) : Prop := ∀ header payload, Archive.announced r.rest = .ok (header, payload) →
  r.Fills 1 (header - 1) ∧ r.Fills (min header 2) payload

instance (r : Reader) : Decidable r.Filled :=
  decidable_of_iff (∀ size ∈ (Archive.announced r.rest).toOption,
      r.Fills 1 (size.1 - 1) ∧ r.Fills (min size.1 2) size.2) (by
    simp only [Option.mem_def, Except.toOption_eq_some_iff, Prod.forall, Filled])

theorem read_of_ne_nil (hn : n ≠ 0) (hrest : r.rest ≠ []) :
    ∃ count, 0 < count ∧ count ≤ n ∧ (r.Fills 0 n ↔ count = n) ∧
      r.read n = some (r.rest.take count, ⟨r.rest.drop count, r.reads + 1, r.limit⟩) := by
  refine ⟨max 1 (min (r.limit r.reads n) n), by omega, by omega, ?_, ?_⟩
  · rw [Fills, Nat.add_zero]
    omega
  · rw [read, if_neg hn, if_neg hrest]

end Reader

namespace BlockStream

variable {b : BlockStream} {r : Reader} {lo hi size i : Nat}

variable {tag : UInt8} {tail : Bytes}

structure Loaded (r : Reader) (i size : Nat) (b : BlockStream) : Prop where
  input_eq : b.input = ⟨r.rest.drop size, r.reads + i, r.limit⟩
  capacity : 1024 ≤ b.buffer.length
  bounded : b.buffer.length < maxLength
  size_le : size ≤ r.rest.length
  loaded : b.buffer.take size = r.rest.take size

theorem Loaded.size_le_capacity (h : Loaded r i size b) : size ≤ b.buffer.length := by
  have hlen := congrArg List.length h.loaded
  have hle := h.size_le
  simp only [List.length_take] at hlen
  omega

section

variable (h : Loaded r i lo b)

include h

theorem Loaded.readInto (hlo : lo ≤ hi) (hhi : hi ≤ b.buffer.length) (hread : hi ≤ r.rest.length)
    (hfills : r.Fills i (hi - lo)) :
    ∃ b', b.readInto lo hi = .ok (hi - lo, b') ∧ Loaded r (i + 1) hi b' := by
  have hinput : b.input.read (hi - lo) =
      some ((r.rest.drop lo).take (hi - lo), ⟨r.rest.drop hi, r.reads + (i + 1), r.limit⟩) := by
    rw [h.input_eq]
    by_cases hzero : hi - lo = 0
    · obtain rfl : lo = hi := by omega
      rw [hzero]
      rfl
    · have hrest : r.rest.drop lo ≠ [] := by
        rw [ne_eq, List.drop_eq_nil_iff]
        omega
      obtain ⟨count, -, -, hcount, hgot⟩ :=
        Reader.read_of_ne_nil (r := ⟨r.rest.drop lo, r.reads + i, r.limit⟩) hzero hrest
      rw [hgot, hcount.mp hfills, List.drop_drop, Nat.add_sub_cancel' hlo]
      rfl
  have hlen : ((r.rest.drop lo).take (hi - lo)).length = hi - lo := by
    rw [List.length_take, List.length_drop]
    omega
  have hend : lo + ((r.rest.drop lo).take (hi - lo)).length = hi := by omega
  have hloaded := Slice.take_copyTo (hlo.trans hhi) ((r.rest.drop lo).take (hi - lo))
  rw [hend, h.loaded, ← List.take_add, Nat.add_sub_cancel' hlo] at hloaded
  have hcapacity : (Slice.copyTo b.buffer lo ((r.rest.drop lo).take (hi - lo))).length = b.buffer.length :=
    Slice.length_copyTo (hend.le.trans hhi)
  refine ⟨⟨_, Slice.copyTo b.buffer lo ((r.rest.drop lo).take (hi - lo))⟩, ?_, rfl, hcapacity ▸ h.capacity,
    hcapacity ▸ h.bounded, hread, hloaded⟩
  rw [BlockStream.readInto, if_pos ⟨hlo, hhi⟩, hinput]
  dsimp only
  rw [hlen]

theorem Loaded.readInto_eof (hlo : lo < hi) (hhi : hi ≤ b.buffer.length) (hread : r.rest.length ≤ lo) :
    b.readInto lo hi = .error (.error .eof) := by
  have hrest : b.input.rest = [] := by
    rw [h.input_eq]
    exact List.drop_of_length_le hread
  rw [BlockStream.readInto, if_pos ⟨hlo.le, hhi⟩, Reader.read, if_neg (by omega), if_pos hrest]

theorem Loaded.readInto_cut (hlo : lo < hi) (hhi : hi ≤ b.buffer.length) (hsome : lo < r.rest.length)
    (hcut : r.rest.length < hi ∨ ¬ r.Fills i (hi - lo)) :
    ∃ n b', n < hi - lo ∧ b.readInto lo hi = .ok (n, b') ∧ r.rest.length < hi + b'.input.rest.length := by
  have hrest : r.rest.drop lo ≠ [] := by
    rw [ne_eq, List.drop_eq_nil_iff]
    omega
  obtain ⟨count, -, hle, hcount, hgot⟩ :=
    Reader.read_of_ne_nil (r := ⟨r.rest.drop lo, r.reads + i, r.limit⟩) (n := hi - lo) (by omega) hrest
  have hshort : r.rest.length < hi ∨ count < hi - lo := by
    refine hcut.imp_right fun hnot => lt_of_le_of_ne hle fun heq => hnot (hcount.mpr heq)
  refine ⟨_, _, ?_, by rw [BlockStream.readInto, if_pos ⟨hlo.le, hhi⟩, h.input_eq, hgot], ?_⟩
  · rw [List.length_take, List.length_drop]
    omega
  · simp only [List.length_drop]
    omega

theorem Loaded.reserveCap (hsize : size < maxLength) :
    ∃ b', b.reserveCap size = .ok b' ∧ Loaded r i lo b' ∧ size ≤ b'.buffer.length := by
  have hbounded := h.bounded
  have hmax : maxLength = 2 ^ 63 := rfl
  have hdiff : asInt64 (asInt64 size - b.buffer.length) = (size : Int) - b.buffer.length := by
    have hword : asInt64 size = size := asInt64_eq (by omega) (by omega)
    rw [hword, asInt64_eq (by omega) (by omega)]
  simp only [BlockStream.reserveCap, hdiff]
  by_cases hgrow : (size : Int) - b.buffer.length > 0
  · rw [if_pos hgrow, if_pos (by omega)]
    have hlen : (b.buffer ++ List.replicate ((size : Int) - b.buffer.length).toNat 0).length = size := by
      rw [List.length_append, List.length_replicate]
      omega
    refine ⟨_, rfl, ⟨h.input_eq, ?_, hlen.trans_lt hsize, h.size_le, ?_⟩, hlen.ge⟩
    · have hcapacity := h.capacity
      exact le_trans (by omega) hlen.ge
    · rw [List.take_append_of_le_length h.size_le_capacity, h.loaded]
  · rw [if_neg hgrow, if_pos (by omega)]
    exact ⟨b, rfl, h, by omega⟩

theorem Loaded.reserveCap_panics (hlow : maxLength ≤ size) (hhigh : size < 2 ^ 64) :
    b.reserveCap size = .error (.panic .indexOutOfRange) := by
  have hbounded := h.bounded
  have hmax : maxLength = 2 ^ 63 := rfl
  have hword : asInt64 size = (size : Int) - 2 ^ 64 := by
    have hmod := Int.bmod_def (size : Int) (2 ^ 64)
    rw [asInt64]
    omega
  have hdiff := Int.bmod_def ((size : Int) - 2 ^ 64 - b.buffer.length) (2 ^ 64)
  simp only [BlockStream.reserveCap, hword]
  rw [asInt64]
  by_cases hwraps : (size : Int) - 2 ^ 64 - b.buffer.length < -2 ^ 63
  · rw [if_pos (by omega), if_neg (by omega)]
  · rw [if_neg (by omega), if_neg (by omega)]

end

theorem Loaded.loadRLPPrefix (h : Loaded r 0 0 b) (hrest : r.rest = tag :: tail) :
    ∃ b', b.loadRLPPrefix = .ok (tag, b') ∧ Loaded r 1 1 b' := by
  have hcapacity := h.capacity
  obtain ⟨b', hread, hloaded⟩ := h.readInto (Nat.zero_le 1) (by omega) (by rw [hrest]; simp)
    (Nat.le_max_left 1 _)
  have htag : b'.buffer.getD 0 0 = tag := by
    have htake := hloaded.loaded
    rw [hrest] at htake
    cases hbuffer : b'.buffer with
    | nil => simp [hbuffer] at htake
    | cons x xs =>
      rw [hbuffer] at htake
      simpa using htake
  refine ⟨b', ?_, hloaded⟩
  rw [BlockStream.loadRLPPrefix, hread, Except.ok_bind]
  dsimp only
  rw [htag]
  rfl

theorem loadRLPPrefix_eof (h : Loaded r 0 0 b) (hrest : r.rest = []) :
    b.loadRLPPrefix = .error (.error .eof) := by
  have hcapacity := h.capacity
  rw [BlockStream.loadRLPPrefix, h.readInto_eof (by decide) (by omega) (by rw [hrest]; rfl)]
  rfl

theorem ofBigEndian_word {bytes : Bytes} (hbytes : bytes.length ≤ 8) :
    (asInt64 (ofBigEndian bytes) % 2 ^ 64).toNat = ofBigEndian bytes := by
  have hlt : ofBigEndian bytes < 256 ^ 8 := Rlp.ofBigEndian_lt hbytes
  have hmod : asInt64 (ofBigEndian bytes) % 2 ^ 64 = (ofBigEndian bytes : Int) % 2 ^ 64 := Int.bmod_emod
  omega

def Finds (r : Reader) (x : Except (Fault Error) (Nat × Nat × BlockStream)) :
    Except Error (Nat × Nat) → Prop
  | .error e => x = .error (.error e)
  | .ok (header, payload) => ∃ b, x = .ok (header, payload, b) ∧ Loaded r (min header 2) header b

theorem array_iff (tag : UInt8) : (tag ≥ 0xc0 ∧ tag ≤ 0xf7) ↔ 192 ≤ tag.toNat ∧ tag.toNat ≤ 247 := by
  simp [UInt8.le_iff_toNat_le]

theorem longArray_iff (tag : UInt8) : tag ≥ 0xf8 ↔ 248 ≤ tag.toNat := by
  simp [UInt8.le_iff_toNat_le]

theorem toNat_tag_sub {offset : UInt8} (h : offset.toNat ≤ tag.toNat) :
    (tag - offset).toNat = tag.toNat - offset.toNat :=
  UInt8.toNat_sub_of_le _ _ (UInt8.le_iff_toNat_le.mpr h)

theorem Loaded.loadLength (h : Loaded r 1 1 b) (hrest : r.rest = tag :: tail) (htag : 247 < tag.toNat) :
    Finds r (b.loadPrefixSize 1 tag) r.announced := by
  have hlt := tag.toNat_lt
  have hlen : r.rest.length = tail.length + 1 := by rw [hrest, List.length_cons]
  have hnarray : ¬ (tag ≥ 0xc0 ∧ tag ≤ 0xf7) := mt (array_iff tag).mp (by omega)
  have hsize : (tag - 0xf7).toNat = tag.toNat - 247 := toNat_tag_sub htag.le
  obtain ⟨k, hk⟩ : ∃ k, tag.toNat - 247 = k := ⟨_, rfl⟩
  have hmax : 1 + k < maxLength := lt_trans (show 1 + k < 2 ^ 62 by omega) (by decide)
  obtain ⟨b₁, hreserve, h₁, hcapacity⟩ := h.reserveCap hmax
  rw [Reader.announced, hrest, Archive.announced, if_neg (by omega), if_neg (by omega),
    BlockStream.loadPrefixSize, if_neg hnarray, if_pos ((longArray_iff tag).mpr htag), hsize, hk]
  dsimp only
  rw [hreserve, Except.ok_bind]
  by_cases hcut : tail.length < k
  · rw [if_pos hcut]
    by_cases hnil : tail.length = 0
    · rw [h₁.readInto_eof (by omega) hcapacity (by omega)]
      exact rfl
    · obtain ⟨n, b₂, hn, hread, -⟩ :=
        h₁.readInto_cut (by omega) hcapacity (by omega) (.inl (by omega))
      rw [hread, Except.ok_bind]
      rw [if_pos (by omega)]
      exact rfl
  rw [if_neg hcut, Except.ok_bind]
  dsimp only
  rw [Nat.add_sub_cancel]
  by_cases hfills : r.Fills 1 k
  · obtain ⟨b₂, hread, h₂⟩ := h₁.readInto (Nat.le_add_right 1 k) hcapacity (by omega)
      (by rwa [Nat.add_sub_cancel_left])
    have hbytes : (b₂.buffer.drop 1).take k = tail.take k := by
      have htake := congrArg (List.drop 1) h₂.loaded
      rwa [List.drop_take, List.drop_take, Nat.add_sub_cancel_left, hrest] at htake
    have hword : (asInt64 (ofBigEndian (tail.take k)) % 2 ^ 64).toNat = ofBigEndian (tail.take k) :=
      ofBigEndian_word (by rw [List.length_take]; omega)
    rw [if_pos hfills, hread, Except.ok_bind]
    rw [if_neg (by omega), hbytes, hword]
    refine ⟨b₂, rfl, ?_⟩
    rwa [min_eq_right (by omega), Nat.add_comm k 1]
  · obtain ⟨n, b₂, hn, hread, -⟩ := h₁.readInto_cut (by omega) hcapacity (by omega)
      (.inr (by rwa [Nat.add_sub_cancel_left]))
    rw [if_neg hfills, hread, Except.ok_bind]
    rw [if_pos (by omega)]
    exact rfl

theorem Loaded.loadPrefixSize (h : Loaded r 1 1 b) (hrest : r.rest = tag :: tail) :
    Finds r (b.loadPrefixSize 1 tag) r.announced := by
  by_cases hlong : 247 < tag.toNat
  · exact h.loadLength hrest hlong
  rw [Reader.announced, hrest, Archive.announced, BlockStream.loadPrefixSize]
  by_cases hlow : tag.toNat < 192
  · have hnarray : ¬ (tag ≥ 0xc0 ∧ tag ≤ 0xf7) := mt (array_iff tag).mp (by omega)
    have hnlong : ¬ tag ≥ 0xf8 := mt (longArray_iff tag).mp (by omega)
    rw [if_pos hlow, if_neg hnarray, if_neg hnlong]
    exact rfl
  · have hsize : (tag - 0xc0).toNat = tag.toNat - 192 := toNat_tag_sub (Nat.le_of_not_lt hlow)
    have hfills : r.Fills 1 (1 - 1) := Nat.zero_le _
    rw [if_neg hlow, if_pos (Nat.le_of_not_lt hlong), if_pos ((array_iff tag).mpr (by omega)), hsize,
      Except.ok_bind]
    dsimp only
    rw [if_pos hfills]
    exact ⟨b, rfl, h⟩

section Payload

variable {header payload : Nat} (h : Loaded r i header b)

theorem word_add (hsize : header + payload < maxLength) :
    (header + payload) % 2 ^ 64 = header + payload :=
  Nat.mod_eq_of_lt (hsize.trans (by decide))

include h

theorem Loaded.loadPayload (hsize : header + payload < maxLength)
    (hle : header + payload ≤ r.rest.length) (hfills : r.Fills i payload) :
    ∃ b', b.loadPayload header payload = .ok b' ∧ Loaded r (i + 1) (header + payload) b' := by
  obtain ⟨b₁, hreserve, h₁, hcapacity⟩ := h.reserveCap hsize
  obtain ⟨b₂, hread, h₂⟩ := h₁.readInto (Nat.le_add_right _ _) hcapacity hle
    (by rwa [Nat.add_sub_cancel_left])
  refine ⟨b₂, ?_, h₂⟩
  rw [BlockStream.loadPayload, word_add hsize, hreserve, Except.ok_bind, hread]
  rfl

theorem Loaded.loadPayload_eof (hsize : header + payload < maxLength) (hpos : 0 < payload)
    (hnone : r.rest.length ≤ header) : b.loadPayload header payload = .error (.error .eof) := by
  obtain ⟨b₁, hreserve, h₁, hcapacity⟩ := h.reserveCap hsize
  rw [BlockStream.loadPayload, word_add hsize, hreserve, Except.ok_bind,
    h₁.readInto_eof (by omega) hcapacity hnone]
  rfl

theorem Loaded.loadPayload_cut (hsize : header + payload < maxLength)
    (hcut : ¬ (r.rest.length ≤ header ∨ header + payload ≤ r.rest.length ∧ r.Fills i payload)) :
    ∃ b', b.loadPayload header payload = .ok b' ∧
      r.rest.length < header + payload + b'.input.rest.length := by
  obtain ⟨b₁, hreserve, h₁, hcapacity⟩ := h.reserveCap hsize
  obtain ⟨hsome, hnot⟩ := not_or.mp hcut
  have hpos : 0 < payload := by
    refine Nat.pos_of_ne_zero fun hzero => hnot ⟨by omega, ?_⟩
    rw [hzero]
    exact Nat.zero_le _
  have hshort : r.rest.length < header + payload ∨ ¬ r.Fills i (header + payload - header) := by
    rw [Nat.add_sub_cancel_left]
    exact (not_and_or.mp hnot).imp_left Nat.lt_of_not_le
  obtain ⟨n, b₂, -, hread, hlt⟩ := h₁.readInto_cut (by omega) hcapacity (by omega) hshort
  refine ⟨b₂, ?_, hlt⟩
  rw [BlockStream.loadPayload, word_add hsize, hreserve, Except.ok_bind, hread]
  rfl

theorem Loaded.loadPayload_panics (hheader : header ≤ 9) (hpayload : payload < 2 ^ 64)
    (hsize : maxLength ≤ header + payload) :
    b.loadPayload header payload = .error (.panic .indexOutOfRange) := by
  have hmax : maxLength = 2 ^ 63 := rfl
  have hcapacity := h.capacity
  rw [BlockStream.loadPayload]
  by_cases hwraps : header + payload < 2 ^ 64
  · rw [Nat.mod_eq_of_lt hwraps, h.reserveCap_panics hsize hwraps]
    rfl
  · have hsmall : (header + payload) % 2 ^ 64 < header := by omega
    obtain ⟨b₁, hreserve, -, -⟩ := h.reserveCap (show (header + payload) % 2 ^ 64 < maxLength by omega)
    rw [hreserve, Except.ok_bind, BlockStream.readInto, if_neg (by omega)]
    rfl

end Payload

def Ready (b : BlockStream) : Prop := 1024 ≤ b.buffer.length ∧ b.buffer.length < maxLength

theorem Ready.loaded (h : Ready b) : Loaded b.input 0 0 b := ⟨rfl, h.1, h.2, Nat.zero_le _, rfl⟩

theorem ready_new (input : Reader) : Ready (.new input) := by
  rw [Ready, BlockStream.new, List.length_replicate]
  decide

structure Took (b : BlockStream) (size : Nat) (b' : BlockStream) : Prop where
  ready : Ready b'
  size_le : size ≤ b'.buffer.length
  own : b.input.rest = b'.buffer.take size ++ b'.input.rest

section Array

variable {header payload : Nat} (h : Ready b)

include h

theorem Ready.loadRLPArray_end (hrest : b.input.rest = []) : b.loadRLPArray = .ok (0, b) := by
  rw [BlockStream.loadRLPArray, loadRLPPrefix_eof h.loaded hrest]

theorem Ready.loadRLPArray_error {e : Error} (hne : b.input.rest ≠ [])
    (hfound : b.input.announced = .error e) : b.loadRLPArray = .error (.error e) := by
  obtain ⟨tag, tail, hrest⟩ := List.exists_cons_of_ne_nil hne
  obtain ⟨b₁, hprefix, h₁⟩ := h.loaded.loadRLPPrefix hrest
  have hfinds := h₁.loadPrefixSize hrest
  rw [hfound] at hfinds
  rw [BlockStream.loadRLPArray, hprefix]
  dsimp only
  rw [show b₁.loadPrefixSize 1 tag = .error (.error e) from hfinds]
  rfl

theorem Ready.loadRLPArray_eq (hfound : b.input.announced = .ok (header, payload)) :
    ∃ b', Loaded b.input (min header 2) header b' ∧ b.loadRLPArray = (b'.loadPayload header payload).map
      fun b => ((header + payload) % 2 ^ 64, b) := by
  have hne : b.input.rest ≠ [] := by
    intro hnil
    have hsize := (Reader.announced_eq_ok_iff.mp hfound).1
    rw [hnil] at hsize
    cases hsize
  obtain ⟨tag, tail, hrest⟩ := List.exists_cons_of_ne_nil hne
  obtain ⟨b₁, hprefix, h₁⟩ := h.loaded.loadRLPPrefix hrest
  have hfinds := h₁.loadPrefixSize hrest
  rw [hfound] at hfinds
  obtain ⟨b₂, hsize, h₂⟩ := hfinds
  refine ⟨b₂, h₂, ?_⟩
  rw [BlockStream.loadRLPArray, hprefix]
  dsimp only
  rw [hsize, Except.ok_bind]
  cases b₂.loadPayload header payload <;> rfl

theorem Ready.loadRLPArray_whole (hfound : b.input.announced = .ok (header, payload))
    (hsize : header + payload < maxLength) (hle : header + payload ≤ b.input.rest.length)
    (hfills : b.input.Fills (min header 2) payload) :
    ∃ b', b.loadRLPArray = .ok (header + payload, b') ∧ Took b (header + payload) b' := by
  obtain ⟨b₁, h₁, heq⟩ := h.loadRLPArray_eq hfound
  obtain ⟨b₂, hpayload, h₂⟩ := h₁.loadPayload hsize hle hfills
  refine ⟨b₂, ?_, ⟨h₂.capacity, h₂.bounded⟩, h₂.size_le_capacity, ?_⟩
  · rw [heq, hpayload, word_add hsize]
    rfl
  · rw [h₂.loaded, h₂.input_eq, List.take_append_drop]

theorem Ready.loadRLPArray (hsafe : b.input.Safe) : (∃ e, b.loadRLPArray = .error (.error e)) ∨
    ∃ size b', b.loadRLPArray = .ok (size, b') ∧ Took b size b' := by
  by_cases hnil : b.input.rest = []
  · exact .inr ⟨0, b, h.loadRLPArray_end hnil, h, Nat.zero_le _, rfl⟩
  cases hfound : b.input.announced with
  | error e => exact .inl ⟨e, h.loadRLPArray_error hnil hfound⟩
  | ok size =>
    obtain ⟨header, payload⟩ := size
    obtain ⟨hsize, hthere⟩ := hsafe header payload hfound
    by_cases hwhole : header + payload ≤ b.input.rest.length ∧ b.input.Fills (min header 2) payload
    · obtain ⟨b', hload, htook⟩ := h.loadRLPArray_whole hfound hsize hwhole.1 hwhole.2
      exact .inr ⟨_, b', hload, htook⟩
    · obtain ⟨b₁, h₁, heq⟩ := h.loadRLPArray_eq hfound
      have hpos : 0 < payload := by
        refine Nat.pos_of_ne_zero fun hzero => hwhole ⟨?_, hzero ▸ Nat.zero_le _⟩
        have hheader := h₁.size_le
        omega
      rw [heq, h₁.loadPayload_eof hsize hpos (hthere.resolve_right hwhole)]
      exact .inl ⟨.eof, rfl⟩

theorem Ready.loadRLPArray_of_not_safe (hnot : ¬ b.input.Safe) :
    b.loadRLPArray = .error (.panic .indexOutOfRange) ∨
      ∃ size b', b.loadRLPArray = .ok (size, b') ∧
        b.input.rest.length < size + b'.input.rest.length := by
  obtain ⟨header, hnot⟩ := not_forall.mp hnot
  obtain ⟨payload, hnot⟩ := not_forall.mp hnot
  obtain ⟨hfound, hnot⟩ := Classical.not_imp.mp hnot
  obtain ⟨-, hheader, -, hpayload⟩ := announced_bounds (Reader.announced_eq_ok_iff.mp hfound).1
  obtain ⟨b₁, h₁, heq⟩ := h.loadRLPArray_eq hfound
  rw [heq]
  by_cases hsize : header + payload < maxLength
  · obtain ⟨b₂, hcut, hlt⟩ := h₁.loadPayload_cut hsize fun hthere => hnot ⟨hsize, hthere⟩
    rw [hcut, word_add hsize]
    exact .inr ⟨_, b₂, rfl, hlt⟩
  · rw [h₁.loadPayload_panics hheader hpayload (Nat.le_of_not_lt hsize)]
    exact .inl rfl

end Array

def Own (b : BlockStream) : Prop := ∀ size b', b.loadRLPArray = .ok (size, b') →
  b.input.rest = b'.buffer.take size ++ b'.input.rest

theorem Took.own_of_load {b' : BlockStream} (h : Took b size b')
    (hload : b.loadRLPArray = .ok (size, b')) : b.Own := by
  intro size₁ b₁ hload₁
  cases hload.symm.trans hload₁
  exact h.own

end BlockStream

section Panics

variable {ε α : Type}

def Quiet {ε : Type} (f : Fault ε) : Prop := ∀ p, f ≠ .panic p

theorem quiet_error (e : ε) : Quiet (.error e) := fun _ => nofun

theorem Quiet.map {δ : Type} {g : ε → δ} {f : Fault ε} (h : Quiet f) : Quiet (f.map g) := by
  cases f with
  | error e => exact quiet_error (g e)
  | panic p => exact absurd rfl (h p)
  | outOfFuel => exact fun _ => nofun

theorem quiet_mapError {δ : Type} {g : ε → δ} (x : Except ε α) :
    Except.Errs Quiet (x.mapError fun e => Fault.error (g e)) :=
  Except.Errs.mapError fun e _ => quiet_error (g e)

variable {headerHash hashOf : Rlp.Value → Hash}

theorem quiet_header (v : Rlp.Value) : Except.Errs Quiet (Header.unmarshalRLPFrom (hashEncoded headerHash) v) := by
  refine (quiet_mapError _).bind fun elems => ?_
  split
  · exact .error (quiet_error _)
  · refine (quiet_mapError _).bind fun h => ?_
    exact .ok _

theorem quiet_block (v : Rlp.Value) :
    Except.Errs Quiet (Block.unmarshalRLPFrom (hashEncoded headerHash) hashOf v) := by
  refine (quiet_mapError _).bind fun elems => ?_
  split
  · refine (quiet_header _).bind fun header => ?_
    refine (quiet_mapError _).bind fun txns => ?_
    refine (Except.Errs.mapError fun e _ => quiet_error e).bind fun transactions => ?_
    refine (quiet_mapError _).bind fun uncles => ?_
    refine (Except.Errs.mapM quiet_header uncles).bind fun _ => ?_
    exact .ok _
  · exact .error (quiet_error _)

theorem quiet_unmarshalWith {codec : Rlp.Codec} {decode : Rlp.Value → Except (Fault DecodeError) α}
    (hdecode : ∀ v, Except.Errs Quiet (decode v)) (data : Bytes) :
    Except.Errs Quiet (unmarshalWith codec decode data) := by
  unfold unmarshalWith
  split
  · exact .error (quiet_error _)
  · exact hdecode _

end Panics

def Call {σ α : Type} (next : σ → Except (Fault Error) (Option α × σ)) (now later : σ → Prop) (s : σ) :
    Prop :=
  now s ∧ ∀ a s', next s = .ok (some a, s') → later s'

instance {σ α : Type} {next : σ → Except (Fault Error) (Option α × σ)} {now later : σ → Prop}
    [DecidablePred now] [DecidablePred later] : DecidablePred (Call next now later) := fun s =>
  decidable_of_iff (now s ∧ ∀ x ∈ (next s).toOption, x.1.isSome → later x.2) (by
    simp only [Option.mem_def, Except.toOption_eq_some_iff, Prod.forall, Option.isSome_iff_exists]
    grind [Call])

section Calls

variable {α : Type} {parse : Bytes → Except (Fault DecodeError) α} {b : BlockStream}

namespace BlockStream

theorem next_eq {size : Nat} {b' : BlockStream} (hload : b.loadRLPArray = .ok (size, b'))
    (hsize : size ≤ b'.buffer.length) : b.next parse = if size = 0 then .ok (none, b') else
      ((parse (b'.buffer.take size)).mapError (Fault.map .decode)).map fun a => (some a, b') := by
  rw [next, hload, Except.ok_bind]
  dsimp only
  rw [if_pos hsize]
  cases parse (b'.buffer.take size) <;> rfl

theorem Ready.own_iff (h : Ready b) (hparse : ∀ data, Except.Errs Quiet (parse data)) :
    b.Own ∧ Except.Errs Quiet (b.next parse) ↔ b.input.Safe := by
  constructor
  · rintro ⟨hown, hquiet⟩
    by_contra hnot
    obtain hpanic | ⟨size, b', hload, hlt⟩ := h.loadRLPArray_of_not_safe hnot
    · refine hquiet (.panic .indexOutOfRange) ?_ _ rfl
      rw [BlockStream.next, hpanic]
      rfl
    · have hlen := congrArg List.length (hown size b' hload)
      rw [List.length_append, List.length_take] at hlen
      have hover : ¬ size ≤ b'.buffer.length := by omega
      refine hquiet (.panic .indexOutOfRange) ?_ _ rfl
      rw [BlockStream.next, hload, Except.ok_bind]
      dsimp only
      rw [if_neg (by omega), if_neg hover]
      rfl
  · intro hsafe
    obtain ⟨e, hload⟩ | ⟨size, b', hload, htook⟩ := h.loadRLPArray hsafe
    · constructor
      · intro size b' hok
        cases hload.symm.trans hok
      · rw [BlockStream.next, hload]
        exact .error (quiet_error e)
    · refine ⟨htook.own_of_load hload, ?_⟩
      rw [next_eq hload htook.size_le]
      split_ifs
      · exact .ok _
      · exact (Except.Errs.mapError fun f hf => (hparse _ f hf).map).bind fun a => .ok _

theorem Ready.of_next (h : Ready b) (hsafe : b.input.Safe) {x : Option α} {b' : BlockStream}
    (hnext : b.next parse = .ok (x, b')) : Ready b' := by
  obtain ⟨e, hload⟩ | ⟨size, b₁, hload, htook⟩ := h.loadRLPArray hsafe
  · rw [BlockStream.next, hload] at hnext
    cases hnext
  · rw [next_eq hload htook.size_le] at hnext
    split_ifs at hnext
    · cases hnext
      exact htook.ready
    · obtain ⟨a, -, heq⟩ := Except.map_eq_ok_iff.mp hnext
      cases heq
      exact htook.ready

theorem Ready.calls_iff (h : Ready b) (hparse : ∀ data, Except.Errs Quiet (parse data))
    {own quiet safe : BlockStream → Prop} (hlater : ∀ b', Ready b' → (own b' ∧ quiet b' ↔ safe b')) :
    Call (next parse) Own own b ∧ Call (next parse) (fun b => Except.Errs Quiet (b.next parse)) quiet b ↔
      Call (next parse) (·.input.Safe) safe b := by
  constructor
  · rintro ⟨⟨hown, howns⟩, hquiet, hquiets⟩
    have hsafe := (h.own_iff hparse).mp ⟨hown, hquiet⟩
    refine ⟨hsafe, fun a b' hnext => ?_⟩
    exact (hlater b' (h.of_next hsafe hnext)).mp ⟨howns a b' hnext, hquiets a b' hnext⟩
  · rintro ⟨hsafe, hsafes⟩
    obtain ⟨hown, hquiet⟩ := (h.own_iff hparse).mpr hsafe
    have hboth := fun a b' hnext => (hlater b' (h.of_next hsafe hnext)).mpr (hsafes a b' hnext)
    exact ⟨⟨hown, fun a b' hnext => (hboth a b' hnext).1⟩, hquiet, fun a b' hnext => (hboth a b' hnext).2⟩

end BlockStream

end Calls

section Runs

variable {n : Nat} {σ α : Type} {next : σ → Except (Fault Error) (Option α × σ)} {P : σ → Prop} {Q : BlockStream → Prop} {s : σ}

def Throughout (next : σ → Except (Fault Error) (Option α × σ)) (P : σ → Prop) : Nat → σ → Prop
  | 0 => fun _ => True
  | n + 1 => Call next P (Throughout next P n)

instance decidableThroughout [DecidablePred P] : ∀ n, DecidablePred (Throughout next P n)
  | 0 => fun _ => .isTrue trivial
  | n + 1 =>
    have := decidableThroughout n
    inferInstanceAs (DecidablePred (Call next P (Throughout next P n)))

theorem collect_eq_cons_iff {a : α} {as : List α} {ending : Ending} :
    collect next (n + 1) s = (a :: as, ending) ↔
      ∃ s', next s = .ok (some a, s') ∧ collect next n s' = (as, ending) := by
  rw [collect]
  cases next s with
  | error f => simp
  | ok x =>
    obtain ⟨_ | a', s'⟩ := x
    · simp
    · simp [Prod.ext_iff, and_assoc]

theorem restoreWith_eq_iff {getMetadata : σ → Except (Fault Error) (Option Metadata × σ)}
    {nextBlock : σ → Except (Fault Error) (Option Block × σ)} {m : Metadata} {blocks : List Block}
    {ending : Ending} : restoreWith getMetadata nextBlock n s = ⟨some m, blocks, ending⟩ ↔
      ∃ s', getMetadata s = .ok (some m, s') ∧ collect nextBlock n s' = (blocks, ending) := by
  unfold restoreWith
  cases getMetadata s with
  | error f => simp
  | ok x =>
    obtain ⟨_ | m', s'⟩ := x
    · simp
    · simp [Prod.ext_iff]

theorem collect_quiet_iff : (∀ p, (collect next (n + 1) s).2 ≠ .fault (.panic p)) ↔
    Call next (fun s => Except.Errs Quiet (next s))
      (fun s => ∀ p, (collect next n s).2 ≠ .fault (.panic p)) s := by
  rw [collect, Call]
  cases next s with
  | error f => simp [Except.Errs, Quiet]
  | ok x => obtain ⟨_ | a, s'⟩ := x <;> simp [Except.Errs]

theorem restoreWith_quiet_iff {getMetadata : σ → Except (Fault Error) (Option Metadata × σ)}
    {nextBlock : σ → Except (Fault Error) (Option Block × σ)} :
    (∀ p, (restoreWith getMetadata nextBlock n s).ending ≠ .fault (.panic p)) ↔
      Call getMetadata (fun s => Except.Errs Quiet (getMetadata s))
        (fun s => ∀ p, (collect nextBlock n s).2 ≠ .fault (.panic p)) s := by
  rw [restoreWith, Call]
  cases getMetadata s with
  | error f => simp [Except.Errs, Quiet]
  | ok x => obtain ⟨_ | a, s'⟩ := x <;> simp [Except.Errs]

def AtEachCall (d : Decoders) (P : BlockStream → Prop) (n : Nat) (input : Reader) : Prop :=
  Call (BlockStream.getMetadata d) P (Throughout (BlockStream.nextBlock d) P n) (.new input)

instance (d : Decoders) [DecidablePred Q] (input : Reader) : Decidable (AtEachCall d Q n input) :=
  inferInstanceAs (Decidable (Call _ _ _ _))

section Safe

variable {d : Decoders} (hblock : ∀ data, Except.Errs Quiet (d.parseBlock data))

include hblock

theorem throughout_safe_iff {b : BlockStream} (h : b.Ready) :
    Throughout (BlockStream.nextBlock d) BlockStream.Own n b ∧
        (∀ p, (collect (BlockStream.nextBlock d) n b).2 ≠ .fault (.panic p)) ↔
      Throughout (BlockStream.nextBlock d) (·.input.Safe) n b := by
  induction n generalizing b with
  | zero => exact iff_of_true ⟨trivial, fun _ => Ending.noConfusion⟩ trivial
  | succ n ih =>
    rw [collect_quiet_iff]
    exact h.calls_iff hblock fun b' h' => ih h'

theorem atEachCall_safe_iff (hmetadata : ∀ data, Except.Errs Quiet (d.parseMetadata data)) (input : Reader) :
    AtEachCall d BlockStream.Own n input ∧ (∀ p, (restore d n input).ending ≠ .fault (.panic p)) ↔
      AtEachCall d (·.input.Safe) n input := by
  rw [restore, restoreWith_quiet_iff]
  exact (BlockStream.ready_new input).calls_iff hmetadata fun b' h' => throughout_safe_iff hblock h'

end Safe

end Runs

section WellFormed

open Rlp (encode encodeAll Value)

theorem announced_encode {vs : List Value} (hlen : (encode (.list vs)).length < maxLength) (tail : Bytes) :
    ∃ header payload, announced (encode (.list vs) ++ tail) = .ok (header, payload) ∧
      header + payload = (encode (.list vs)).length := by
  rw [encode, List.length_append] at hlen ⊢
  rw [List.append_assoc]
  generalize encodeAll vs = content at hlen ⊢
  unfold Rlp.lengthPrefix at hlen ⊢
  by_cases hshort : content.length ≤ 55
  · have htag := Rlp.toNat_ofNat_tag 192 le_rfl (show content.length < 64 by omega)
    refine ⟨1, content.length, ?_, by rw [if_pos hshort]; rfl⟩
    rw [if_pos hshort, List.singleton_append, announced, htag, if_neg (by omega), if_pos (by omega),
      Nat.add_sub_cancel_left]
  · rw [if_neg hshort] at hlen ⊢
    have hle : (bigEndian content.length).length ≤ 8 :=
      Rlp.length_bigEndian_le (lt_trans (by omega) (show maxLength < 256 ^ 8 by decide))
    have hne : bigEndian content.length ≠ [] := by
      intro hnil
      have hzero : content.length = ofBigEndian [] := hnil ▸ (Rlp.ofBigEndian_bigEndian _).symm
      have : ofBigEndian [] = 0 := rfl
      omega
    have hpos := List.length_pos_iff.mpr hne
    generalize hsize : bigEndian content.length = size at hlen hle hpos ⊢
    have htag := Rlp.toNat_ofNat_tag 192 le_rfl (show 55 + size.length < 64 by omega)
    rw [← Nat.add_assoc] at htag
    refine ⟨size.length + 1, content.length, ?_, rfl⟩
    have hk : 192 + 55 + size.length - 247 = size.length := by omega
    rw [List.cons_append, announced, htag, if_neg (by omega), if_neg (by omega), hk,
      if_neg (by simp), List.take_left, ← hsize, Rlp.ofBigEndian_bigEndian]

def IsArray (v : Value) : Prop := ∃ vs, v = .list vs

section Written

variable {α β : Type} {parse : Bytes → Except (Fault DecodeError) α} {a : α} {v : Value} {tail : Bytes}
  {b : BlockStream}

section

variable (h : b.Ready) (hv : IsArray v) (hlen : (encode v).length < maxLength)
  (hrest : b.input.rest = encode v ++ tail)

include h hv hlen hrest

theorem BlockStream.Ready.next_written (hparse : parse (encode v) = .ok a)
    (hfilled : b.input.Filled) :
    b.Own ∧ ∃ b', b.next parse = .ok (some a, b') ∧ Ready b' ∧ b'.input.rest = tail := by
  obtain ⟨vs, rfl⟩ := hv
  obtain ⟨header, payload, hannounced, hsize⟩ := announced_encode hlen tail
  rw [← hrest] at hannounced
  obtain ⟨hlength, hpayload⟩ := hfilled header payload hannounced
  have hle : header + payload ≤ b.input.rest.length := by
    rw [hrest, List.length_append]
    omega
  obtain ⟨b', hload, htook⟩ := h.loadRLPArray_whole
    (Reader.announced_eq_ok_iff.mpr ⟨hannounced, hlength⟩) (hsize.trans_lt hlen) hle hpayload
  have hown := htook.own
  rw [hrest] at hown
  obtain ⟨hdata, htail⟩ := List.append_inj hown
    (by rw [List.length_take, ← hsize, min_eq_left htook.size_le])
  obtain ⟨hpos, -⟩ := announced_bounds hannounced
  refine ⟨htook.own_of_load hload, b', ?_, htook.ready, htail.symm⟩
  rw [BlockStream.next_eq hload htook.size_le, if_neg (by omega), ← hdata, hparse]
  rfl

theorem BlockStream.Ready.filled_of_next (hparse : ∀ data, Except.Errs Quiet (parse data))
    (hown : b.Own) {b' : BlockStream} (hnext : b.next parse = .ok (some a, b')) :
    b.input.Filled := by
  have hsafe := (h.own_iff hparse).mp ⟨hown, hnext ▸ .ok _⟩
  obtain ⟨vs, rfl⟩ := hv
  obtain ⟨header, payload, hannounced, hsize⟩ := announced_encode hlen tail
  rw [← hrest] at hannounced
  intro header' payload' hsame
  cases hannounced.symm.trans hsame
  have hlength : b.input.Fills 1 (header - 1) := by
    -- a length that comes in pieces is an error
    by_contra hnot
    have hfound : b.input.announced = .error .eof := by
      rw [Reader.announced, hannounced, Except.ok_bind]
      exact if_neg hnot
    have hne : b.input.rest ≠ [] := by
      rw [hrest]
      exact List.append_ne_nil_of_left_ne_nil (Rlp.encode_ne_nil _) _
    rw [BlockStream.next, h.loadRLPArray_error hne hfound] at hnext
    cases hnext
  refine ⟨hlength, ?_⟩
  obtain hnone | ⟨-, hpayload⟩ :=
    (hsafe header payload (Reader.announced_eq_ok_iff.mpr ⟨hannounced, hlength⟩)).2
  · rw [hrest, List.length_append] at hnone
    rw [show payload = 0 by omega]
    exact Nat.zero_le _
  · exact hpayload

theorem BlockStream.Ready.written_iff (hquiet : ∀ data, Except.Errs Quiet (parse data))
    (hparse : parse (encode v) = .ok a) {returns own filled : BlockStream → Prop}
    (hlater : ∀ b', Ready b' → b'.input.rest = tail → (returns b' ∧ own b' ↔ filled b')) :
    (∃ b', b.next parse = .ok (some a, b') ∧ returns b') ∧ Call (next parse) Own own b ↔
      Call (next parse) (·.input.Filled) filled b := by
  constructor
  · rintro ⟨⟨b', hnext, hreturns⟩, hown, howns⟩
    have hfilled := h.filled_of_next hv hlen hrest hquiet hown hnext
    obtain ⟨-, b₁, hnext₁, h₁, hrest₁⟩ := h.next_written hv hlen hrest hparse hfilled
    cases hnext.symm.trans hnext₁
    refine ⟨hfilled, fun x b₂ hnext₂ => ?_⟩
    cases hnext.symm.trans hnext₂
    exact (hlater b' h₁ hrest₁).mp ⟨hreturns, howns a b' hnext⟩
  · rintro ⟨hfilled, hlaters⟩
    obtain ⟨hown, b', hnext, h', hrest'⟩ := h.next_written hv hlen hrest hparse hfilled
    obtain ⟨hreturns, howns⟩ := (hlater b' h' hrest').mpr (hlaters a b' hnext)
    refine ⟨⟨b', hnext, hreturns⟩, hown, fun x b₁ hnext₁ => ?_⟩
    cases hnext.symm.trans hnext₁
    exact howns

end

theorem throughout_written_iff {value : β → Value} {received : β → α} (hvalue : ∀ x, IsArray (value x))
    (hquiet : ∀ data, Except.Errs Quiet (parse data)) {xs : List β}
    (hxs : ∀ x ∈ xs, (encode (value x)).length < maxLength ∧ parse (encode (value x)) = .ok (received x))
    (h : b.Ready) (hrest : b.input.rest = xs.flatMap fun x => encode (value x)) {n : Nat}
    (hn : xs.length < n) :
    collect (BlockStream.next parse) n b = (xs.map received, .endOfStream) ∧
        Throughout (BlockStream.next parse) BlockStream.Own n b ↔
      Throughout (BlockStream.next parse) (·.input.Filled) n b := by
  induction xs generalizing n b with
  | nil =>
    obtain ⟨n, rfl⟩ : ∃ k, n = k + 1 := ⟨n - 1, by simp at hn; omega⟩
    have hload := h.loadRLPArray_end hrest
    have hnext : b.next parse = .ok (none, b) := BlockStream.next_eq hload (Nat.zero_le _)
    have hlater : ∀ P, ∀ x b', b.next parse = .ok (some x, b') →
        Throughout (BlockStream.next parse) P n b' := by
      intro P x b' hsome
      cases hnext.symm.trans hsome
    refine iff_of_true ⟨by rw [collect, hnext]; rfl, ?_, hlater _⟩ ⟨?_, hlater _⟩
    · exact BlockStream.Took.own_of_load ⟨h, Nat.zero_le _, rfl⟩ hload
    · intro header payload hannounced
      rw [hrest] at hannounced
      cases hannounced
  | cons x xs ih =>
    obtain ⟨n, rfl⟩ : ∃ k, n = k + 1 := ⟨n - 1, by simp at hn; omega⟩
    obtain ⟨⟨hlen, hparse⟩, hxs⟩ := List.forall_mem_cons.mp hxs
    rw [List.map_cons, collect_eq_cons_iff]
    exact h.written_iff (hvalue x) hlen hrest hquiet hparse fun b' h' hrest' =>
      ih hxs h' hrest' (Nat.lt_of_succ_lt_succ hn)

end Written

end WellFormed

theorem Metadata.unmarshal_marshal {m : Metadata} (hlatest : m.latest < 2 ^ 64) :
    Metadata.unmarshalRLPFrom m.marshalRLPWith = .ok m := by
  refine Except.bind_eq_ok rfl ?_
  refine Except.bind_eq_ok_iff.mpr ⟨_, Except.mapError_eq_ok_iff.mpr (Rlp.Value.getUint64_bigEndian hlatest), ?_⟩
  exact Except.bind_eq_ok (Except.mapError_eq_ok_iff.mpr (getArray_toBytes _)) rfl

theorem Metadata.length_marshal {m : Metadata} (hlatest : m.latest < 2 ^ 64) :
    (Rlp.encode m.marshalRLPWith).length < maxLength := by
  have hnumber : (bigEndian m.latest).length ≤ 8 := Rlp.length_bigEndian_le (k := 8) hlatest
  have hlatest := Rlp.length_encode_bytes_le (k := 1) (show (bigEndian m.latest).length < 256 ^ 1 by omega)
  have hhash := Rlp.length_encode_bytes_le (k := 1)
    (show m.latestHash.toBytes.length < 256 ^ 1 by rw [m.latestHash.length_toBytes]; decide)
  rw [m.latestHash.length_toBytes] at hhash
  have hall : (Rlp.encodeAll [.bytes (bigEndian m.latest), .bytes m.latestHash.toBytes]).length ≤ 44 := by
    simp only [Rlp.encodeAll, List.length_append, List.length_nil]
    omega
  have hlist := Rlp.length_encode_list_le (k := 1) (hall.trans_lt (by decide))
  refine lt_of_le_of_lt (hlist.trans (Nat.add_le_add_left hall _)) (by decide)

theorem isArray_metadata (m : Metadata) : IsArray m.marshalRLPWith := ⟨_, rfl⟩

theorem isArray_block (b : Block) : IsArray b.marshalRLPWith := ⟨_, rfl⟩

def archiveOf (codec : Rlp.Codec) (m : Metadata) (blocks : List Block) : Bytes :=
  codec.marshal m.marshalRLPWith ++ blocks.flatMap fun b => codec.marshal b.marshalRLPWith

def Storable (codec : Rlp.Codec) (b : Block) : Prop :=
  b.Fits ∧ (codec.marshal b.marshalRLPWith).length < maxLength

section Restoring

variable {m : Metadata}

/- The serialisation library writes the usual encoding, and the consensus hashes encoded headers. -/
variable {d : Decoders} {headerHash : Rlp.Value → Hash} (hformat : d.codec.marshal = Rlp.encode)
  (hhash : d.headerHash = hashEncoded headerHash)

include hformat hhash

omit hhash in
theorem parseMetadata_marshal (hlatest : m.latest < 2 ^ 64) :
    d.parseMetadata (Rlp.encode m.marshalRLPWith) = .ok m := by
  have hlen := Metadata.length_marshal hlatest
  rw [← hformat] at hlen ⊢
  exact unmarshalWith_marshal hlen (Except.mapError_eq_ok_iff.mpr (Metadata.unmarshal_marshal hlatest))

end Restoring

def sampleDecoders : Decoders := ⟨Rlp.standard, hashEncoded fun _ => zeroHash, fun _ => zeroHash⟩

def sampleMetadata : Metadata := ⟨1, FixedBytes.ofBytes 32 [7]⟩

def archivedHeader : Header where
  parentHash := zeroHash
  sha3Uncles := zeroHash
  miner := []
  stateRoot := zeroHash
  txRoot := zeroHash
  receiptsRoot := zeroHash
  logsBloom := FixedBytes.zero 256
  difficulty := 1
  number := 1
  gasLimit := 0
  gasUsed := 0
  timestamp := 0
  extraData := []
  mixHash := zeroHash
  nonce := FixedBytes.zero 8
  hash := zeroHash

def archivedBlock : Block := ⟨archivedHeader, [], []⟩

def sampleArchive : Bytes := archiveOf Rlp.standard sampleMetadata [archivedBlock]

def fullReader (archive : Bytes) : Reader := ⟨archive, 0, fun _ n => n⟩

theorem storable_archivedBlock : Storable Rlp.standard archivedBlock := by
  refine ⟨⟨⟨?_, ?_, ?_, ?_, ?_⟩, nofun, nofun⟩, ?_⟩
  all_goals decide +kernel

end Nxchain.Archive
