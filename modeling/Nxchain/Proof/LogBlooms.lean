import Mathlib.Data.Nat.Bitwise
import Nxchain.Bloom

namespace Nxchain.Bloom

def hasBit (b : Bloom) (bit : Nat) : Bool := (b.toBytes.getD (255 - bit / 8) 0).toNat.testBit (bit % 8)

theorem bitAt_lt (buf : Hash) (i : Nat) : bitAt buf i < 2048 :=
  Nat.and_lt_two_pow _ (show 2047 < 2 ^ 11 by decide)

theorem toNat_shiftedOne {count : Nat} (hcount : count < 8) : (shiftedOne count).toNat = 2 ^ count := by
  have hlt : 2 ^ count < 2 ^ 8 := Nat.pow_lt_pow_right (by decide) hcount
  rw [shiftedOne, if_pos hcount, Nat.one_shiftLeft]
  exact Nat.mod_eq_of_lt hlt

theorem shiftedOne_of_le {count : Nat} (hcount : 8 ≤ count) : shiftedOne count = 0 :=
  if_neg (by omega)

@[simp]
theorem hasBit_zero (bit : Nat) : hasBit (FixedBytes.zero 256) bit = false := by
  have hbyte : (List.replicate 256 (0 : UInt8)).getD (255 - bit / 8) 0 = 0 := by
    rw [List.getD_eq_getElem?_getD, List.getElem?_replicate]
    split <;> rfl
  rw [hasBit, FixedBytes.zero, hbyte]
  exact Nat.zero_testBit _

theorem hasBit_setBit (b : Bloom) {bit other : Nat} (hbit : bit < 2048) (hother : other < 2048) :
    hasBit (b.setBit bit) other = true ↔ other = bit ∨ hasBit b other = true := by
  have hplace : 255 - other / 8 < b.toBytes.length := by
    rw [b.length_toBytes]
    omega
  simp only [hasBit, setBit, List.getD_eq_getElem?_getD, List.getElem?_modify,
    List.getElem?_eq_getElem hplace, Option.map_eq_map, Option.map_some, Option.getD_some]
  by_cases hbyte : 256 - 1 - bit / 8 = 255 - other / 8
  · rw [if_pos hbyte, UInt8.toNat_or, toNat_shiftedOne (by omega), Nat.testBit_or,
      Nat.testBit_two_pow, Bool.or_eq_true, decide_eq_true_eq, or_comm]
    have hsame : bit % 8 = other % 8 ↔ other = bit := by omega
    rw [hsame]
  · have hne : other ≠ bit := by
      rintro rfl
      exact hbyte rfl
    rw [if_neg hbyte]
    simp [hne]

theorem isSet_iff (b : Bloom) (bit : Nat) : b.isSet bit = true ↔ bit % 8 ≠ 0 ∧ hasBit b (bit - 1) = true := by
  by_cases hfirst : bit % 8 = 0
  · have hout : shiftedOne (pred64 0) = 0 := shiftedOne_of_le (by decide)
    simp only [isSet, hfirst, hout]
    simp
  · have hbelow : pred64 (bit % 8) = (bit - 1) % 8 := by
      obtain ⟨k, hk⟩ : ∃ k, bit % 8 = k + 1 := Nat.exists_eq_succ_of_ne_zero hfirst
      rw [hk, pred64_succ]
      omega
    have hbyte : 256 - 1 - bit / 8 = 255 - (bit - 1) / 8 := by omega
    simp only [isSet, hasBit, hbelow, hbyte, bne_iff_ne, ne_eq, ← UInt8.toNat_inj, UInt8.toNat_and,
      UInt8.toNat_zero, toNat_shiftedOne (Nat.mod_lt _ (show 8 > 0 by decide)), Nat.and_two_pow]
    cases Nat.testBit _ _ <;> simp [hfirst]

section Filter

variable [Keccak]

def bitsOf (data : Bytes) : List Nat := places.map (bitAt (keccak256 data))

def entriesOf (log : Log) : List Bytes := log.address.toBytes :: log.topics.map (·.toBytes)

def entries (receipts : List Receipt) : List Bytes :=
  receipts.flatMap fun receipt => receipt.logs.flatMap entriesOf

theorem lt_of_mem_bitsOf {data : Bytes} {bit : Nat} (hbit : bit ∈ bitsOf data) : bit < 2048 := by
  obtain ⟨i, -, rfl⟩ := List.mem_map.mp hbit
  exact bitAt_lt _ i

section Inserting

variable {bit : Nat} (hbit : bit < 2048)

include hbit

theorem hasBit_setEncode (b : Bloom) (h : Bytes) :
    hasBit (setEncode b h) bit = true ↔ bit ∈ bitsOf h ∨ hasBit b bit = true := by
  unfold setEncode bitsOf
  induction places generalizing b with
  | nil => simp
  | cons i rest ih =>
    rw [List.foldl_cons, ih, hasBit_setBit b (bitAt_lt _ i) hbit, List.map_cons, List.mem_cons]
    tauto

theorem hasBit_foldl_setEncode (b : Bloom) (data : List Bytes) :
    hasBit (data.foldl setEncode b) bit = true ↔
      (∃ entry ∈ data, bit ∈ bitsOf entry) ∨ hasBit b bit = true := by
  induction data generalizing b with
  | nil => simp
  | cons entry rest ih =>
    rw [List.foldl_cons, ih, hasBit_setEncode hbit, List.exists_mem_cons_iff, or_assoc, or_left_comm]

end Inserting

theorem addLog_eq (b : Bloom) (log : Log) : addLog b log = (entriesOf log).foldl setEncode b := by
  rw [entriesOf, List.foldl_cons, List.foldl_map]
  rfl

theorem createBloom_eq (receipts : List Receipt) :
    createBloom receipts = (entries receipts).foldl setEncode (FixedBytes.zero 256) := by
  have hlogs : ∀ (logs : List Log) b, logs.foldl addLog b = (logs.flatMap entriesOf).foldl setEncode b := by
    intro logs b
    rw [List.foldl_flatMap]
    simp only [← addLog_eq]
  rw [entries, List.foldl_flatMap]
  simp only [← hlogs]
  rfl

theorem hasBit_createBloom (receipts : List Receipt) {bit : Nat} (hbit : bit < 2048) :
    hasBit (createBloom receipts) bit = true ↔ ∃ entry ∈ entries receipts, bit ∈ bitsOf entry := by
  rw [createBloom_eq, hasBit_foldl_setEncode hbit]
  simp

theorem isByteArrPresent_iff (b : Bloom) (data : Bytes) :
    isByteArrPresent b data = true ↔ ∀ bit ∈ bitsOf data, bit % 8 ≠ 0 ∧ hasBit b (bit - 1) = true := by
  rw [isByteArrPresent, List.all_eq_true, bitsOf, List.forall_mem_map]
  simp only [isSet_iff]

theorem isLogInBloom_iff (b : Bloom) (log : Log) :
    isLogInBloom b log = true ↔ ∀ entry ∈ entriesOf log, isByteArrPresent b entry = true := by
  rw [entriesOf, List.forall_mem_cons, isLogInBloom, ← List.all_eq_true]
  cases isByteArrPresent b log.address.toBytes <;> simp

def BitsBelow (receipts : List Receipt) (log : Log) : Prop :=
  ∀ entry ∈ entriesOf log, ∀ bit ∈ bitsOf entry,
    bit % 8 ≠ 0 ∧ ∃ other ∈ entries receipts, bit - 1 ∈ bitsOf other

theorem isLogInBloom_createBloom_iff (receipts : List Receipt) (log : Log) :
    isLogInBloom (createBloom receipts) log = true ↔ BitsBelow receipts log := by
  rw [isLogInBloom_iff]
  refine forall₂_congr fun entry _ => ?_
  rw [isByteArrPresent_iff]
  refine forall₂_congr fun bit hbit => and_congr_right fun _ => ?_
  have hlt : bit - 1 < 2048 := (Nat.sub_le bit 1).trans_lt (lt_of_mem_bitsOf hbit)
  exact hasBit_createBloom receipts hlt

end Filter

local instance lowBits : Keccak where
  keccak256 data :=
    if data = List.replicate 19 0 ++ [1] then ⟨[0, 1, 0, 1, 0, 1] ++ List.replicate 26 0, rfl⟩
    else zeroHash

def sampleLog (address : UInt8) : Log := ⟨FixedBytes.ofBytes 20 [address], [], []⟩

def sampleReceipt (logs : List Log) : Receipt where
  root := zeroHash
  cumulativeGasUsed := 0
  logsBloom := FixedBytes.zero 256
  logs := logs
  status := some .success
  gasUsed := 0
  contractAddress := none
  txHash := zeroHash

theorem isLogInBloom_createBloom_iff_sample :
    isLogInBloom (createBloom [sampleReceipt [sampleLog 1, sampleLog 2]]) (sampleLog 1) = true := by
  rw [isLogInBloom_createBloom_iff]
  unfold BitsBelow
  decide +kernel

theorem lone_log_is_not_found :
    isLogInBloom (createBloom [sampleReceipt [sampleLog 1]]) (sampleLog 1) = false ∧
      ∀ receipts : List Receipt, isLogInBloom (createBloom receipts) (sampleLog 2) = false := by
  refine ⟨by decide +kernel, fun receipts => ?_⟩
  rw [Bool.eq_false_iff, Ne, isLogInBloom_iff]
  intro hpresent
  have hbits := (isByteArrPresent_iff _ _).mp (hpresent _ List.mem_cons_self)
  have hfirst : 0 ∈ bitsOf (sampleLog 2).address.toBytes := by decide +kernel
  exact (hbits 0 hfirst).1 rfl

end Nxchain.Bloom
