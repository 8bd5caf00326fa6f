import Nxchain.Lib.ByteOrder
import Nxchain.Lib.Except
import Nxchain.Precompiled

namespace Nxchain

open Rlp (bigEndian ofBigEndian)

namespace Eip198

def byteAt (input : Bytes) (i : Nat) : UInt8 := input.getD i 0

def number (input : Bytes) (start len : Nat) : Nat :=
  ofBigEndian ((List.range len).map fun i => byteAt input (start + i))

def baseLen (input : Bytes) : Nat := number input 0 32
def expLen (input : Bytes) : Nat := number input 32 32
def modLen (input : Bytes) : Nat := number input 64 32

def base (input : Bytes) : Nat := number input 96 (baseLen input)
def exponent (input : Bytes) : Nat := number input (96 + baseLen input) (expLen input)
def modulus (input : Bytes) : Nat := number input (96 + baseLen input + expLen input) (modLen input)

def expHead (input : Bytes) : Nat := number input (96 + baseLen input) (min (expLen input) 32)

def multComplexity (x : Nat) : Nat :=
  if x ≤ 64 then x ^ 2
  else if x ≤ 1024 then x ^ 2 / 4 + 96 * x - 3072
  else x ^ 2 / 16 + 480 * x - 199680

def adjustedExponentLength (len head : Nat) : Nat :=
  if len ≤ 32 then Nat.log 2 head else 8 * (len - 32) + Nat.log 2 head

def cost (x len head : Nat) : Nat := multComplexity x * max (adjustedExponentLength len head) 1 / 20

def gas (input : Bytes) : Nat := cost (max (modLen input) (baseLen input)) (expLen input) (expHead input)

structure IsResult (input out : Bytes) : Prop where
  length_eq : out.length = modLen input
  value_eq : ofBigEndian out =
    if modulus input = 0 then 0 else base input ^ exponent input % modulus input

end Eip198

namespace Precompiled

open Slice (copyTo copyTo_append)

def padded (input : Bytes) (size : Nat) : Bytes :=
  input.take size ++ List.replicate (size - input.length) 0

theorem length_padded (input : Bytes) (size : Nat) : (padded input size).length = size := by
  simp only [padded, List.length_append, List.length_take, List.length_replicate]
  omega

theorem padded_eq_map (input : Bytes) (size : Nat) :
    padded input size = (List.range size).map (Eip198.byteAt input) := by
  apply List.ext_getElem
  · simp [length_padded]
  · intro i hi _
    rw [length_padded] at hi
    simp only [padded, List.getElem_map, List.getElem_range, Eip198.byteAt, List.getD_eq_getElem?_getD]
    rw [List.getElem_append]
    split
    · rename_i hlt
      rw [List.length_take] at hlt
      rw [List.getElem_take, List.getElem?_eq_getElem (by omega), Option.getD_some]
    · rename_i hge
      rw [List.length_take] at hge
      rw [List.getElem_replicate, List.getElem?_eq_none (by omega), Option.getD_none]

theorem ofBigEndian_padded (input : Bytes) (start len : Nat) :
    ofBigEndian (padded (input.drop start) len) = Eip198.number input start len := by
  have hbyte : Eip198.byteAt (input.drop start) = fun i => Eip198.byteAt input (start + i) := by
    funext i
    simp [Eip198.byteAt]
  rw [padded_eq_map, hbyte, Eip198.number]

theorem extendByteSlice_eq (b : Bytes) (size : Nat) :
    ∃ ext, extendByteSlice b size = .ok ext ∧ ext.drop size = b.drop size := by
  refine ⟨_, rfl, ?_⟩
  split
  · have hlen : b.length ≤ size := by omega
    rw [List.drop_append, List.drop_of_length_le hlen, List.drop_of_length_le (by simp), List.append_nil]
  · rfl

theorem copyTo_zeros (b : Bytes) (start rest : Nat) :
    (if rest < 64 then copyTo b start (zeroPadding.take rest)
      else copyTo b start (List.replicate rest 0)) = copyTo b start (List.replicate rest 0) := by
  split
  · rename_i hrest
    rw [zeroPadding, List.take_replicate, Nat.min_eq_left hrest.le]
  · rfl

theorem get_eq (p : Precompiled) (input : Bytes) (size : Nat) :
    p.get input size = .ok (padded input size, input.drop size, ⟨padded input size ++ p.buf.drop size⟩) := by
  obtain ⟨ext, hext, hdrop⟩ := extendByteSlice_eq p.buf size
  have hfirst : ∀ src : Bytes, copyTo ext 0 src = src ++ ext.drop src.length := fun src =>
    copyTo_append List.length_nil ext src
  simp only [get, hext, copyTo_zeros, Int.toNat_natCast, Nat.cast_lt, bind, Except.bind, pure, Except.pure, hfirst]
  by_cases hshort : input.length < size
  · have hpadded : padded input size = input ++ List.replicate (size - input.length) 0 := by
      rw [padded, List.take_of_length_le hshort.le]
    have hrest : input.length + (size - input.length) = size := by omega
    simp only [if_pos hshort, List.take_length, copyTo_append rfl, List.length_replicate, List.drop_drop,
      hrest, hdrop, List.drop_length, List.drop_of_length_le hshort.le, hpadded]
    rw [List.take_left' (by simp [hrest])]
  · have hpadded : padded input size = input.take size := by
      rw [padded, Nat.sub_eq_zero_of_le (by omega), List.replicate_zero, List.append_nil]
    have hlen : (input.take size).length = size := by simp; omega
    simp only [if_neg hshort, lt_irrefl, if_false, hlen, hdrop, hpadded]
    rw [List.take_left' hlen]

theorem get_word (p : Precompiled) (input : Bytes) :
    p.get input 32 = .ok (padded input 32, input.drop 32, ⟨padded input 32 ++ p.buf.drop 32⟩) :=
  p.get_eq input 32

theorem ofBigEndian_drop (b : Bytes) (k : Nat) : ofBigEndian (b.drop k) = ofBigEndian b % 256 ^ (b.length - k) := by
  have happend := Rlp.ofBigEndian_append (b.take k) (b.drop k)
  rw [List.take_append_drop, List.length_drop] at happend
  have hlow : ofBigEndian (b.drop k) < 256 ^ (b.length - k) := Rlp.ofBigEndian_lt List.length_drop.le
  rw [happend, Nat.add_mul_mod_self_left, Nat.mod_eq_of_lt hlow]

theorem getUint64_drop (p : Precompiled) (input : Bytes) (start : Nat) :
    ∃ word p', p.getUint64 (input.drop start) = .ok (word, input.drop (start + 32), p') ∧
      word = Eip198.number input start 32 % 2 ^ 64 := by
  have hlen : ((padded (input.drop start) 32).drop 24).length ≤ 8 := by
    rw [List.length_drop, length_padded]
  simp only [getUint64, get_word, bind, Except.bind, pure, Except.pure, List.take_of_length_le hlen, List.drop_drop]
  refine ⟨_, _, rfl, ?_⟩
  have hbytes : 256 ^ (32 - 24) = 2 ^ 64 := by decide
  rw [ofBigEndian_drop, length_padded, ofBigEndian_padded, hbytes]

end Precompiled

namespace ModExp

open Precompiled Eip198

variable (p : Precompiled) (input : Bytes)

variable {n x len head : Nat} {b : Bytes}

def headRead : Nat :=
  if baseLen input % 2 ^ 64 < (input.drop 96).length then
    number input (96 + baseLen input % 2 ^ 64) (min (expLen input) 32)
  else 0

theorem multComplexity_eq (x : Nat) : ModExp.multComplexity x = Eip198.multComplexity x := by
  simp only [ModExp.multComplexity, Eip198.multComplexity, subMul, pow_two]
  split_ifs <;> omega

theorem size_eq_log (hn : n ≠ 0) : n.size = Nat.log 2 n + 1 := by
  apply le_antisymm
  · exact Nat.size_le.mpr (Nat.lt_pow_succ_log_self (by decide) n)
  · exact Nat.lt_size.mpr (Nat.pow_log_le_self 2 hn)

theorem adjustedExponentLength_eq (len head : Nat) :
    ModExp.adjustedExponentLength len head = Eip198.adjustedExponentLength len head := by
  have hbits : (if (head : Int) ≠ 0 then ((head : Int).natAbs.size : Int) - 1 else 0) = Nat.log 2 head := by
    by_cases hhead : head = 0
    · simp [hhead]
    · rw [Int.natAbs_natCast, size_eq_log hhead]
      omega
  simp only [ModExp.adjustedExponentLength, Eip198.adjustedExponentLength, hbits]
  split_ifs <;> omega

theorem price_eq (base len mod head : Nat) :
    price base len mod head = min (cost (max mod base) len head) (2 ^ 64 - 1) := by
  have hmax : (if (mod : Int) ≥ base then (mod : Int) else base) = (max mod base : Nat) := by
    split <;> omega
  have hfactor : ∀ m a : Nat, (if (a : Int) ≥ 1 then (m : Int) * a else (m : Int) * 1) = (m * max a 1 : Nat) := by
    intro m a
    split
    · rw [max_eq_left (by omega), Nat.cast_mul]
    · rw [max_eq_right (by omega), Nat.cast_mul, Nat.cast_one]
  have hdiv : ∀ c : Nat, (c : Int) / divisor = (c / 20 : Nat) := fun c => (Int.natCast_div c 20).symm
  simp only [price, hmax, multComplexity_eq, adjustedExponentLength_eq, hfactor, hdiv, Int.toNat_natCast, cost]
  split <;> omega

theorem gas_eq : ∃ p', ModExp.gas p input =
    .ok (min (cost (max (modLen input) (baseLen input)) (expLen input) (headRead input)) (2 ^ 64 - 1), p') := by
  have hinput : (if input.length > 96 then input.drop 96 else []) = input.drop 96 := by
    split
    · rfl
    · rw [List.drop_of_length_le (by omega)]
  have hhead : (if expLen input < 32 then expLen input % 2 ^ 64 else 32) = min (expLen input) 32 := by
    split <;> omega
  have hbase : ofBigEndian (padded input 32) = baseLen input := ofBigEndian_padded input 0 32
  have hexp : ofBigEndian (padded (input.drop 32) 32) = expLen input := ofBigEndian_padded input 32 32
  have hmod : ofBigEndian (padded (input.drop (32 + 32)) 32) = modLen input := ofBigEndian_padded input 64 32
  simp only [ModExp.gas, get_word, get_eq, bind, Except.bind, pure, Except.pure, List.drop_drop, hbase, hexp,
    hmod, hinput, hhead, ofBigEndian_padded, headRead]
  split
  · exact ⟨_, by rw [price_eq]⟩
  · exact ⟨_, by rw [← price_eq]; rfl⟩

variable {p input}

theorem square_le_multComplexity (x : Nat) : x ^ 2 / 16 ≤ Eip198.multComplexity x := by
  unfold Eip198.multComplexity
  split_ifs <;> omega

theorem multComplexity_pos (hx : 0 < x) : 0 < Eip198.multComplexity x := by
  have hsquare : 0 < x ^ 2 := Nat.pow_pos hx
  unfold Eip198.multComplexity
  split_ifs <;> omega

theorem two_pow_le_cost {k : Nat} (hx : 2 ^ k ≤ x) : 2 ^ (2 * k) / 16 / 20 ≤ cost x len head := by
  have hsquare : 2 ^ (2 * k) ≤ x ^ 2 := by
    rw [Nat.mul_comm, Nat.pow_mul]
    exact Nat.pow_le_pow_left hx 2
  calc
    2 ^ (2 * k) / 16 / 20 ≤ x ^ 2 / 16 / 20 := by gcongr
    _ ≤ Eip198.multComplexity x / 20 := by gcongr; exact square_le_multComplexity x
    _ ≤ cost x len head := Nat.div_le_div_right (Nat.le_mul_of_pos_right _ (by omega))

theorem lengths_lt_of_cost_le (hcost : cost x len head ≤ 2 ^ 60) : x < 2 ^ 35 := by
  by_contra hx
  have hle : 2 ^ (2 * 35) / 16 / 20 ≤ cost x len head := two_pow_le_cost (Nat.le_of_not_lt hx)
  omega

theorem exponentLength_le_cost (hx : 0 < x) : 8 * (len - 32) / 20 ≤ cost x len head := by
  have hadjusted : 8 * (len - 32) ≤ Eip198.adjustedExponentLength len head := by
    unfold Eip198.adjustedExponentLength
    split <;> omega
  apply Nat.div_le_div_right
  calc
    8 * (len - 32) ≤ max (Eip198.adjustedExponentLength len head) 1 := hadjusted.trans (le_max_left _ _)
    _ ≤ _ := Nat.le_mul_of_pos_left _ (multComplexity_pos hx)

theorem ofBigEndian_zeros (n : Nat) : ofBigEndian (List.replicate n 0) = 0 := by
  induction n with
  | zero => rfl
  | succ n ih => rw [List.replicate_succ, Rlp.ofBigEndian_cons, ih, UInt8.toNat_zero, Nat.mul_zero]

theorem number_of_length_le {start : Nat} (hstart : input.length ≤ start) (len : Nat) :
    number input start len = 0 := by
  rw [← ofBigEndian_padded, List.drop_of_length_le hstart, padded, List.take_nil]
  exact ofBigEndian_zeros _

theorem headRead_eq (hbase : baseLen input < 2 ^ 64) : headRead input = expHead input := by
  rw [headRead, expHead, Nat.mod_eq_of_lt hbase]
  split
  · rfl
  · rename_i hlen
    rw [List.length_drop] at hlen
    rw [number_of_length_le (by omega)]

theorem min_cost_headRead :
    min (cost (max (modLen input) (baseLen input)) (expLen input) (headRead input)) (2 ^ 64 - 1) =
      min (Eip198.gas input) (2 ^ 64 - 1) := by
  by_cases hbase : baseLen input < 2 ^ 64
  · rw [headRead_eq hbase, Eip198.gas]
  · have hmax : 2 ^ 64 ≤ max (modLen input) (baseLen input) := by omega
    have hcapped : ∀ head, 2 ^ 64 - 1 ≤ cost (max (modLen input) (baseLen input)) (expLen input) head := by
      intro head
      have hle : 2 ^ (2 * 64) / 16 / 20 ≤ cost _ (expLen input) head := two_pow_le_cost hmax
      exact le_trans (by decide) hle
    rw [Eip198.gas, min_eq_right (hcapped _), min_eq_right (hcapped _)]

theorem leftPad_eq (hb : b.length ≤ n) : leftPad b n = List.replicate (n - b.length) 0 ++ b := by
  have hle : ¬ (b.length : Int) > n := by omega
  simp only [leftPad, hle, if_false, Slice.copyTo, Int.toNat_natCast, List.take_replicate, List.drop_replicate]
  rw [Nat.min_eq_left (Nat.sub_le _ _), show n - (n - b.length + b.length) = 0 by omega,
    List.replicate_zero, List.append_nil]

theorem leftPad_length (hb : b.length ≤ n) : (leftPad b n).length = n := by
  rw [leftPad_eq hb, List.length_append, List.length_replicate]
  omega

theorem ofBigEndian_leftPad (hb : b.length ≤ n) : ofBigEndian (leftPad b n) = ofBigEndian b := by
  rw [leftPad_eq hb, Rlp.ofBigEndian_append, ofBigEndian_zeros, Nat.mul_zero, Nat.add_zero]

theorem number_lt (input : Bytes) (start len : Nat) : number input start len < 256 ^ len :=
  Rlp.ofBigEndian_lt (by simp)

theorem asInt64_natCast (hn : n < 2 ^ 63) : asInt64 n = n := asInt64_eq (by omega) (by omega)

theorem isResult_leftPad (input : Bytes) :
    IsResult input (leftPad
      (if modulus input ≠ 0 then bigEndian (base input ^ exponent input % modulus input) else [])
      (modLen input)) := by
  by_cases hzero : modulus input = 0
  · rw [if_neg (not_not.mpr hzero)]
    refine ⟨leftPad_length (Nat.zero_le _), ?_⟩
    rw [ofBigEndian_leftPad (Nat.zero_le _), if_pos hzero]
    rfl
  · have hlt : base input ^ exponent input % modulus input < 256 ^ modLen input :=
      (Nat.mod_lt _ (Nat.pos_of_ne_zero hzero)).trans (number_lt input _ _)
    have hfits := Rlp.length_bigEndian_le hlt
    rw [if_pos hzero]
    refine ⟨leftPad_length hfits, ?_⟩
    rw [ofBigEndian_leftPad hfits, Rlp.ofBigEndian_bigEndian, if_neg hzero]

theorem isResult_nil (hmod : modLen input = 0) : IsResult input [] := by
  have hzero : modulus input = 0 := by
    rw [modulus, hmod]
    rfl
  exact ⟨hmod.symm, by rw [if_pos hzero]; rfl⟩

theorem run_eq (hbase : baseLen input < 2 ^ 63) (hmod : modLen input < 2 ^ 63)
    (hexp : ¬ (baseLen input = 0 ∧ modLen input = 0) → expLen input < 2 ^ 63) :
    ∃ out p', run p input = .ok (out, p') ∧ IsResult input out := by
  obtain ⟨b, p₁, hreadBase, hb⟩ := p.getUint64_drop input 0
  obtain ⟨e, p₂, hreadExp, he⟩ := p₁.getUint64_drop input 32
  obtain ⟨m, p₃, hreadMod, hm⟩ := p₂.getUint64_drop input 64
  rw [← baseLen, Nat.mod_eq_of_lt (by omega)] at hb
  rw [← modLen, Nat.mod_eq_of_lt (by omega)] at hm
  rw [List.drop_zero] at hreadBase
  simp only [run, hreadBase, hreadExp, hreadMod, Except.ok_bind, Nat.zero_add, Nat.reduceAdd]
  by_cases hlen : b = 0 ∧ m = 0
  · rw [if_pos hlen]
    refine ⟨[], _, rfl, ?_⟩
    exact isResult_nil (hm ▸ hlen.2)
  · rw [if_neg hlen]
    rw [hb, hm] at hlen
    have hexp := hexp hlen
    rw [← expLen, Nat.mod_eq_of_lt (by omega)] at he
    simp only [hb, he, hm, asInt64_natCast hbase, asInt64_natCast hexp, asInt64_natCast hmod,
      get_eq, Except.ok_bind, List.drop_drop]
    rw [ofBigEndian_padded, ofBigEndian_padded, ofBigEndian_padded, ← exponent, ← base]
    refine ⟨_, _, rfl, ?_⟩
    exact isResult_leftPad input

theorem modexp_follows_eip198 (p : Precompiled) (input : Bytes) :
    (∃ p', ModExp.gas p input = .ok (min (Eip198.gas input) (2 ^ 64 - 1), p')) ∧
      (Eip198.gas input ≤ 2 ^ 60 → ∃ out p', run p input = .ok (out, p') ∧ IsResult input out) := by
  refine ⟨min_cost_headRead ▸ gas_eq p input, fun hgas => ?_⟩
  have hmax : max (modLen input) (baseLen input) < 2 ^ 35 := lengths_lt_of_cost_le hgas
  refine run_eq (by omega) (by omega) fun hlen => ?_
  have hpos : 0 < max (modLen input) (baseLen input) := by omega
  have hexp := (exponentLength_le_cost hpos).trans hgas
  omega

def sampleInput (base exponent modulus : UInt8) : Bytes :=
  (List.replicate 3 (List.replicate 31 0 ++ [1])).flatten ++ [base, exponent, modulus]

theorem modexp_follows_eip198_sample :
    (run ⟨[9, 9]⟩ (sampleInput 3 5 7)).map Prod.fst = .ok [5] ∧
      ∃ out p', run ⟨[9, 9]⟩ (sampleInput 3 5 7) = .ok (out, p') ∧ IsResult (sampleInput 3 5 7) out :=
  ⟨by decide +kernel, (modexp_follows_eip198 ⟨[9, 9]⟩ (sampleInput 3 5 7)).2 (by decide +kernel)⟩

end ModExp

end Nxchain
