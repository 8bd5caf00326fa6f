import Nxchain.Lib.TwosComplement
import Nxchain.Proof.ReturnData

namespace Nxchain.Evm

open Prog Word TwosComplement

def ofWord (x : BitVec 256) : Int := x.toNat

theorem ofWord_nonneg (x : BitVec 256) : 0 ≤ ofWord x := Int.natCast_nonneg _

theorem ofWord_lt (x : BitVec 256) : ofWord x < 2 ^ 256 := by
  unfold ofWord
  omega

theorem ofInt_ofWord (x : BitVec 256) : BitVec.ofInt 256 (ofWord x) = x := ofInt_toNat x

theorem ofWord_eq_zero {x : BitVec 256} : ofWord x = 0 ↔ x = 0 := by
  rw [ofWord, Int.natCast_eq_zero, BitVec.toNat_eq]
  rfl

inductive WordOp where
  | add (a b : BitVec 256)
  | mul (a b : BitVec 256)
  | sub (a b : BitVec 256)
  | div (a b : BitVec 256)
  | sdiv (a b : BitVec 256)
  | mod (a b : BitVec 256)
  | smod (a b : BitVec 256)
  | addMod (a b n : BitVec 256)
  | mulMod (a b n : BitVec 256)
  | exp (a b : BitVec 256)
  | signExtend (k x : BitVec 256)
  | lt (a b : BitVec 256)
  | gt (a b : BitVec 256)
  | slt (a b : BitVec 256)
  | sgt (a b : BitVec 256)
  | and (a b : BitVec 256)
  | or (a b : BitVec 256)
  | xor (a b : BitVec 256)
  | not (a : BitVec 256)
  | shl (n x : BitVec 256)
  | shr (n x : BitVec 256)
  | sar (n x : BitVec 256)

namespace WordOp

def operands : WordOp → List (BitVec 256)
  | add a b | mul a b | sub a b | div a b | sdiv a b | mod a b | smod a b | exp a b => [a, b]
  | addMod a b n | mulMod a b n => [a, b, n]
  | signExtend k x => [k, x]
  | lt a b | gt a b | slt a b | sgt a b | and a b | or a b | xor a b => [a, b]
  | not a => [a]
  | shl n x | shr n x | sar n x => [n, x]

def inst : WordOp → Instruction
  | add .. => opAdd
  | mul .. => opMul
  | sub .. => opSub
  | div .. => opDiv
  | sdiv .. => opSDiv
  | mod .. => opMod
  | smod .. => opSMod
  | addMod .. => opAddMod
  | mulMod .. => opMulMod
  | exp .. => opExp
  | signExtend .. => opSignExtension
  | lt .. => opLt
  | gt .. => opGt
  | slt .. => opSlt
  | sgt .. => opSgt
  | and .. => opAnd
  | or .. => opOr
  | xor .. => opXor
  | not .. => opNot
  | shl .. => opShl
  | shr .. => opShr
  | sar .. => opSar

def value : WordOp → BitVec 256
  | add a b => a + b
  | mul a b => a * b
  | sub a b => a - b
  | div a b => a / b
  | sdiv a b => BitVec.ofInt 256 (a.toInt.tdiv b.toInt)
  | mod a b => if b = 0 then 0 else a % b
  | smod a b => if b = 0 then 0 else BitVec.ofInt 256 (a.toInt.tmod b.toInt)
  | addMod a b n => if n = 0 then 0 else BitVec.ofNat 256 ((a.toNat + b.toNat) % n.toNat)
  | mulMod a b n => if n = 0 then 0 else BitVec.ofNat 256 (a.toNat * b.toNat % n.toNat)
  | exp a b => BitVec.ofNat 256 (a.toNat ^ b.toNat)
  | signExtend k x => if k.toNat < 31 then (x.setWidth (8 * (k.toNat + 1))).signExtend 256 else x
  | lt a b => if a.toNat < b.toNat then 1 else 0
  | gt a b => if b.toNat < a.toNat then 1 else 0
  | slt a b => if a.toInt < b.toInt then 1 else 0
  | sgt a b => if b.toInt < a.toInt then 1 else 0
  | and a b => a &&& b
  | or a b => a ||| b
  | xor a b => a ^^^ b
  | not a => ~~~a
  | shl n x => x <<< n.toNat
  | shr n x => x >>> n.toNat
  | sar n x => x.sshiftRight n.toNat

def enabled (config : ForksInTime) : WordOp → Bool
  | shl .. | shr .. | sar .. => config.constantinople
  | _ => true

def price (config : ForksInTime) : WordOp → Nat
  | exp _ b => (bitLen (ofWord b) + 7) / 8 * if config.eip158 then 50 else 10
  | _ => 0

end WordOp

theorem bitLen_le {x : Int} {k : Nat} : bitLen x ≤ k ↔ x.natAbs < 2 ^ k := by
  unfold bitLen
  by_cases hx : x = 0
  · simp [hx]
  · rw [if_neg hx, Nat.succ_le_iff, Nat.log2_lt (Int.natAbs_ne_zero.mpr hx)]

theorem toU256_eq (z : Int) : toU256 z = ofWord (BitVec.ofInt 256 z) := by
  unfold toU256
  split_ifs with h
  · exact land_mask 256 z
  · rw [Bool.or_eq_true, decide_eq_true_eq, decide_eq_true_eq, not_or, not_lt, not_lt, bitLen_le] at h
    rw [ofWord, BitVec.toNat_ofInt]
    omega

theorem toU256_ofWord (x : BitVec 256) : toU256 (ofWord x) = ofWord x := by
  rw [toU256_eq, ofInt_ofWord]

theorem to256_ofWord (x : BitVec 256) : to256 (ofWord x) = x.toInt := by
  have hbits : 255 < bitLen (ofWord x) ↔ 2 ^ 255 ≤ x.toNat := by
    rw [← not_le, bitLen_le, not_lt]
    rfl
  rw [BitVec.toInt_eq_toNat_cond]
  unfold to256 tt256
  split_ifs with h h' h'
  · omega
  · rfl
  · rfl
  · omega

section Values

variable (a b n x : BitVec 256)

theorem add_value : toU256 (ofWord a + ofWord b) = ofWord (a + b) := by
  rw [toU256_eq, BitVec.ofInt_add, ofInt_ofWord, ofInt_ofWord]

theorem mul_value : toU256 (ofWord a * ofWord b) = ofWord (a * b) := by
  rw [toU256_eq, BitVec.ofInt_mul, ofInt_ofWord, ofInt_ofWord]

theorem sub_value : toU256 (ofWord a - ofWord b) = ofWord (a - b) := by
  rw [toU256_eq, sub_eq_add_neg, BitVec.ofInt_add, BitVec.ofInt_neg, ofInt_ofWord, ofInt_ofWord,
    ← BitVec.sub_eq_add_neg]

theorem div_value : (if ofWord b = 0 then 0 else toU256 (ofWord a / ofWord b)) = ofWord (a / b) := by
  have hquot : ofWord a / ofWord b = ofWord (a / b) := by
    rw [ofWord, ofWord, ofWord, BitVec.toNat_udiv, Int.natCast_ediv]
  split_ifs with hzero
  · rw [ofWord_eq_zero.mp hzero]
    simp [ofWord]
  · rw [hquot, toU256_ofWord]

theorem mod_value :
    (if ofWord b = 0 then 0 else toU256 (ofWord a % ofWord b)) = ofWord (if b = 0 then 0 else a % b) := by
  have hrem : ofWord a % ofWord b = ofWord (a % b) := by
    rw [ofWord, ofWord, ofWord, BitVec.toNat_umod, Int.natCast_emod]
  simp only [ofWord_eq_zero, hrem, toU256_ofWord, apply_ite ofWord]
  rfl

theorem toInt_eq_zero {x : BitVec 256} : x.toInt = 0 ↔ x = 0 := by
  rw [← BitVec.toInt_inj]
  rfl

theorem sdiv_value :
    sdiv (to256 (ofWord a)) (to256 (ofWord b)) = ofWord (BitVec.ofInt 256 (a.toInt.tdiv b.toInt)) := by
  rw [to256_ofWord, to256_ofWord]
  unfold sdiv
  split_ifs with hzero hsign
  · rw [hzero, Int.tdiv_zero]
    rfl
  · rw [tdiv_eq_abs hzero, if_pos hsign]
    exact toU256_eq _
  · rw [tdiv_eq_abs hzero, if_neg hsign]
    exact toU256_eq _

theorem smod_value :
    smod (to256 (ofWord a)) (to256 (ofWord b)) =
      ofWord (if b = 0 then 0 else BitVec.ofInt 256 (a.toInt.tmod b.toInt)) := by
  rw [to256_ofWord, to256_ofWord, apply_ite ofWord, tmod_eq_abs, ← toU256_eq]
  simp only [smod, toInt_eq_zero]
  rfl

theorem not_value : toU256 (~~~(ofWord a)) = ofWord (~~~a) := by
  have hnot : BitVec.ofInt 256 (~~~(ofWord a)) = ~~~BitVec.ofNat 256 a.toNat := BitVec.ofInt_negSucc_eq_not_ofNat
  rw [toU256_eq, hnot, BitVec.ofNat_toNat, BitVec.setWidth_eq]

theorem ofBool_value {p q : Prop} [Decidable p] [Decidable q] (h : p ↔ q) :
    ofBool p = ofWord (if q then 1 else 0) := by
  simp only [ofBool, decide_eq_true_eq, h, apply_ite ofWord]
  rfl

theorem ternary_value (m : Nat) :
    (if ofWord n = 0 then 0 else toU256 ((m : Int) % ofWord n)) =
      ofWord (if n = 0 then 0 else BitVec.ofNat 256 (m % n.toNat)) := by
  have hrem : toU256 ((m : Int) % ofWord n) = ofWord (BitVec.ofNat 256 (m % n.toNat)) := by
    rw [toU256_eq, ← BitVec.ofInt_natCast]
    rfl
  simp only [ofWord_eq_zero, hrem, apply_ite ofWord]
  rfl

theorem expWord_ofWord (rounds : Nat) :
    ∀ (d : Nat) (z x : BitVec 256), expWord rounds d (ofWord z, ofWord x) =
      Prod.map ofWord ofWord (squareMultiply rounds d (z, x)) := by
  induction rounds with
  | zero => exact fun _ _ _ => rfl
  | succ rounds ih =>
    intro d z x
    have hstep : (if d % 2 = 1 then toU256 (ofWord z * ofWord x) else ofWord z) =
        ofWord (if d % 2 = 1 then z * x else z) := by
      rw [mul_value, apply_ite ofWord]
    rw [expWord, squareMultiply, hstep, mul_value, ih]

theorem foldl_expWord (ds : List Nat) :
    ∀ z x : BitVec 256, ds.foldl (fun acc d => expWord 64 d acc) (ofWord z, ofWord x) =
      Prod.map ofWord ofWord (ds.foldl (fun acc d => squareMultiply 64 d acc) (z, x)) := by
  induction ds with
  | nil => exact fun _ _ => rfl
  | cons d ds ih =>
    intro z x
    rw [List.foldl_cons, expWord_ofWord]
    exact ih _ _

theorem exp_value : exp (ofWord a) (ofWord b) = ofWord (BitVec.ofNat 256 (a.toNat ^ b.toNat)) := by
  have hone : (1 : Int) = ofWord 1 := rfl
  have hdigits : ∀ d ∈ bits (ofWord b), d < 2 ^ 64 := fun d hd =>
    Nat.digits_lt_base (Nat.one_lt_two_pow (by decide)) hd
  have hexponent : Nat.ofDigits (2 ^ 64) (bits (ofWord b)) = b.toNat := Nat.ofDigits_digits _ _
  have hpower : BitVec.ofNat 256 (a.toNat ^ b.toNat) = a ^ b.toNat :=
    calc BitVec.ofNat 256 (a.toNat ^ b.toNat) = BitVec.ofNat 256 a.toNat ^ b.toNat :=
          Nat.cast_pow a.toNat b.toNat
      _ = a ^ b.toNat := by rw [BitVec.ofNat_toNat, BitVec.setWidth_eq]
  unfold exp
  rw [hone, foldl_expWord, Prod.map_fst, foldl_squareMultiply 64 _ hdigits, hexponent, hpower, one_mul]

theorem signExtend_value (bit : Nat) :
    signExtend bit (ofWord x) = ofWord ((x.setWidth (bit + 1)).signExtend 256) := by
  unfold signExtend
  rw [toU256_eq]
  exact congrArg ofWord (ofInt_masked x bit)

theorem equalOrOverflowsUint256_iff : equalOrOverflowsUint256 (ofWord n) = true ↔ 256 ≤ n.toNat := by
  unfold equalOrOverflowsUint256
  rw [decide_eq_true_eq, ← not_le, bitLen_le, not_lt]
  rfl

theorem uint64_ofWord {n : BitVec 256} (h : n.toNat < 2 ^ 64) : uint64 (ofWord n) = n.toNat :=
  Nat.mod_eq_of_lt h

theorem shl_value :
    (if equalOrOverflowsUint256 (ofWord n) then 0 else toU256 (ofWord x <<< uint64 (ofWord n))) =
      ofWord (x <<< n.toNat) := by
  simp only [equalOrOverflowsUint256_iff]
  split_ifs with h
  · rw [BitVec.shiftLeft_eq_zero h]
    rfl
  · rw [uint64_ofWord (by omega), toU256_eq, Int.shiftLeft_eq]
    refine congrArg ofWord (BitVec.eq_of_toNat_eq ?_)
    rw [BitVec.toNat_shiftLeft, Nat.shiftLeft_eq]
    norm_cast

theorem shr_value :
    (if equalOrOverflowsUint256 (ofWord n) then 0 else toU256 (ofWord x >>> uint64 (ofWord n))) =
      ofWord (x >>> n.toNat) := by
  simp only [equalOrOverflowsUint256_iff]
  split_ifs with h
  · rw [BitVec.ushiftRight_eq_zero h]
    rfl
  · have hshift : ofWord x >>> n.toNat = ofWord (x >>> n.toNat) := by
      rfl
    rw [uint64_ofWord (by omega), hshift, toU256_ofWord]

theorem sar_value : sar (ofWord n) (to256 (ofWord x)) = ofWord (x.sshiftRight n.toNat) := by
  simp only [sar, equalOrOverflowsUint256_iff, to256_ofWord]
  split_ifs with h hsign
  · rw [BitVec.sshiftRight_eq_of_msb_false (BitVec.msb_eq_false_iff_two_mul_lt.mpr ?_),
      BitVec.ushiftRight_eq_zero h]
    · rfl
    · rw [BitVec.toInt_eq_toNat_cond] at hsign
      split_ifs at hsign <;> omega
  · rw [BitVec.sshiftRight_eq_of_msb_true (BitVec.msb_eq_true_iff_two_mul_ge.mpr ?_), BitVec.ushiftRight_eq_zero h]
    · rfl
    · rw [BitVec.toInt_eq_toNat_cond] at hsign
      split_ifs at hsign <;> omega
  · rw [uint64_ofWord (by omega), toU256_eq]
    rfl

end Values

def byteOf (i x : BitVec 256) : BitVec 256 :=
  if i.toNat < 32 then (x.extractLsb' (8 * (31 - i.toNat)) 8).setWidth 256 else 0

theorem land_shiftRight (x : BitVec 256) (n : Nat) :
    Int.land (ofWord x >>> n) 255 = ofWord ((x.extractLsb' n 8).setWidth 256) := by
  have hmask : (255 : Int) = 2 ^ 8 - 1 := by norm_num
  have hshift : ofWord x >>> n = ((x >>> n).toNat : Int) := by
    rfl
  have hbyte : BitVec.ofInt 8 ((x >>> n).toNat : Int) = x.extractLsb' n 8 := by
    rfl
  rw [hmask, hshift, land_mask, hbyte, ofWord, BitVec.toNat_setWidth]
  omega

theorem int64_ofWord (i : BitVec 256) :
    int64 (ofWord i) = if i.toNat % 2 ^ 64 < 2 ^ 63 then (i.toNat % 2 ^ 64 : Int)
      else i.toNat % 2 ^ 64 - 2 ^ 64 := by
  unfold int64 toInt64 uint64
  simp [ofWord]

theorem land_shiftRight_of_le (x : BitVec 256) {n : Nat} (h : 256 ≤ n) : Int.land (ofWord x >>> n) 255 = 0 := by
  have hzero : ofWord x >>> n = 0 := by
    rw [Int.shiftRight_eq_div_pow]
    refine Int.ediv_eq_zero_of_lt (ofWord_nonneg x) ((ofWord_lt x).trans_le ?_)
    exact_mod_cast Nat.pow_le_pow_right two_pos h
  rw [hzero]
  rfl

def byteRead (i x : BitVec 256) : BitVec 256 :=
  if 32 ≤ i.toNat % 2 ^ 64 ∧ i.toNat % 2 ^ 64 < 2 ^ 63 then 0
  else byteOf (BitVec.ofNat 256 (i.toNat % 2 ^ 61)) x

theorem byteOf_low (i x : BitVec 256) : byteOf (BitVec.ofNat 256 (i.toNat % 2 ^ 61)) x =
    if i.toNat % 2 ^ 61 < 32 then (x.extractLsb' (8 * (31 - i.toNat % 2 ^ 61)) 8).setWidth 256 else 0 := by
  rw [byteOf, BitVec.toNat_ofNat, Nat.mod_eq_of_lt (a := i.toNat % 2 ^ 61) (by omega)]

theorem byteAt_value (i x : BitVec 256) : byteAt (ofWord i) (ofWord x) = ofWord (byteRead i x) := by
  have hint := int64_ofWord i
  unfold byteAt byteRead
  by_cases hgt : 32 ≤ i.toNat % 2 ^ 64 ∧ i.toNat % 2 ^ 64 < 2 ^ 63
  · rw [if_pos hgt]
    exact if_pos (by omega)
  rw [if_neg hgt, byteOf_low]
  refine (if_neg (by omega)).trans ?_
  by_cases hsmall : i.toNat % 2 ^ 61 < 32
  · have hshift : ofInt64 ((31 - int64 (ofWord i)) * 8) = 8 * (31 - i.toNat % 2 ^ 61) := by
      unfold ofInt64
      omega
    rw [if_pos hsmall, hshift, land_shiftRight]
  · have hshift : 256 ≤ ofInt64 ((31 - int64 (ofWord i)) * 8) := by
      unfold ofInt64
      omega
    rw [if_neg hsmall, land_shiftRight_of_le x hshift]
    rfl

theorem byteRead_eq_byteOf_iff (i x : BitVec 256) : byteRead i x = byteOf i x ↔
    i.toNat < 32 ∨ (32 ≤ i.toNat % 2 ^ 64 ∧ i.toNat % 2 ^ 64 < 2 ^ 63) ∨ 32 ≤ i.toNat % 2 ^ 61 ∨
      byteOf (BitVec.ofNat 256 (i.toNat % 2 ^ 61)) x = 0 := by
  unfold byteRead
  by_cases hsmall : i.toNat < 32
  · rw [if_neg (by omega), byteOf_low, Nat.mod_eq_of_lt (by omega)]
    exact iff_of_true rfl (.inl hsmall)
  have hzero : byteOf i x = 0 := if_neg hsmall
  rw [hzero]
  by_cases hgt : 32 ≤ i.toNat % 2 ^ 64 ∧ i.toNat % 2 ^ 64 < 2 ^ 63
  · rw [if_pos hgt]
    exact iff_of_true rfl (.inr (.inl hgt))
  rw [if_neg hgt, or_iff_right hsmall, or_iff_right hgt, iff_or_self]
  intro hlarge
  rw [byteOf_low, if_neg (by omega)]

def Leaves (s : State) (price : Nat) (result : BitVec 256) (rest : List Int) (s' : State) : Prop :=
  s' = { s with stack := ofWord result :: rest, unused := s'.unused, gas := s.gas - price }

theorem Leaves.stack {s s' : State} {price : Nat} {result : BitVec 256} {rest : List Int}
    (h : Leaves s price result rest s') : s'.stack = ofWord result :: rest :=
  congrArg State.stack h

section Instructions

variable [SliceGrowth] {env : Env} {terms : Terms} {s : State} {rest : List Int}
  {a b n result : BitVec 256}

theorem keeps_unary_value {f : Int → Int} (hstack : s.stack = ofWord a :: rest)
    (hvalue : f (ofWord a) = ofWord result) :
    Keeps env terms (unary f) (fun _ s' => Leaves s 0 result rest s') s := by
  rw [unary, keeps_bind, keeps_topWord hstack, keeps_setTop hstack, hvalue]
  rfl

theorem keeps_binary_value {f : Int → Int → Int} (hstack : s.stack = ofWord a :: ofWord b :: rest)
    (hvalue : f (ofWord a) (ofWord b) = ofWord result) :
    Keeps env terms (binary f) (fun _ s' => Leaves s 0 result rest s') s := by
  rw [binary, keeps_bind, keeps_popWord hstack, keeps_bind, keeps_topWord rfl, keeps_setTop rfl, hvalue]
  rfl

theorem keeps_ternary_value {f : Int → Int → Int → Int}
    (hstack : s.stack = ofWord a :: ofWord b :: ofWord n :: rest)
    (hvalue : f (ofWord a) (ofWord b) (ofWord n) = ofWord result) :
    Keeps env terms (ternary f) (fun _ s' => Leaves s 0 result rest s') s := by
  rw [ternary, keeps_bind, keeps_popWord hstack, keeps_bind, keeps_popWord rfl, keeps_bind,
    keeps_topWord rfl, keeps_setTop rfl, hvalue]
  rfl

theorem keeps_shift_value {f : Int → Int → Int} (hfork : env.config.constantinople = true)
    (hstack : s.stack = ofWord a :: ofWord b :: rest) (hvalue : f (ofWord a) (ofWord b) = ofWord result) :
    Keeps env terms (shift env f) (fun _ s' => Leaves s 0 result rest s') s := by
  rw [shift, if_pos hfork]
  exact keeps_binary_value hstack hvalue

theorem keeps_opExp_value (hstack : s.stack = ofWord a :: ofWord b :: rest)
    (hgas : (WordOp.exp a b).price env.config ≤ s.gas) :
    Keeps env terms (opExp env)
      (fun _ s' => Leaves s ((WordOp.exp a b).price env.config) (WordOp.exp a b).value rest s') s := by
  have hprice : (bitLen (ofWord b) + 7) / 8 * (if env.config.eip158 then 50 else 10) % 2 ^ 64 =
      (WordOp.exp a b).price env.config := by
    have hbits : bitLen (ofWord b) ≤ 256 := bitLen_le.mpr b.isLt
    refine Nat.mod_eq_of_lt ?_
    split_ifs <;> omega
  rw [opExp, keeps_bind, keeps_popWord hstack, keeps_bind, keeps_topWord rfl]
  simp only [hprice]
  rw [keeps_bind]
  refine (keeps_consumeGas_of_le ?_).mpr ?_
  · exact hgas
  · rw [if_pos rfl, keeps_setTop rfl, exp_value]
    rfl

theorem keeps_opSignExtension_value (hstack : s.stack = ofWord a :: ofWord b :: rest) :
    Keeps env terms (opSignExtension env)
      (fun _ s' => Leaves s 0 (WordOp.signExtend a b).value rest s') s := by
  rw [opSignExtension, keeps_bind, keeps_popWord hstack, keeps_bind, keeps_top (.inl (one_le_length rfl))]
  change Keeps env terms (if ofWord a ≤ 32 then _ else pure ()) _ _
  split_ifs with hle
  · have hsmall : a.toNat ≤ 32 := by
      unfold ofWord at hle
      omega
    have hbit : (uint64 (ofWord a) * 8 + 7) % 2 ^ 64 = 8 * a.toNat + 7 := by
      rw [uint64_ofWord (by omega)]
      omega
    have hvalue : signExtend (8 * a.toNat + 7) (ofWord b) = ofWord (WordOp.signExtend a b).value := by
      rw [signExtend_value, WordOp.value]
      split_ifs with hlt
      · rfl
      · rw [signExtend_setWidth b (by omega)]
    simp only [hbit]
    rw [if_pos (by omega), keeps_setTop rfl, hvalue]
    rfl
  · have hlarge : ¬a.toNat < 31 := by
      unfold ofWord at hle
      omega
    rw [WordOp.value, if_neg hlarge]
    rfl

theorem keeps_wordOp (op : WordOp) (hstack : s.stack = op.operands.map ofWord ++ rest)
    (henabled : op.enabled env.config = true) (hgas : op.price env.config ≤ s.gas) :
    Keeps env terms (op.inst env)
      (fun _ s' => Leaves s (op.price env.config) op.value rest s') s := by
  have hlt : ∀ a b : BitVec 256, ofWord a < ofWord b ↔ a.toNat < b.toNat := fun _ _ => Int.ofNat_lt
  have hslt : ∀ a b : BitVec 256, to256 (ofWord a) < to256 (ofWord b) ↔ a.toInt < b.toInt := by
    intro a b
    rw [to256_ofWord, to256_ofWord]
  cases op with
  | add a b => exact keeps_binary_value hstack (add_value a b)
  | mul a b => exact keeps_binary_value hstack (mul_value a b)
  | sub a b => exact keeps_binary_value hstack (sub_value a b)
  | div a b => exact keeps_binary_value hstack (div_value a b)
  | sdiv a b => exact keeps_binary_value hstack (sdiv_value a b)
  | mod a b => exact keeps_binary_value hstack (mod_value a b)
  | smod a b => exact keeps_binary_value hstack (smod_value a b)
  | addMod a b n =>
    refine keeps_ternary_value hstack ?_
    exact ternary_value n _
  | mulMod a b n =>
    refine keeps_ternary_value hstack ?_
    exact ternary_value n _
  | exp a b => exact keeps_opExp_value hstack hgas
  | signExtend k x => exact keeps_opSignExtension_value hstack
  | lt a b => exact keeps_binary_value hstack (ofBool_value (hlt a b))
  | gt a b => exact keeps_binary_value hstack (ofBool_value (hlt b a))
  | slt a b => exact keeps_binary_value hstack (ofBool_value (hslt a b))
  | sgt a b => exact keeps_binary_value hstack (ofBool_value (hslt b a))
  | and a b => exact keeps_binary_value hstack rfl
  | or a b => exact keeps_binary_value hstack rfl
  | xor a b => exact keeps_binary_value hstack rfl
  | not a => exact keeps_unary_value hstack (not_value a)
  | shl n x => exact keeps_shift_value henabled hstack (shl_value n x)
  | shr n x => exact keeps_shift_value henabled hstack (shr_value n x)
  | sar n x => exact keeps_shift_value henabled hstack (sar_value n x)

theorem word_instruction_result (answer : (request : Request) → Path → request.Answer) (env : Env) (op : WordOp)
    (s : State) (rest : List Int) (hstack : s.stack = op.operands.map ofWord ++ rest)
    (henabled : op.enabled env.config = true) (hgas : op.price env.config ≤ s.gas) :
    ∃ s' path, runInstruction answer (op.inst env) s = .ok ((), s', path) ∧
      Leaves s (op.price env.config) op.value rest s' ∧
      0 ≤ ofWord op.value ∧ ofWord op.value < 2 ^ 256 := by
  obtain ⟨s', path, hrun, hleaves⟩ := runInstruction_of_keeps answer (keeps_wordOp op hstack henabled hgas)
  exact ⟨s', path, hrun, hleaves, ofWord_nonneg _, ofWord_lt _⟩

theorem byte_instruction_result_iff (answer : (request : Request) → Path → request.Answer) (env : Env)
    (i x : BitVec 256) (s : State) (rest : List Int)
    (hstack : s.stack = ofWord i :: ofWord x :: rest) :
    (∃ s' path, runInstruction answer (opByte env) s = .ok ((), s', path) ∧
      Leaves s 0 (byteOf i x) rest s') ↔
    i.toNat < 32 ∨ (32 ≤ i.toNat % 2 ^ 64 ∧ i.toNat % 2 ^ 64 < 2 ^ 63) ∨ 32 ≤ i.toNat % 2 ^ 61 ∨
      byteOf (BitVec.ofNat 256 (i.toNat % 2 ^ 61)) x = 0 := by
  have hkeeps : Keeps env (safeTerms s) (opByte env)
      (fun _ s' => Leaves s 0 (byteRead i x) rest s') s :=
    keeps_binary_value hstack (byteAt_value i x)
  obtain ⟨s', path, hrun, hleaves⟩ := runInstruction_of_keeps answer hkeeps
  rw [← byteRead_eq_byteOf_iff]
  constructor
  · rintro ⟨s'', path', hrun', hleaves'⟩
    cases hrun.symm.trans hrun'
    have hword := (List.cons.inj (hleaves.stack.symm.trans hleaves'.stack)).1
    exact BitVec.eq_of_toNat_eq (Int.ofNat.inj hword)
  · intro hright
    rw [hright] at hleaves
    exact ⟨s', path, hrun, hleaves⟩

end Instructions

section Sample

local instance wordGrowth : SliceGrowth := ⟨fun _ _ => 0⟩

theorem word_instruction_result_sdiv : ∃ s' path,
    runInstruction oneByteAnswer (opSDiv copyEnv) (copyingState [2 ^ 255, 2 ^ 256 - 1]) =
      .ok ((), s', path) ∧ s'.stack = [2 ^ 255] := by
  obtain ⟨s', path, hrun, hleaves, _⟩ := word_instruction_result oneByteAnswer copyEnv
    (.sdiv (BitVec.ofNat 256 (2 ^ 255)) (BitVec.ofNat 256 (2 ^ 256 - 1)))
    (copyingState [2 ^ 255, 2 ^ 256 - 1]) [] (by decide) rfl (Nat.zero_le _)
  exact ⟨s', path, hrun, hleaves.stack.trans (by decide)⟩

theorem byte_instruction_result_iff_second : ∃ s' path,
    runInstruction oneByteAnswer (opByte copyEnv) (copyingState [1, 2 ^ 240]) = .ok ((), s', path) ∧
      s'.stack = [1] := by
  obtain ⟨s', path, hrun, hleaves⟩ := (byte_instruction_result_iff oneByteAnswer copyEnv
    (BitVec.ofNat 256 1) (BitVec.ofNat 256 (2 ^ 240)) (copyingState [1, 2 ^ 240]) []
    (by decide)).mpr (.inl (by decide))
  exact ⟨s', path, hrun, hleaves.stack.trans (by decide)⟩

theorem byte_index_is_truncated :
    byteOf (BitVec.ofNat 256 (2 ^ 64)) (BitVec.ofNat 256 (2 ^ 248)) = 0 ∧
      ∃ s' path, runInstruction oneByteAnswer (opByte copyEnv) (copyingState [2 ^ 64, 2 ^ 248]) =
        .ok ((), s', path) ∧ s'.stack = [1] := by
  refine ⟨by decide, _, _, rfl, ?_⟩
  decide

end Sample

end Nxchain.Evm
