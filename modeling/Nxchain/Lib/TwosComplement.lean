import Mathlib.Data.BitVec
import Mathlib.Data.Int.Bitwise
import Mathlib.Data.Nat.Digits.Lemmas

namespace TwosComplement

theorem testBit_not (z : Int) (i : Nat) : (~~~z).testBit i = !z.testBit i := by
  cases z with
  | ofNat m => rfl
  | negSucc m => exact (Bool.not_not _).symm

theorem getLsbD_ofInt {n : Nat} (z : Int) (i : Nat) :
    (BitVec.ofInt n z).getLsbD i = (decide (i < n) && z.testBit i) := by
  cases z with
  | ofNat m => exact (congrArg (·.getLsbD i) (BitVec.ofInt_natCast n m)).trans (BitVec.getLsbD_ofNat n m i)
  | negSucc m =>
    rw [BitVec.ofInt_negSucc_eq_not_ofNat, BitVec.getLsbD_not, BitVec.getLsbD_ofNat]
    cases decide (i < n) <;> rfl

theorem testBit_coe_toNat {n : Nat} (x : BitVec n) (i : Nat) : ((x.toNat : Int)).testBit i = x.getLsbD i := rfl

theorem ofInt_toNat {n : Nat} (x : BitVec n) : BitVec.ofInt n x.toNat = x := by
  rw [BitVec.ofInt_natCast, BitVec.ofNat_toNat, BitVec.setWidth_eq]

theorem testBit_mask (n i : Nat) : ((2 : Int) ^ n - 1).testBit i = decide (i < n) := by
  have hmask : (2 : Int) ^ n - 1 = ((2 ^ n - 1 : Nat) : Int) := by
    rw [Nat.cast_sub Nat.one_le_two_pow]
    rfl
  rw [hmask]
  exact Nat.testBit_two_pow_sub_one n i

theorem land_mask (n : Nat) (z : Int) : Int.land z (2 ^ n - 1) = (BitVec.ofInt n z).toNat := by
  have hmask : (2 : Int) ^ n - 1 = Int.ofNat (2 ^ n - 1) := by
    rw [Int.ofNat_eq_natCast, Nat.cast_sub Nat.one_le_two_pow]
    rfl
  -- both sides are natural numbers, so they are compared bit by bit
  have hnat : ∃ m : Nat, Int.land z (2 ^ n - 1) = m := by
    rw [hmask]
    cases z with
    | ofNat m => exact ⟨_, rfl⟩
    | negSucc m => exact ⟨_, rfl⟩
  obtain ⟨m, hm⟩ := hnat
  rw [hm]
  refine congrArg Nat.cast (Nat.eq_of_testBit_eq fun i => ?_)
  calc m.testBit i = (Int.land z (2 ^ n - 1)).testBit i := by
        rw [hm]
        rfl
    _ = (decide (i < n) && z.testBit i) := by
        rw [Int.testBit_land, testBit_mask, Bool.and_comm]
    _ = (BitVec.ofInt n z).toNat.testBit i := (getLsbD_ofInt z i).symm

theorem ofInt_masked {n : Nat} (x : BitVec n) (bit : Nat) :
    BitVec.ofInt n (if x.getLsbD bit then Int.lor x.toNat (~~~(2 ^ bit - 1))
      else Int.land x.toNat (2 ^ bit - 1)) = (x.setWidth (bit + 1)).signExtend n := by
  have hmsb : (x.setWidth (bit + 1)).msb = x.getLsbD bit := by
    rw [BitVec.msb_eq_getLsbD_last]
    simp
  apply BitVec.eq_of_getLsbD_eq
  intro i hi
  rw [getLsbD_ofInt, BitVec.getLsbD_signExtend, hmsb]
  cases hbit : x.getLsbD bit with
  | true =>
    rw [if_pos rfl, Int.testBit_lor, testBit_not, testBit_mask, testBit_coe_toNat]
    by_cases hlt : i < bit
    · simp [hlt, Nat.lt_succ_of_lt hlt]
    · by_cases heq : i = bit
      · simp [heq, hbit]
      · have hgt : ¬i < bit + 1 := by omega
        simp [hlt, hgt]
  | false =>
    rw [if_neg Bool.false_ne_true, Int.testBit_land, testBit_mask, testBit_coe_toNat]
    by_cases hlt : i < bit
    · simp [hlt, Nat.lt_succ_of_lt hlt]
    · by_cases heq : i = bit
      · simp [heq, hbit]
      · have hgt : ¬i < bit + 1 := by omega
        simp [hlt, hgt]

theorem signExtend_setWidth {m n : Nat} (x : BitVec n) (h : n ≤ m) : (x.setWidth m).signExtend n = x := by
  apply BitVec.eq_of_getLsbD_eq
  intro i hi
  have him : i < m := hi.trans_le h
  rw [BitVec.getLsbD_signExtend, BitVec.getLsbD_setWidth, if_pos him, decide_eq_true hi,
    decide_eq_true him, Bool.true_and, Bool.true_and]

theorem tdiv_eq_abs {a b : Int} (hb : b ≠ 0) : a.tdiv b = if a.sign ≠ b.sign then -(|a| / |b|) else |a| / |b| := by
  obtain ⟨m, rfl | rfl⟩ := a.eq_nat_or_neg <;> obtain ⟨n, rfl | rfl⟩ := b.eq_nat_or_neg
  all_goals
    rcases Nat.eq_zero_or_pos m with rfl | hm
    · simp
    · have hsign : (m : Int).sign = 1 := Int.sign_eq_one_of_pos (by omega)
      have hsign' : (n : Int).sign = 1 := Int.sign_eq_one_of_pos (by omega)
      simp [hsign, hsign', Int.neg_tdiv, Int.tdiv_neg]

theorem tmod_eq_abs (a b : Int) : a.tmod b = if a.sign < 0 then -(|a| % |b|) else |a| % |b| := by
  have hrem : ∀ m n : Nat, (m : Int).tmod n = m % n := fun m n =>
    Int.tmod_eq_emod_of_nonneg (Int.natCast_nonneg m)
  obtain ⟨m, rfl | rfl⟩ := a.eq_nat_or_neg <;> obtain ⟨n, rfl | rfl⟩ := b.eq_nat_or_neg
  all_goals
    rcases Nat.eq_zero_or_pos m with rfl | hm
    · simp
    · have hsign : (m : Int).sign = 1 := Int.sign_eq_one_of_pos (by omega)
      simp [hrem, hsign, Int.tmod_neg]

section Powers

variable {M : Type} [Monoid M]

def squareMultiply : Nat → Nat → M × M → M × M
  | 0, _, (z, x) => (z, x)
  | rounds + 1, d, (z, x) => squareMultiply rounds (d / 2) (if d % 2 = 1 then z * x else z, x * x)

theorem squareMultiply_eq (rounds : Nat) :
    ∀ (d : Nat) (z x : M), squareMultiply rounds d (z, x) = (z * x ^ (d % 2 ^ rounds), x ^ 2 ^ rounds) := by
  induction rounds with
  | zero =>
    simp [squareMultiply, Nat.mod_one]
  | succ rounds ih =>
    intro d z x
    have hdigits : d % 2 ^ (rounds + 1) = d % 2 + 2 * (d / 2 % 2 ^ rounds) := by
      rw [pow_succ', Nat.mod_mul]
    have hbit : (if d % 2 = 1 then z * x else z) = z * x ^ (d % 2) := by
      rcases Nat.mod_two_eq_zero_or_one d with h | h <;> simp [h]
    rw [squareMultiply, ih, hbit, hdigits, ← pow_two, ← pow_mul, ← pow_mul, mul_assoc, ← pow_add, pow_succ']

theorem foldl_squareMultiply (rounds : Nat) (ds : List Nat) (hds : ∀ d ∈ ds, d < 2 ^ rounds) :
    ∀ z x : M, (ds.foldl (fun acc d => squareMultiply rounds d acc) (z, x)).1 =
      z * x ^ Nat.ofDigits (2 ^ rounds) ds := by
  induction ds with
  | nil =>
    simp
  | cons d ds ih =>
    intro z x
    have hd : d % 2 ^ rounds = d := Nat.mod_eq_of_lt (hds d List.mem_cons_self)
    rw [List.foldl_cons, squareMultiply_eq, ih fun e he => hds e (List.mem_cons_of_mem d he), hd,
      Nat.ofDigits_cons, pow_add, pow_mul, mul_assoc]

end Powers

end TwosComplement
