import Nxchain.TxSigner
import Nxchain.Lib.ByteOrder
import Nxchain.Lib.Except

namespace Nxchain.TxSigner

def groupOrder : Nat := 0xfffffffffffffffffffffffffffffffebaaedce6af48a03bbfd25e8cd0364141

def Comparable (x : Nat) : Prop :=
  ((Rlp.bigEndian x).length < 32 → x ≤ groupOrder / 256 ^ (32 - (Rlp.bigEndian x).length)) ∧
    (32 < (Rlp.bigEndian x).length → groupOrder ≤ x / 256 ^ ((Rlp.bigEndian x).length - 32))

def InRange (x : Nat) : Prop := 1 ≤ x ∧ x < groupOrder

def ValidValues (v : UInt8) (r s : Nat) : Prop :=
  (v = 0 ∨ v = 1) ∧ InRange r ∧ InRange s

def Judged (v : UInt8) (r s : Nat) : Prop :=
  1 < v ∨ Comparable r ∧ Comparable s ∨ Comparable r ∧ ¬ InRange r ∨ Comparable s ∧ ¬ InRange s
    ∨ ¬ Comparable r ∧ ¬ Comparable s
      ∧ ((Rlp.bigEndian r).length < 32 ∧ 32 < (Rlp.bigEndian s).length
        ∨ 32 < (Rlp.bigEndian r).length ∧ (Rlp.bigEndian s).length < 32)

instance (x : Nat) : Decidable (Comparable x) := inferInstanceAs (Decidable (_ ∧ _))

instance (x : Nat) : Decidable (InRange x) := inferInstanceAs (Decidable (_ ∧ _))

instance (v : UInt8) (r s : Nat) : Decidable (ValidValues v r s) := inferInstanceAs (Decidable (_ ∧ _))

theorem ofBigEndian_secp256k1N : Rlp.ofBigEndian secp256k1N = groupOrder := by decide +kernel

theorem trimLeftZeros_eq_self {b : Bytes} (h : b.head? ≠ some 0) : trimLeftZeros b = b := by
  match b with
  | [] => rfl
  | [x] => rfl
  | x :: y :: b =>
    rw [List.head?_cons, ne_eq, Option.some.injEq] at h
    rw [trimLeftZeros, if_pos h]

theorem head_bigEndian_ne_zero (x : Nat) : (Rlp.bigEndian x).head? ≠ some 0 :=
  Rlp.bigEndian_ofBigEndian_eq_self_iff.mp (congrArg Rlp.bigEndian (Rlp.ofBigEndian_bigEndian x))

theorem bigEndian_lt_one_iff (x : Nat) : compare (Rlp.bigEndian x) one = .lt ↔ x = 0 := by
  have hx := Rlp.ofBigEndian_bigEndian x
  rcases hbytes : Rlp.bigEndian x with _ | ⟨y, b⟩
  · rw [hbytes] at hx
    exact iff_of_true rfl hx.symm
  · have hy : y ≠ 0 := fun hy => head_bigEndian_ne_zero x (by rw [hbytes, hy, List.head?_cons])
    have hpos : 0 < y.toNat := Nat.pos_of_ne_zero fun h => hy (UInt8.toNat_inj.mp h)
    rw [hbytes, Rlp.ofBigEndian_cons] at hx
    have hleading : 0 < 256 ^ b.length * y.toNat := by positivity
    refine iff_of_false (fun hlt => ?_) (by omega)
    rw [one, List.compare_cons_cons, UInt8.compare_eq_toNat_compare_toNat, Ordering.then_eq_lt,
      Nat.compare_eq_lt] at hlt
    rcases hlt with hlt | ⟨_, hlt⟩
    · exact absurd hlt (not_lt.mpr hpos)
    · cases b <;> cases hlt

theorem bigEndian_lt_secp256k1N_iff {x : Nat} (h : Comparable x) :
    compare (Rlp.bigEndian x) secp256k1N = .lt ↔ x < groupOrder := by
  have hx := Rlp.ofBigEndian_bigEndian x
  rcases lt_trichotomy (Rlp.bigEndian x).length 32 with hshort | hequal | hlong
  · rw [Rlp.compare_eq_lt_iff_of_length_lt hshort, hx]
    have hpow : 1 < 256 ^ (32 - (Rlp.bigEndian x).length) := Nat.one_lt_pow (by omega) (by norm_num)
    exact iff_of_true (h.1 hshort) ((h.1 hshort).trans_lt (Nat.div_lt_self (by decide) hpow))
  · rw [Rlp.compare_of_length_eq hequal, hx, ofBigEndian_secp256k1N, Nat.compare_eq_lt]
  · rw [Rlp.compare_eq_lt_iff_of_lt_length (b := secp256k1N) hlong, hx]
    exact iff_of_false (not_lt.mpr (h.2 hlong)) (not_lt.mpr ((h.2 hlong).trans (Nat.div_le_self _ _)))

theorem outOfRange_eq_false (x : Nat) :
    outOfRange x = false ↔ x ≠ 0 ∧ compare (Rlp.bigEndian x) secp256k1N = .lt := by
  have htrim : trimLeftZeros (bytes x) = Rlp.bigEndian x :=
    trimLeftZeros_eq_self (head_bigEndian_ne_zero x)
  rw [outOfRange, htrim, Bool.or_eq_false_iff, ne_eq, ← bigEndian_lt_one_iff]
  cases compare (Rlp.bigEndian x) one <;> cases compare (Rlp.bigEndian x) secp256k1N <;> decide

theorem outOfRange_iff_of_comparable {x : Nat} (h : Comparable x) :
    outOfRange x = false ↔ InRange x := by
  rw [outOfRange_eq_false, bigEndian_lt_secp256k1N_iff h, InRange, Nat.one_le_iff_ne_zero]

theorem misjudged_of_not_comparable {x : Nat} (h : ¬ Comparable x) :
    (Rlp.bigEndian x).length < 32 ∧ outOfRange x = true ∧ InRange x
      ∨ 32 < (Rlp.bigEndian x).length ∧ outOfRange x = false ∧ ¬ InRange x := by
  have hx := Rlp.ofBigEndian_bigEndian x
  have hfits : groupOrder < 256 ^ 32 := by decide
  rw [Comparable, not_and_or, Classical.not_imp, Classical.not_imp, not_le, not_le] at h
  rcases h with ⟨hshort, hlarge⟩ | ⟨hlong, hsmall⟩
  · refine Or.inl ⟨hshort, ?_, Nat.one_le_of_lt hlarge, ?_⟩
    · rw [← Bool.not_eq_false, outOfRange_eq_false, Rlp.compare_eq_lt_iff_of_length_lt hshort, hx]
      exact fun hle => absurd hle.2 (not_le.mpr hlarge)
    · calc x < 256 ^ 31 := hx ▸ Rlp.ofBigEndian_lt (Nat.le_of_lt_succ hshort)
        _ < groupOrder := by decide
  · have hwide : 256 ^ 32 ≤ x := by
      by_contra hlt
      exact absurd (Rlp.length_bigEndian_le (not_le.mp hlt)) (not_le.mpr hlong)
    refine Or.inr ⟨hlong, ?_, fun hrange => by have := hrange.2; omega⟩
    rw [outOfRange_eq_false, Rlp.compare_eq_lt_iff_of_lt_length (b := secp256k1N) hlong, hx]
    exact ⟨by omega, hsmall⟩

theorem validateSignatureValues_eq (v : UInt8) (r s : Nat) :
    validateSignatureValues v (some r) (some s)
      ↔ ¬ 1 < v ∧ outOfRange r = false ∧ outOfRange s = false := by
  rw [validateSignatureValues]
  split_ifs <;> simp_all

theorem validValues_iff (v : UInt8) (r s : Nat) :
    ValidValues v r s ↔ ¬ 1 < v ∧ InRange r ∧ InRange s := by
  have hv : ¬ 1 < v ↔ v = 0 ∨ v = 1 := by
    simp only [UInt8.lt_iff_toNat_lt, ← UInt8.toNat_inj, UInt8.toNat_one, UInt8.toNat_zero]
    omega
  rw [ValidValues, hv]

theorem validateSignatureValues_iff (v : UInt8) (r s : Nat) :
    (validateSignatureValues v (some r) (some s) ↔ ValidValues v r s) ↔ Judged v r s := by
  rw [validateSignatureValues_eq, validValues_iff, Judged]
  by_cases hv : 1 < v
  · simp [hv]
  by_cases hr : Comparable r <;> by_cases hs : Comparable s
  · simp [hr, hs, outOfRange_iff_of_comparable]
  · obtain ⟨_, hout, hin⟩ | ⟨_, hout, hin⟩ := misjudged_of_not_comparable hs
    · simp [hv, hr, hs, outOfRange_iff_of_comparable hr, hout, hin]
    · simp [hv, hr, hs, outOfRange_iff_of_comparable hr, hout, hin]
  · obtain ⟨_, hout, hin⟩ | ⟨_, hout, hin⟩ := misjudged_of_not_comparable hr
    · simp [hv, hr, hs, outOfRange_iff_of_comparable hs, hout, hin]
    · simp [hv, hr, hs, outOfRange_iff_of_comparable hs, hout, hin]
  · obtain ⟨hlength, hout, hin⟩ | ⟨hlength, hout, hin⟩ := misjudged_of_not_comparable hr <;>
      obtain ⟨hlength', hout', hin'⟩ | ⟨hlength', hout', hin'⟩ := misjudged_of_not_comparable hs <;>
      simp [hv, hr, hs, hout, hin, hout', hin', hlength, hlength', not_lt.mpr hlength.le,
        not_lt.mpr hlength'.le]

theorem copyUpTo_field (before after : Bytes) {data : Bytes} {n hi : Nat} (hhi : hi = before.length + n)
    (hdata : data.length ≤ n) :
    copyUpTo (before ++ List.replicate n 0 ++ after) hi data = .ok (before ++ data.leftpad n 0 ++ after) := by
  subst hhi
  have hfield : (before ++ List.replicate n (0 : UInt8)).length = before.length + n := by simp
  have htake : (before ++ List.replicate n (0 : UInt8) ++ after).take (before.length + n - data.length) =
      before ++ List.replicate (n - data.length) 0 := by
    rw [Nat.add_sub_assoc hdata, List.append_assoc, List.take_length_add_append,
      List.take_append_of_le_length (by simp), List.take_replicate, Nat.min_eq_left (Nat.sub_le _ _)]
  rw [copyUpTo, if_pos ⟨by omega, by rw [List.length_append, hfield]; omega⟩, htake, List.drop_left' hfield,
    List.leftpad, List.append_assoc before]

theorem setByte_last (sig : Bytes) (x y : UInt8) {i : Nat} (hi : i = sig.length) :
    setByte (sig ++ [x]) i y = .ok (sig ++ [y]) := by
  rw [setByte, if_pos (by simp [hi]), hi, List.set_append_right _ _ le_rfl, Nat.sub_self]
  rfl

theorem encodeSignature_eq_ok {v : UInt8} {r s : Nat} (hvalid : validateSignatureValues v (some r) (some s))
    (hr : r < groupOrder) (hs : s < groupOrder) :
    encodeSignature (some r) (some s) v = .ok
      ((Rlp.bigEndian r).leftpad 32 0 ++ (Rlp.bigEndian s).leftpad 32 0 ++ [v]) := by
  have hfits : groupOrder < 256 ^ 32 := by decide
  have hr : (bytes r).length ≤ 32 := Rlp.length_bigEndian_le (hr.trans hfits)
  have hs : (bytes s).length ≤ 32 := Rlp.length_bigEndian_le (hs.trans hfits)
  have hfilled : ∀ {b : Bytes}, b.length ≤ 32 → (b.leftpad 32 0).length = 32 := fun h => by
    rw [List.length_leftpad, Nat.max_eq_left h]
  have hfirst : copyUpTo (List.replicate 65 0) 32 (bytes r) =
      .ok ((bytes r).leftpad 32 0 ++ List.replicate 32 0 ++ [0]) := by
    rw [List.append_assoc]
    exact copyUpTo_field [] (List.replicate 32 0 ++ [0]) rfl hr
  have hsecond := copyUpTo_field ((bytes r).leftpad 32 0) [0] (congrArg (· + 32) (hfilled hr).symm) hs
  have hlast := setByte_last ((bytes r).leftpad 32 0 ++ (bytes s).leftpad 32 0) 0 v
    (by rw [List.length_append, hfilled hr, hfilled hs])
  rw [encodeSignature, hvalid]
  exact Except.bind_eq_ok hfirst (Except.bind_eq_ok hsecond hlast)

theorem signature_values_are_range_checked_iff (v : UInt8) (r s : Nat) :
    ((validateSignatureValues v (some r) (some s) ↔ ValidValues v r s)
      ∧ encodeSignature (some r) (some s) v =
        if ValidValues v r s then
          .ok ((Rlp.bigEndian r).leftpad 32 0 ++ (Rlp.bigEndian s).leftpad 32 0 ++ [v])
        else .error (.error "invalid txn signature")) ↔ Judged v r s := by
  rw [← validateSignatureValues_iff]
  refine and_iff_left_of_imp fun hiff => ?_
  split_ifs with hvalid
  · exact encodeSignature_eq_ok (hiff.mpr hvalid) hvalid.2.1.2 hvalid.2.2.2
  · rw [encodeSignature, if_pos (by simpa using mt hiff.mp hvalid)]

theorem range_check_ignores_length :
    validateSignatureValues 0 (some (2 ^ 256)) (some 1) = true ∧
      encodeSignature (some (2 ^ 256)) (some 1) 0 = .error (.panic .indexOutOfRange) ∧
      validateSignatureValues 0 (some (2 ^ 248 - 1)) (some 1) = false ∧ ValidValues 0 (2 ^ 248 - 1) 1 := by
  decide +kernel

end Nxchain.TxSigner
