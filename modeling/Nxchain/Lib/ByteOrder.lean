import Nxchain.Lib.Rlp

namespace Rlp

theorem compare_append {α : Type} [Ord α] {a b : List α} (h : a.length = b.length) (c d : List α) :
    compare (a ++ c) (b ++ d) = (compare a b).then (compare c d) := by
  induction a generalizing b with
  | nil =>
    rw [List.eq_nil_of_length_eq_zero h.symm]
    rfl
  | cons x a ih =>
    cases b with
    | nil => cases h
    | cons y b =>
      rw [List.cons_append, List.cons_append, List.compare_cons_cons, List.compare_cons_cons,
        ih (Nat.succ.inj h), Ordering.then_assoc]

theorem ofBigEndian_append (a b : List UInt8) :
    ofBigEndian (a ++ b) = ofBigEndian b + 256 ^ b.length * ofBigEndian a := by
  simp only [ofBigEndian, List.reverse_append, List.map_append, Nat.ofDigits_append, List.length_map,
    List.length_reverse]

theorem ofBigEndian_take (b : List UInt8) (k : Nat) :
    ofBigEndian (b.take k) = ofBigEndian b / 256 ^ (b.length - k) := by
  have happend := ofBigEndian_append (b.take k) (b.drop k)
  rw [List.take_append_drop, List.length_drop] at happend
  have hlow : ofBigEndian (b.drop k) < 256 ^ (b.length - k) := ofBigEndian_lt List.length_drop.le
  rw [happend, Nat.add_mul_div_left _ _ (by positivity), Nat.div_eq_of_lt hlow, Nat.zero_add]

theorem compare_add_mul {m x y a b : Nat} (ha : a < m) (hb : b < m) :
    compare (a + m * x) (b + m * y) = (compare x y).then (compare a b) := by
  rcases lt_trichotomy x y with hlt | rfl | hgt
  · have hmul := Nat.mul_le_mul_left m (Nat.succ_le_of_lt hlt)
    rw [Nat.mul_succ] at hmul
    rw [Nat.compare_eq_lt.mpr hlt, Nat.compare_eq_lt.mpr (by omega)]
    rfl
  · rw [Nat.compare_eq_eq.mpr rfl, Nat.compare_eq_ite_lt, Nat.compare_eq_ite_lt]
    simp only [Nat.add_lt_add_iff_right, Ordering.eq_then]
  · have hmul := Nat.mul_le_mul_left m (Nat.succ_le_of_lt hgt)
    rw [Nat.mul_succ] at hmul
    rw [Nat.compare_eq_gt.mpr hgt, Nat.compare_eq_gt.mpr (by omega)]
    rfl

theorem compare_of_length_eq {a b : List UInt8} (h : a.length = b.length) :
    compare a b = compare (ofBigEndian a) (ofBigEndian b) := by
  induction a generalizing b with
  | nil =>
    rw [List.eq_nil_of_length_eq_zero h.symm]
    rfl
  | cons x a ih =>
    cases b with
    | nil => cases h
    | cons y b =>
      have hlength : a.length = b.length := Nat.succ.inj h
      rw [List.compare_cons_cons, ih hlength, ofBigEndian_cons, ofBigEndian_cons, hlength,
        compare_add_mul (ofBigEndian_lt hlength.le) (ofBigEndian_lt le_rfl), UInt8.compare_eq_toNat_compare_toNat]

theorem compare_eq_lt_iff_of_length_lt {a b : List UInt8} (h : a.length < b.length) :
    compare a b = .lt ↔ ofBigEndian a ≤ ofBigEndian b / 256 ^ (b.length - a.length) := by
  have hlength : a.length = (b.take a.length).length := (List.length_take_of_le h.le).symm
  have happend := compare_append hlength [] (b.drop a.length)
  rw [List.append_nil, List.take_append_drop, compare_of_length_eq hlength, ofBigEndian_take] at happend
  have hrest : compare [] (b.drop a.length) = .lt := by
    cases hdrop : b.drop a.length with
    | nil => exact absurd (List.drop_eq_nil_iff.mp hdrop) (by omega)
    | cons x rest => rfl
  rw [happend, hrest, Ordering.then_eq_lt, Nat.compare_eq_lt, Nat.compare_eq_eq, le_iff_lt_or_eq]
  simp only [and_true]

theorem compare_eq_lt_iff_of_lt_length {a b : List UInt8} (h : b.length < a.length) :
    compare a b = .lt ↔ ofBigEndian a / 256 ^ (a.length - b.length) < ofBigEndian b := by
  have hlength : (a.take b.length).length = b.length := List.length_take_of_le h.le
  have happend := compare_append hlength (a.drop b.length) []
  rw [List.append_nil, List.take_append_drop, compare_of_length_eq hlength, ofBigEndian_take] at happend
  have hrest : compare (a.drop b.length) [] = .gt := by
    cases hdrop : a.drop b.length with
    | nil => exact absurd (List.drop_eq_nil_iff.mp hdrop) (by omega)
    | cons x rest => rfl
  rw [happend, hrest, Ordering.then_eq_lt, Nat.compare_eq_lt]
  simp

end Rlp
