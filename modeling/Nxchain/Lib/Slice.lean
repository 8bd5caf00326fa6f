import Mathlib.Data.List.Basic

namespace Slice

variable {α : Type}

def copyTo (b : List α) (start : Nat) (src : List α) : List α :=
  b.take start ++ src ++ b.drop (start + src.length)

theorem copyTo_append {front : List α} {start : Nat} (hfront : front.length = start) (tail src : List α) :
    copyTo (front ++ tail) start src = front ++ src ++ tail.drop src.length := by
  subst hfront
  simp only [copyTo, List.take_left', List.drop_append, List.drop_of_length_le (Nat.le_add_right _ _),
    List.nil_append, Nat.add_sub_cancel_left]

theorem length_copyTo {b src : List α} {start : Nat} (h : start + src.length ≤ b.length) :
    (copyTo b start src).length = b.length := by
  simp only [copyTo, List.length_append, List.length_take, List.length_drop]
  omega

theorem take_copyTo {b : List α} {start : Nat} (hstart : start ≤ b.length) (src : List α) :
    (copyTo b start src).take (start + src.length) = b.take start ++ src := by
  exact List.take_left' (by rw [List.length_append, List.length_take_of_le hstart])

end Slice
