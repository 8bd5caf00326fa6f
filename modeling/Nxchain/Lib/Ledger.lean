import Mathlib.Data.ZMod.Basic
import Mathlib.Tactic.Abel

namespace Ledger

variable {α M : Type}

structure State (α M : Type) where
  incoming : Multiset α
  held : Multiset α
  uncounted : Multiset α
  owed : Multiset α
  level : M

section Moves

variable [AddCommGroup M]

inductive Move (weight : α → M) (admits : α → Prop) :
    State α M → Multiset α → Multiset α → State α M → Prop
  | idle (s : State α M) : Move weight admits s 0 0 s
  | accept (s : State α M) (x) (hx : admits x) :
      Move weight admits s 0 0 { s with incoming := x ::ₘ s.incoming }
  | abandon (s : State α M) (x) : Move weight admits { s with incoming := x ::ₘ s.incoming } 0 0 s
  | arrive (s : State α M) (x) : Move weight admits { s with incoming := x ::ₘ s.incoming } 0 0
      { s with held := x ::ₘ s.held, uncounted := x ::ₘ s.uncounted }
  | count (s : State α M) (x) : Move weight admits { s with uncounted := x ::ₘ s.uncounted } 0 0
      { s with level := s.level + weight x }
  | leave (s : State α M) (d) :
      Move weight admits { s with held := d + s.held } d 0 { s with owed := d + s.owed }
  | settle (s : State α M) (d) : Move weight admits { s with owed := d + s.owed } 0 d
      { s with level := s.level - (d.map weight).sum }
  | expel (s : State α M) (d) : Move weight admits { s with held := d + s.held } d d
      { s with level := s.level - (d.map weight).sum }

variable {weight : α → M} {admits : α → Prop} {s s' : State α M} {left released : Multiset α}

variable (h : Move weight admits s left released s')

include h

theorem Move.mono {admits' : α → Prop} (hadmits : ∀ x, admits x → admits' x) :
    Move weight admits' s left released s' := by
  cases h with
  | accept _ x hx => exact .accept _ x (hadmits x hx)
  | _ => constructor

def Balanced (weight : α → M) (s : State α M) : Prop :=
  s.level + (s.uncounted.map weight).sum = (s.held.map weight).sum + (s.owed.map weight).sum

theorem Move.balanced (hs : Balanced weight s) : Balanced weight s' := by
  unfold Balanced at hs ⊢
  cases h with
  | arrive =>
    simp only [Multiset.map_cons, Multiset.sum_cons]
    rw [add_left_comm, hs, add_assoc]
  | count =>
    simp only [Multiset.map_cons, Multiset.sum_cons] at hs
    rw [← hs, add_assoc]
  | leave =>
    simp only [Multiset.map_add, Multiset.sum_add] at hs ⊢
    rw [hs]
    abel
  | settle | expel =>
    simp only [Multiset.map_add, Multiset.sum_add] at hs
    rw [sub_add_eq_add_sub, hs]
    abel
  | _ => exact hs

theorem Move.released_add_owed : released + s'.owed = left + s.owed := by
  cases h <;> simp

theorem Move.level_add [DecidableEq α] :
    s'.level + (released.map weight).sum =
      s.level + ((s.uncounted - s'.uncounted).map weight).sum := by
  cases h with
  | arrive => simp [tsub_eq_zero_of_le (Multiset.le_cons_self _ _)]
  | count s x => simp [← Multiset.singleton_add]
  | _ => simp

theorem Move.left_eq [DecidableEq α] : left = s.held - s'.held := by
  cases h with
  | arrive => exact (tsub_eq_zero_of_le (Multiset.le_cons_self _ _)).symm
  | _ => simp

end Moves

section Capacity

variable {n : Nat} {size : α → Nat} {admits : α → Prop} {s s' : State α (ZMod n)}
  {left released : Multiset α}

def committed (size : α → Nat) (s : State α M) : Nat :=
  (s.incoming.map size).sum + (s.held.map size).sum + (s.owed.map size).sum

theorem Move.committed_le (h : Move (fun x => (size x : ZMod n)) admits s left released s') {capacity : Nat}
    (hs : committed size s ≤ capacity) (hadmits : ∀ x, admits x → committed size s + size x ≤ capacity) :
    committed size s' ≤ capacity := by
  cases h with
  | accept s x hx =>
    have hfits := hadmits x hx
    simp only [committed, Multiset.map_cons, Multiset.sum_cons] at hfits ⊢
    omega
  | _ =>
    simp only [committed, Multiset.map_cons, Multiset.sum_cons, Multiset.map_add, Multiset.sum_add] at hs ⊢
    omega

theorem Move.uncounted_le [DecidableEq α] (h : Move (fun x => (size x : ZMod n)) admits s left released s')
    (hs : s.uncounted ≤ s.held) (hleft : ∀ x ∈ left, x ∉ s.uncounted) : s'.uncounted ≤ s'.held := by
  have hremove : ∀ {held d : Multiset α}, s.uncounted ≤ d + held → (∀ x ∈ d, x ∉ s.uncounted) →
      s.uncounted ≤ held := by
    intro held d hle hd
    rw [Multiset.le_iff_count] at hle ⊢
    intro x
    by_cases hx : x ∈ d
    · rw [Multiset.count_eq_zero_of_notMem (hd x hx)]
      exact Nat.zero_le _
    · have hcount := hle x
      rwa [Multiset.count_add, Multiset.count_eq_zero_of_notMem hx, zero_add] at hcount
  cases h with
  | arrive => exact Multiset.cons_le_cons _ hs
  | count => exact (Multiset.le_cons_self _ _).trans hs
  | leave | expel => exact hremove hs hleft
  | _ => exact hs

theorem level_add_uncounted {level capacity : Nat} (hlevel : s.level = level) (hlt : level < n)
    (hcapacity : capacity < n) (hbalanced : Balanced (fun x => (size x : ZMod n)) s)
    (huncounted : s.uncounted ≤ s.held) (hcommitted : committed size s ≤ capacity) :
    level + (s.uncounted.map size).sum = (s.held.map size).sum + (s.owed.map size).sum := by
  have hcast : ∀ d : Multiset α, (d.map fun x => (size x : ZMod n)).sum = (((d.map size).sum : Nat) : ZMod n) := by
    intro d
    rw [← Nat.coe_castAddMonoidHom, map_multiset_sum, Multiset.map_map]
    rfl
  obtain ⟨counted, hcounted⟩ := Multiset.le_iff_exists_add.mp huncounted
  unfold Balanced at hbalanced
  unfold committed at hcommitted
  rw [hlevel, hcast, hcast, hcast, hcounted, Multiset.map_add, Multiset.sum_add, Nat.cast_add,
    add_comm ((_ : Nat) : ZMod n), add_assoc, add_left_cancel_iff, ← Nat.cast_add,
    ZMod.natCast_eq_natCast_iff'] at hbalanced
  rw [hcounted, Multiset.map_add, Multiset.sum_add] at hcommitted ⊢
  rw [Nat.mod_eq_of_lt hlt, Nat.mod_eq_of_lt (by omega)] at hbalanced
  omega

end Capacity

end Ledger
