import Mathlib.Data.List.Perm.Basic

namespace Heap

variable {α : Type} {less : α → α → Prop}

structure Chooser (less : α → α → Prop) where
  first : List α → Option α
  mem_of_first {q : List α} {x : α} : first q = some x → x ∈ q
  least_of_first {q : List α} {x : α} : first q = some x → ∀ y ∈ q, ¬ less y x
  eq_nil_of_first {q : List α} : first q = none → q = []

namespace Chooser

variable (h : Chooser less)

theorem first_nil : h.first [] = none := by
  cases hfirst : h.first [] with
  | none => rfl
  | some x => exact absurd (h.mem_of_first hfirst) List.not_mem_nil

theorem first_eq_none_iff {q : List α} : h.first q = none ↔ q = [] :=
  ⟨h.eq_nil_of_first, fun hq => hq ▸ h.first_nil⟩

theorem exists_first {q : List α} {x : α} (hx : x ∈ q) : ∃ y, h.first q = some y := by
  cases hfirst : h.first q with
  | none => exact absurd (h.eq_nil_of_first hfirst ▸ hx) List.not_mem_nil
  | some y => exact ⟨y, rfl⟩

variable [DecidableEq α]

def drain (p : α → Bool) : Nat → List α → List α × List α
  | 0, q => ([], q)
  | fuel + 1, q =>
    match h.first q with
    | none => ([], q)
    | some x =>
      if p x then
        let (drained, rest) := drain p fuel (q.erase x)
        (x :: drained, rest)
      else ([], q)

theorem drain_spec (p : α → Bool) (fuel : Nat) (q : List α) :
    ((h.drain p fuel q).1 ++ (h.drain p fuel q).2).Perm q ∧ ∀ x ∈ (h.drain p fuel q).1, p x = true := by
  induction fuel generalizing q with
  | zero => exact ⟨.refl q, nofun⟩
  | succ fuel ih =>
    unfold drain
    cases hfirst : h.first q with
    | none => exact ⟨.refl q, nofun⟩
    | some x =>
      by_cases hp : p x = true
      · obtain ⟨hperm, hall⟩ := ih (q.erase x)
        simp only [hp, if_true, List.forall_mem_cons]
        exact ⟨(hperm.cons x).trans (List.perm_cons_erase (h.mem_of_first hfirst)).symm, trivial, hall⟩
      · simp only [hp]
        exact ⟨.refl q, nofun⟩

theorem drain_snd {p : α → Bool} (hp : ∀ x y, p x = false → ¬ less y x → p y = false) {fuel : Nat} {q : List α}
    (hfuel : q.length ≤ fuel) : ∀ x ∈ (h.drain p fuel q).2, p x = false := by
  induction fuel generalizing q with
  | zero =>
    rw [List.length_eq_zero_iff.mp (Nat.le_zero.mp hfuel)]
    simp [drain]
  | succ fuel ih =>
    unfold drain
    cases hfirst : h.first q with
    | none => simp [h.eq_nil_of_first hfirst]
    | some x =>
      by_cases hpx : p x = true
      · simp only [hpx]
        refine ih ?_
        rw [List.length_erase_of_mem (h.mem_of_first hfirst)]
        omega
      · simp only [hpx]
        exact fun y hy => hp x y (by simpa using hpx) (h.least_of_first hfirst y hy)

end Chooser

section Leftmost

variable [DecidableRel less]

def leftmost (less : α → α → Prop) [DecidableRel less] : List α → Option α
  | [] => none
  | x :: q =>
    match leftmost less q with
    | none => some x
    | some y => if less y x then some y else some x

theorem leftmost_eq_none {q : List α} (hq : leftmost less q = none) : q = [] := by
  cases q with
  | nil => rfl
  | cons x q =>
    unfold leftmost at hq
    split at hq <;> grind

theorem leftmost_cons {x y : α} {q : List α} (h : leftmost less (x :: q) = some y) :
    (leftmost less q = some y ∧ less y x) ∨ (y = x ∧ ∀ z, leftmost less q = some z → ¬ less z x) := by
  rw [leftmost] at h
  grind

theorem leftmost_mem {q : List α} {x : α} (hx : leftmost less q = some x) : x ∈ q := by
  induction q with
  | nil => cases hx
  | cons y q ih =>
    rcases leftmost_cons hx with ⟨hq, _⟩ | ⟨rfl, _⟩
    · exact List.mem_cons_of_mem _ (ih hq)
    · exact List.mem_cons_self

theorem leftmost_least (hirrefl : ∀ x, ¬ less x x) (htrans : ∀ x y z, ¬ less x y → ¬ less y z → ¬ less x z)
    (hasymm : ∀ x y, less x y → ¬ less y x) {q : List α} {x : α} (hx : leftmost less q = some x) :
    ∀ y ∈ q, ¬ less y x := by
  induction q generalizing x with
  | nil => cases hx
  | cons y q ih =>
    rw [List.forall_mem_cons]
    rcases leftmost_cons hx with ⟨hq, hless⟩ | ⟨rfl, hall⟩
    · exact ⟨hasymm _ _ hless, ih hq⟩
    · refine ⟨hirrefl x, fun w hw => ?_⟩
      cases hq : leftmost less q with
      | none => exact nomatch leftmost_eq_none hq ▸ hw
      | some z => exact htrans w z x (ih hq w hw) (hall z hq)

def Chooser.ofOrder (less : α → α → Prop) [DecidableRel less] (hirrefl : ∀ x, ¬ less x x)
    (htrans : ∀ x y z, ¬ less x y → ¬ less y z → ¬ less x z)
    (hasymm : ∀ x y, less x y → ¬ less y x) : Chooser less where
  first := leftmost less
  mem_of_first := leftmost_mem
  least_of_first := leftmost_least hirrefl htrans hasymm
  eq_nil_of_first := leftmost_eq_none

end Leftmost

end Heap
