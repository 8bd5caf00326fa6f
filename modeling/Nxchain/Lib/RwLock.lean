import Mathlib.Data.Finset.Card

structure RwLock where
  readers : Nat
  writer : Bool
deriving DecidableEq

namespace RwLock

def free : RwLock := ⟨0, false⟩

def acquire (m : RwLock) (write : Bool) : Option RwLock :=
  if m.writer then none
  else if write then (if m.readers = 0 then some { m with writer := true } else none)
  else some { m with readers := m.readers + 1 }

def release (m : RwLock) (write : Bool) : Option RwLock :=
  if write then (if m.writer then some { m with writer := false } else none)
  else if m.readers = 0 then none
  else some { m with readers := m.readers - 1 }

variable {τ : Type} [DecidableEq τ]

inductive Holders (τ : Type) where
  | readers (threads : Finset τ)
  | writer (thread : τ)

def Holders.mode : Holders τ → τ → Option Bool
  | readers threads, t => if t ∈ threads then some false else none
  | writer thread, t => if t = thread then some true else none

def Agrees (m : RwLock) : Holders τ → Prop
  | .readers threads => m.readers = threads.card ∧ m.writer = false
  | .writer _ => m.readers = 0 ∧ m.writer = true

omit [DecidableEq τ] in
theorem agrees_free : free.Agrees (.readers (∅ : Finset τ)) := ⟨rfl, rfl⟩

variable {m : RwLock} {held : Holders τ} {t u : τ} {write : Bool}

namespace Holders

theorem mode_readers_eq_some {threads : Finset τ} :
    (readers threads).mode t = some write ↔ t ∈ threads ∧ write = false := by
  by_cases ht : t ∈ threads
  · simp [mode, eq_comm]
  · simp [mode]

theorem mode_writer_eq_some {thread : τ} : (writer thread).mode t = some write ↔ t = thread ∧ write = true := by
  by_cases ht : t = thread
  · simp [mode, eq_comm]
  · simp [mode]

theorem eq_of_mode_writer (ht : held.mode t = some true) (hu : held.mode u = some write) : u = t := by
  cases held with
  | readers threads => exact absurd (mode_readers_eq_some.mp ht).2 nofun
  | writer thread => rw [(mode_writer_eq_some.mp hu).1, (mode_writer_eq_some.mp ht).1]

end Holders

theorem acquire_agrees (h : m.Agrees held) (hnone : held.mode t = none) {m' : RwLock}
    (hacquire : m.acquire write = some m') :
    ∃ held' : Holders τ, m'.Agrees held' ∧ held'.mode = Function.update held.mode t (some write) := by
  cases held with
  | writer thread => simp [acquire, h.2] at hacquire
  | readers threads =>
    have ht : t ∉ threads := by
      intro hmem
      simp [Holders.mode, hmem] at hnone
    cases write with
    | false =>
      simp only [acquire, h.2] at hacquire
      obtain rfl := Option.some.inj hacquire
      refine ⟨.readers (insert t threads), ⟨?_, rfl⟩, ?_⟩
      · rw [Finset.card_insert_of_notMem ht, h.1]
      · funext x
        by_cases hx : x = t <;> simp [Holders.mode, hx]
    | true =>
      simp only [acquire, h.2, Bool.false_eq_true, if_false, if_true] at hacquire
      split_ifs at hacquire with hzero
      obtain rfl := Option.some.inj hacquire
      have hempty : threads = ∅ := Finset.card_eq_zero.mp (h.1.symm.trans hzero)
      refine ⟨.writer t, ⟨hzero, rfl⟩, ?_⟩
      funext x
      by_cases hx : x = t <;> simp [Holders.mode, hempty, hx]

theorem release_agrees (h : m.Agrees held) (hmode : held.mode t = some write) :
    ∃ m', m.release write = some m' ∧
      ∃ held' : Holders τ, m'.Agrees held' ∧ held'.mode = Function.update held.mode t none := by
  cases held with
  | readers threads =>
    obtain ⟨ht, rfl⟩ := Holders.mode_readers_eq_some.mp hmode
    have hpos : m.readers ≠ 0 := by
      rw [h.1]
      exact Finset.card_ne_zero_of_mem ht
    refine ⟨{ m with readers := m.readers - 1 }, by simp [release, hpos], .readers (threads.erase t),
      ⟨?_, h.2⟩, ?_⟩
    · rw [Finset.card_erase_of_mem ht, h.1]
    · funext x
      by_cases hx : x = t <;> simp [Holders.mode, hx]
  | writer thread =>
    obtain ⟨rfl, rfl⟩ := Holders.mode_writer_eq_some.mp hmode
    refine ⟨{ m with writer := false }, by simp [release, h.2], .readers ∅, ⟨h.1, rfl⟩, ?_⟩
    funext x
    by_cases hx : x = t <;> simp [Holders.mode, hx]

end RwLock
