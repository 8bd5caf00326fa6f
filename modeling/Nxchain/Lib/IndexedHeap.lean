import Mathlib.Data.List.Nodup
import Mathlib.Data.List.Perm.Subperm
import Mathlib.Order.Basic
import Nxchain.Lib.SwapHeap

structure IndexField (β : Type) where
  get : β → Option Nat
  set : β → Option Nat → β
  get_set : ∀ b index, get (set b index) = index
  set_set : ∀ b index index', set (set b index) index' = set b index'

structure Pointers (ρ β : Type) where
  entries : List ρ
  cell : ρ → β

namespace Pointers

variable {ρ β : Type} {f : IndexField β} {t u : Pointers ρ β} {xs : List ρ} {r x : ρ} {i j : Nat}

def Indexed (f : IndexField β) (t : Pointers ρ β) : Prop :=
  ∀ r i, f.get (t.cell r) = some i ↔ t.entries[i]? = some r

structure Changes (f : IndexField β) (t u : Pointers ρ β) (xs : List ρ) : Prop where
  indexed : u.Indexed f
  perm : u.entries.Perm xs
  same : ∀ r, f.set (u.cell r) none = f.set (t.cell r) none

namespace Indexed

variable (ht : t.Indexed f)

include ht

theorem changes : Changes f t t t.entries := ⟨ht, .refl _, fun _ => rfl⟩

theorem mem_iff : r ∈ t.entries ↔ f.get (t.cell r) ≠ none := by
  rw [List.mem_iff_getElem?, Option.ne_none_iff_exists']
  exact exists_congr fun i => (ht r i).symm

theorem nodup : t.entries.Nodup := by
  rw [List.nodup_iff_getElem?_ne_getElem?]
  intro i j hij hj heq
  have hentry : t.entries[j]? = some t.entries[j] := List.getElem?_eq_getElem hj
  have hi := (ht _ i).mpr (heq.trans hentry)
  exact absurd (Option.some.inj (hi.symm.trans ((ht _ j).mpr hentry))) hij.ne

end Indexed

theorem getElem?_swapped {a b : ρ} (ha : xs[i]? = some a) (hb : xs[j]? = some b) (k : Nat) :
    (xs.swap i j)[k]? = if k = j then some a else if k = i then some b else xs[k]? := by
  obtain ⟨hi, rfl⟩ := List.getElem?_eq_some_iff.mp ha
  obtain ⟨hj, rfl⟩ := List.getElem?_eq_some_iff.mp hb
  rw [List.swap_eq_of_lt hi hj]
  grind

variable [DecidableEq ρ]

def setIndex (f : IndexField β) (t : Pointers ρ β) (r : ρ) (index : Option Nat) : Pointers ρ β :=
  { t with cell := Function.update t.cell r (f.set (t.cell r) index) }

theorem get_setIndex (index : Option Nat) :
    f.get ((t.setIndex f r index).cell x) = if x = r then index else f.get (t.cell x) := by
  rcases eq_or_ne x r with rfl | hx
  · simp [setIndex, f.get_set]
  · simp [setIndex, hx]

theorem same_setIndex (index : Option Nat) :
    f.set ((t.setIndex f r index).cell x) none = f.set (t.cell x) none := by
  rcases eq_or_ne x r with rfl | hx
  · simp [setIndex, f.set_set]
  · simp [setIndex, hx]

def swap (f : IndexField β) (t : Pointers ρ β) (i j : Nat) : Pointers ρ β :=
  match t.entries[i]?, t.entries[j]? with
  | some a, some b =>
    ({ t with entries := t.entries.swap i j }.setIndex f b (some i)).setIndex f a (some j)
  | _, _ => t

theorem Changes.swap (h : Changes f t u xs) (i j : Nat) : Changes f t (u.swap f i j) xs := by
  unfold Pointers.swap
  cases ha : u.entries[i]? with
  | none => exact h
  | some a =>
    cases hb : u.entries[j]? with
    | none => exact h
    | some b =>
      refine ⟨?_, (List.swap_perm _ i j).trans h.perm, fun r => ?_⟩
      · intro r k
        have hr := h.indexed r k
        have hra := h.indexed a
        have hrb := h.indexed b
        rw [get_setIndex, get_setIndex]
        simp only [setIndex, getElem?_swapped ha hb]
        grind
      · rw [same_setIndex, same_setIndex]
        exact h.same r

theorem getElem?_swap_of_ne {k : Nat} (hi : k ≠ i) (hj : k ≠ j) : (t.swap f i j).entries[k]? = t.entries[k]? := by
  unfold Pointers.swap
  split
  · rename_i a b ha hb
    simp only [setIndex, getElem?_swapped ha hb, if_neg hi, if_neg hj]
  · rfl

theorem getElem?_swap_right (hi : t.entries[i]? = some r) (hj : j < t.entries.length) :
    (t.swap f i j).entries[j]? = some r := by
  have hb : t.entries[j]? = some t.entries[j] := List.getElem?_eq_getElem hj
  simp only [Pointers.swap, hi, hb, setIndex, getElem?_swapped hi hb, if_true]

def push (f : IndexField β) (t : Pointers ρ β) (r : ρ) : Pointers ρ β :=
  { t with entries := t.entries ++ [r] }.setIndex f r (some t.entries.length)

theorem push_changes (ht : ∀ x ≠ r, ∀ i, f.get (t.cell x) = some i ↔ t.entries[i]? = some x) (hr : r ∉ t.entries) :
    Changes f t (t.push f r) (r :: t.entries) := by
  refine ⟨?_, List.perm_append_singleton r t.entries, fun _ => same_setIndex _⟩
  intro x i
  have hx := fun hne => ht x hne i
  have hmem : ∀ k, t.entries[k]? = some x → x ∈ t.entries := fun k hk => List.mem_of_getElem? hk
  rw [push, get_setIndex]
  simp only [setIndex]
  grind

def pop (f : IndexField β) (t : Pointers ρ β) : Pointers ρ β :=
  match t.entries.getLast? with
  | none => t
  | some r => { t with entries := t.entries.dropLast }.setIndex f r none

theorem pop_changes (ht : t.Indexed f) (hr : t.entries[t.entries.length - 1]? = some r) :
    Changes f t (t.pop f) (t.entries.erase r) := by
  have hlast : t.entries.getLast? = some r := by rw [List.getLast?_eq_getElem?, hr]
  obtain ⟨front, hfront⟩ := List.getLast?_eq_some_iff.mp hlast
  have hnodup : (front ++ [r]).Nodup := hfront ▸ ht.nodup
  have hnotin : r ∉ front := by grind
  simp only [pop, hlast]
  refine ⟨?_, by simp [setIndex, hfront, List.erase_append_right _ hnotin], fun _ => same_setIndex _⟩
  intro x i
  have hx := ht x i
  have hmem : ∀ k, front[k]? = some x → x ∈ front := fun k hk => List.mem_of_getElem? hk
  rw [get_setIndex]
  simp only [setIndex, hfront, List.getElem?_append] at hx ⊢
  grind

theorem Changes.mem_erase_iff (h : Changes f t u (t.entries.erase r)) (ht : t.Indexed f) :
    x ∈ u.entries ↔ x ≠ r ∧ x ∈ t.entries :=
  h.perm.mem_iff.trans ht.nodup.mem_erase_iff

structure Shows {σ : Type} (f : IndexField β) (h : SwapHeap.Interface σ) (view : σ → Pointers ρ β) :
    Prop where
  len : ∀ s, h.len s = (view s).entries.length
  swap : ∀ s i j, view (h.swap s i j) = (view s).swap f i j

structure Sinks (f : IndexField β) (t u : Pointers ρ β) (r : ρ) : Prop
    extends Changes f t u t.entries where
  last : u.entries[t.entries.length - 1]? = some r

theorem Sinks.swap (hsinks : Sinks f t u r) (hi : i < t.entries.length - 1) (hj : j < t.entries.length - 1) :
    Sinks f t (u.swap f i j) r :=
  ⟨hsinks.toChanges.swap i j, (getElem?_swap_of_ne hi.ne' hj.ne').trans hsinks.last⟩

theorem Indexed.sinks_swap (ht : t.Indexed f) (hi : t.entries[i]? = some r) :
    Sinks f t (t.swap f i (t.entries.length - 1)) r := by
  obtain ⟨hlt, -⟩ := List.getElem?_eq_some_iff.mp hi
  have hlast : t.entries.length - 1 < t.entries.length := by omega
  exact ⟨ht.changes.swap i _, getElem?_swap_right hi hlast⟩

theorem Sinks.pop (hsinks : Sinks f t u r) : Changes f t (u.pop f) (t.entries.erase r) := by
  have hlast := hsinks.last
  rw [← hsinks.perm.length_eq] at hlast
  have hpop := pop_changes hsinks.indexed hlast
  exact ⟨hpop.indexed, hpop.perm.trans (hsinks.perm.erase r), fun x => (hpop.same x).trans (hsinks.same x)⟩

namespace Shows

variable {σ : Type} {h : SwapHeap.Interface σ} {view : σ → Pointers ρ β} {s : σ} (hv : Shows f h view)

include hv

theorem raiseLast (hchanges : Changes f t (view s) xs) (hlen : 0 < h.len s) :
    Changes f t (view (h.raiseLast s)) xs := by
  refine SwapHeap.Interface.up_inv (p := fun u => Changes f t (view u) xs) ?_ _ _ _ (Nat.sub_one_lt_of_lt hlen) hchanges
  intro u i j _ _ hu
  rw [hv.swap]
  exact hu.swap i j

variable (hs : (view s).Indexed f)

include hs

theorem sink (hi : (view s).entries[i]? = some r) : Sinks f (view s) (view (h.sink s i)) r := by
  obtain ⟨hlt, -⟩ := List.getElem?_eq_some_iff.mp hi
  refine SwapHeap.Interface.sink_inv (p := fun u => Sinks f (view s) (view u) r) (hv.len s ▸ hlt) ?_ ?_ ?_
  · intro u j k hj hk hu
    rw [hv.len] at hj hk
    rw [hv.swap]
    exact hu.swap hj hk
  · rintro rfl
    rw [hv.len] at hi
    exact ⟨hs.changes, hi⟩
  · intro _
    rw [hv.swap, hv.len]
    exact hs.sinks_swap hi

theorem sinkFirst (hr : (view s).entries.head? = some r) : Sinks f (view s) (view (h.sinkFirst s)) r := by
  refine SwapHeap.Interface.sinkFirst_inv (p := fun u => Sinks f (view s) (view u) r) ?_ ?_
  · intro u j k hj hk hu
    rw [hv.len] at hj hk
    rw [hv.swap]
    exact hu.swap hj hk
  · rw [hv.swap, hv.len]
    exact hs.sinks_swap (List.head?_eq_getElem? ▸ hr)

end Shows

end Pointers
