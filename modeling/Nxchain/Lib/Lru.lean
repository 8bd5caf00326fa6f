import Mathlib.Data.List.Basic

structure Lru (κ ν : Type) where
  capacity : Nat
  entries : List (κ × ν)

namespace Lru

variable {κ ν : Type} [DecidableEq κ]

variable {key : κ} {value : ν} {cache : Lru κ ν} {store : κ → Option ν}

def empty (capacity : Nat) : Lru κ ν := ⟨capacity, []⟩

def peek (cache : Lru κ ν) (key : κ) : Option ν := cache.entries.lookup key

def add (cache : Lru κ ν) (key : κ) (value : ν) : Lru κ ν :=
  { cache with
    entries := ((key, value) :: cache.entries.filter (fun e => e.1 ≠ key)).take cache.capacity }

def get (cache : Lru κ ν) (key : κ) : Option (ν × Lru κ ν) :=
  (cache.peek key).map fun value =>
    (value, { cache with entries := (key, value) :: cache.entries.filter (fun e => e.1 ≠ key) })

def Sound (cache : Lru κ ν) (store : κ → Option ν) : Prop :=
  ∀ key value, cache.peek key = some value → store key = some value

theorem sound_empty (capacity : Nat) (store : κ → Option ν) : (empty capacity).Sound store := by
  intro key value hpeek
  simp [empty, peek] at hpeek

theorem lookup_filter_ne {entries : List (κ × ν)} {removed : κ} :
    (entries.filter (fun e => e.1 ≠ removed)).lookup key =
      if key = removed then none else entries.lookup key := by
  induction entries with
  | nil => simp
  | cons entry rest ih =>
    rw [List.filter_cons]
    grind

theorem lookup_front_eq_some {entries : List (κ × ν)} {front : κ} {new : ν}
    (h : ((front, new) :: entries.filter (fun e => e.1 ≠ front)).lookup key = some value) :
    (key = front ∧ value = new) ∨ entries.lookup key = some value := by
  rw [List.lookup_cons, lookup_filter_ne] at h
  grind

theorem peek_add_eq_some {added : κ} {new : ν} (hpeek : (cache.add added new).peek key = some value) :
    (key = added ∧ value = new) ∨ cache.peek key = some value :=
  lookup_front_eq_some ((List.take_prefix _ _).lookup_eq_some hpeek)

theorem peek_of_get {cache' : Lru κ ν} {used : κ} (hget : cache.get used = some (value, cache')) :
    cache.peek used = some value ∧
      ∀ key held, cache'.peek key = some held → cache.peek key = some held := by
  obtain ⟨found, hfound, heq⟩ := Option.map_eq_some_iff.mp hget
  obtain ⟨rfl, rfl⟩ := Prod.mk.inj heq
  refine ⟨hfound, ?_⟩
  intro key held hpeek
  rcases lookup_front_eq_some hpeek with ⟨rfl, rfl⟩ | hold
  · exact hfound
  · exact hold

theorem get_eq_none_iff : cache.get key = none ↔ cache.peek key = none := Option.map_eq_none_iff

variable (hsound : cache.Sound store)

include hsound

theorem Sound.add (hstore : store key = some value) : (cache.add key value).Sound store := by
  intro other found hpeek
  rcases peek_add_eq_some hpeek with ⟨rfl, rfl⟩ | hold
  · exact hstore
  · exact hsound other found hold

theorem Sound.get {cache' : Lru κ ν} (hget : cache.get key = some (value, cache')) :
    store key = some value ∧ cache'.Sound store := by
  obtain ⟨hfound, hkeep⟩ := peek_of_get hget
  exact ⟨hsound key value hfound, fun other held hpeek => hsound other held (hkeep other held hpeek)⟩

theorem Sound.mono {store' : κ → Option ν} (hkeep : ∀ key value, store key = some value → store' key = some value) :
    cache.Sound store' :=
  fun key value hpeek => hkeep key value (hsound key value hpeek)

end Lru
