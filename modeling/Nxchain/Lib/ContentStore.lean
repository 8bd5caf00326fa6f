import Mathlib.Data.Set.Lattice

namespace ContentStore

variable {K D : Type}

section Write

variable [DecidableEq K]

def write (store : K → Option D) (batch : List (K × D)) : K → Option D :=
  batch.foldl (fun store entry => Function.update store entry.1 (some entry.2)) store

theorem write_of_forall {batch : List (K × D)} {store : K → Option D} {key : K} {data : D}
    (hsame : ∀ entry ∈ batch, entry.1 = key → entry.2 = data) (h : (key, data) ∈ batch ∨ store key = some data) :
    write store batch key = some data := by
  induction batch generalizing store with
  | nil => exact h.resolve_left nofun
  | cons entry batch ih =>
    apply ih fun entry' hentry' => hsame entry' (List.mem_cons_of_mem _ hentry')
    change _ ∨ Function.update store entry.1 (some entry.2) key = some data
    by_cases hkey : key = entry.1
    · right
      rw [hkey, Function.update_self, hsame entry List.mem_cons_self hkey.symm]
    · rw [Function.update_of_ne hkey]
      rcases h with hmem | hstore
      · rcases List.mem_cons.mp hmem with rfl | hmem
        · exact absurd rfl hkey
        · exact .inl hmem
      · exact .inr hstore

end Write

def Has (address : D → K) (store : K → Option D) (data : Set D) : Prop :=
  ∀ d ∈ data, store (address d) = some d

structure Covers (address : D → K) (store : K → Option D) (data : Set D) (batch : List (K × D)) :
    Prop where
  addressed : ∀ entry ∈ batch, entry.1 = address entry.2 ∧ entry.2 ∈ data
  complete : ∀ d ∈ data, (address d, d) ∈ batch ∨ store (address d) = some d

def kept (address : D → K) (store : K → Option D) (batch : List (K × D)) : Set D :=
  { d | (address d, d) ∈ batch ∨ store (address d) = some d }

variable {address : D → K} {store : K → Option D} {data data' : Set D} {batch batch' : List (K × D)}

theorem Has.covers (h : Has address store data) : Covers address store data [] :=
  ⟨nofun, fun d hd => .inr (h d hd)⟩

theorem covers_empty : Covers address store ∅ [] := ⟨nofun, nofun⟩

theorem covers_singleton (d : D) : Covers address store {d} [(address d, d)] where
  addressed := by
    intro entry hentry
    obtain rfl := List.mem_singleton.mp hentry
    exact ⟨rfl, rfl⟩
  complete := by
    rintro _ rfl
    exact .inl List.mem_cons_self

namespace Covers

theorem append (h : Covers address store data batch) (h' : Covers address store data' batch') :
    Covers address store (data ∪ data') (batch ++ batch') where
  addressed := by
    intro entry hentry
    rcases List.mem_append.mp hentry with hleft | hright
    · exact (h.addressed entry hleft).imp_right .inl
    · exact (h'.addressed entry hright).imp_right .inr
  complete := by
    rintro d (hd | hd)
    · exact (h.complete d hd).imp_left (List.mem_append_left _)
    · exact (h'.complete d hd).imp_left (List.mem_append_right _)

theorem flatMap {ι : Type} (index : List ι) {data : ι → Set D} {batch : ι → List (K × D)}
    (h : ∀ i ∈ index, Covers address store (data i) (batch i)) :
    Covers address store (⋃ i ∈ index, data i) (index.flatMap batch) where
  addressed := by
    intro entry hentry
    obtain ⟨i, hi, hmem⟩ := List.mem_flatMap.mp hentry
    obtain ⟨haddress, hdata⟩ := (h i hi).addressed entry hmem
    exact ⟨haddress, Set.mem_biUnion hi hdata⟩
  complete := by
    intro d hd
    obtain ⟨i, hi, hdata⟩ := Set.mem_iUnion₂.mp hd
    exact ((h i hi).complete d hdata).imp_left fun hmem => List.mem_flatMap.mpr ⟨i, hi, hmem⟩

variable (h : Covers address store data batch)

include h

theorem has_write [DecidableEq K] (hinj : Set.InjOn address data) : Has address (write store batch) data := by
  intro d hd
  apply write_of_forall _ (h.complete d hd)
  intro entry hentry hkey
  obtain ⟨haddress, hdata⟩ := h.addressed entry hentry
  exact hinj hdata hd (haddress.symm.trans hkey)

theorem subset_kept : data ⊆ kept address store batch :=
  h.complete

theorem has_kept [DecidableEq K] (hinj : Set.InjOn address (kept address store batch)) :
    Has address (write store batch) (kept address store batch) := by
  intro d hd
  apply write_of_forall _ hd
  intro entry hentry hkey
  obtain ⟨haddress, hdata⟩ := h.addressed entry hentry
  exact hinj (h.subset_kept hdata) hd (haddress.symm.trans hkey)

end Covers

end ContentStore
