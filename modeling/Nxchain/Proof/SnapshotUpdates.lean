import Nxchain.Proof.SnapshotStore

namespace Nxchain.SnapshotStore

open Versions

variable {s : SnapshotStore} {snap : Snapshot} {n : Nat}

def UpperIsCloser (s : SnapshotStore) (n : Nat) : Prop :=
  ∀ below ∈ s.list, ∀ above ∈ s.list, below.number < n → n < above.number →
    (∀ x ∈ s.list, x.number ≤ below.number ∨ above.number ≤ x.number) →
    above.number - n < n - below.number

instance : Decidable (s.UpperIsCloser n) :=
  inferInstanceAs (Decidable (∀ below ∈ s.list, ∀ above ∈ s.list, below.number < n →
    n < above.number → (∀ x ∈ s.list, x.number ≤ below.number ∨ above.number ≤ x.number) →
    above.number - n < n - below.number))

structure Bracket (numbers : Nat → Nat) (n len low high : Nat) : Prop where
  low_le : low ≤ high + 1
  high_lt : high < len
  below : ∀ i < low, numbers i < n
  above : ∀ i, high < i → i < len → n < numbers i

def Surrounds (numbers : Nat → Nat) (n len : Nat) : Nat ⊕ Nat × Nat → Prop
  | .inl mid => mid < len ∧ numbers mid = n
  | .inr (low, high) => low = high + 1 ∧ low < len ∧ numbers high < n ∧ n < numbers low

theorem Bracket.surrounds {numbers : Nat → Nat} {len low high : Nat} (hb : Bracket numbers n len low high)
    (hlt : ¬ low ≤ high) (hlast : n ≤ numbers (len - 1)) : Surrounds numbers n len (.inr (low, high)) := by
  have hlow : low = high + 1 := by
    have := hb.low_le
    omega
  have hlen : low < len := by
    by_contra hge
    have := hb.below (len - 1) (by omega)
    omega
  exact ⟨hlow, hlen, hb.below high (by omega), hb.above low (by omega) hlen⟩

theorem closestLoop_surrounds {numbers : Nat → Nat} {len fuel low high : Nat}
    (hmono : ∀ i j, i < j → j < len → numbers i < numbers j) (hfirst : numbers 0 ≤ n)
    (hlast : n ≤ numbers (len - 1)) (hb : Bracket numbers n len low high) (hfuel : high + 1 - low ≤ fuel) :
    Surrounds numbers n len (closestLoop numbers n fuel low high) := by
  induction fuel generalizing low high with
  | zero => exact hb.surrounds (by omega) hlast
  | succ fuel ih =>
    have hhigh := hb.high_lt
    rw [closestLoop]
    split
    · dsimp only
      split
      · rename_i hle hlt
        -- the first number is not above the block number, so the middle is not the first index
        have hpos : (high + low) / 2 ≠ 0 := by
          intro hzero
          rw [hzero] at hlt
          omega
        refine ih ⟨by omega, by omega, hb.below, ?_⟩ (by omega)
        intro i hi hlen
        rcases (show (high + low) / 2 ≤ i by omega).eq_or_lt with rfl | hmid
        · exact hlt
        · exact hlt.trans (hmono _ i hmid hlen)
      · split
        · rename_i hle _ hgt
          refine ih ⟨by omega, hhigh, ?_, hb.above⟩ (by omega)
          intro i hi
          rcases (show i ≤ (high + low) / 2 by omega).eq_or_lt with rfl | hmid
          · exact hgt
          · exact (hmono i _ hmid (by omega)).trans hgt
        · exact ⟨by omega, by omega⟩
    · rename_i hle
      exact hb.surrounds hle hlast

theorem number_getD {i : Nat} (hi : i < s.list.length) :
    ((s.list[i]?).map Snapshot.number).getD 0 = s.list[i].number := by
  simp [List.getElem?_eq_getElem hi]

section

variable (hs : Increasing Snapshot.number s.list)

include hs

theorem closestLoop_list_surrounds (hlen : 0 < s.list.length) (hfirst : s.list[0].number ≤ n)
    (hlast : n ≤ s.list[s.list.length - 1].number) :
    Surrounds (fun i => ((s.list[i]?).map Snapshot.number).getD 0) n s.list.length
      (closestLoop (fun i => ((s.list[i]?).map Snapshot.number).getD 0) n s.list.length 0 (s.list.length - 1)) := by
  have hend : s.list.length - 1 < s.list.length := by omega
  apply closestLoop_surrounds
  · intro i j hij hj
    simp only [number_getD (hij.trans hj), number_getD hj]
    exact number_lt_of_lt hs hij hj
  · rwa [number_getD hlen]
  · rwa [number_getD hend]
  · exact ⟨by omega, hend, by omega, by omega⟩
  · omega

theorem le_or_le_of_neighbours {k : Nat} (hk : k + 1 < s.list.length) :
    ∀ x ∈ s.list, x.number ≤ s.list[k].number ∨ s.list[k + 1].number ≤ x.number := by
  intro x hx
  obtain ⟨i, hi, rfl⟩ := List.mem_iff_getElem.mp hx
  rcases lt_trichotomy i k with hlow | rfl | hup
  · exact Or.inl (number_lt_of_lt hs hlow (by omega)).le
  · exact Or.inl le_rfl
  · rcases (show k + 1 ≤ i by omega).eq_or_lt with rfl | hup
    · exact Or.inr le_rfl
    · exact Or.inr (number_lt_of_lt hs hup hi).le

theorem upperIsCloser_iff_of_neighbours {k : Nat} (hk : k + 1 < s.list.length)
    (hbelow : s.list[k].number < n) (habove : n < s.list[k + 1].number) :
    s.UpperIsCloser n ↔ s.list[k + 1].number - n < n - s.list[k].number := by
  have hside := le_or_le_of_neighbours hs hk
  constructor
  · intro hcloser
    exact hcloser _ (List.getElem_mem _) _ (List.getElem_mem _) hbelow habove hside
  · intro hless below hmem above hmem' hlt hgt hbetween
    have hlow := hbetween _ (List.getElem_mem (show k < s.list.length by omega))
    have hup := hbetween _ (List.getElem_mem hk)
    have hside' := hside below hmem
    have hside'' := hside above hmem'
    omega

theorem findClosestSnapshotIndex_spec (hne : s.list ≠ [])
    (hnumbers : ∀ x ∈ s.list, x.number < 2 ^ 64) :
    ∃ k, ∃ hk : k < s.list.length, s.findClosestSnapshotIndex n = .ok k
      ∧ (s.UpperIsCloser n ∧ (k = 0 ∨ s.list[k].number ≤ n)
        ∨ ¬ s.UpperIsCloser n ∧ n < s.list[k].number ∧ ∃ x ∈ s.list, x.number ≤ n) := by
  have hlen : 0 < s.list.length := List.length_pos_iff.mpr hne
  have hhead : s.list.head? = some s.list[0] := by
    rw [List.head?_eq_getElem?, List.getElem?_eq_getElem hlen]
  have hend : s.list.length - 1 < s.list.length := by omega
  have hlast : s.list.getLast? = some s.list[s.list.length - 1] := by
    rw [List.getLast?_eq_getElem?, List.getElem?_eq_getElem hend]
  simp only [findClosestSnapshotIndex, hhead, hlast]
  split
  · rename_i hlt
    refine ⟨0, hlen, rfl, Or.inl ⟨?_, Or.inl rfl⟩⟩
    intro below hbelow _ _ hless
    obtain ⟨i, hi, rfl⟩ := List.mem_iff_getElem.mp hbelow
    rcases Nat.eq_zero_or_pos i with rfl | hpos
    · omega
    · have := number_lt_of_lt hs hpos hi
      omega
  split
  · rename_i hgt
    refine ⟨s.list.length - 1, hend, rfl, Or.inl ⟨?_, Or.inr (Nat.le_of_lt hgt)⟩⟩
    intro _ _ above habove _ hless
    have := hs.le_getLast hlast habove
    omega
  rename_i hfirst hle
  have hloop := closestLoop_list_surrounds hs hlen (Nat.le_of_not_lt hfirst) (Nat.le_of_not_lt hle)
  split
  · rename_i mid hmid
    rw [hmid] at hloop
    obtain ⟨hlt, heq⟩ := hloop
    simp only [number_getD hlt] at heq
    refine ⟨mid, hlt, rfl, Or.inl ⟨?_, Or.inr heq.le⟩⟩
    intro below _ above _ hbelow habove hbetween
    have := hbetween _ (List.getElem_mem hlt)
    omega
  · rename_i low high hpair
    rw [hpair] at hloop
    obtain ⟨rfl, hlt, hbelow, habove⟩ := hloop
    have hhigh : high < s.list.length := by omega
    simp only [number_getD hhigh, number_getD hlt] at hbelow habove
    simp only [List.getElem?_eq_getElem hlt, List.getElem?_eq_getElem hhigh]
    have hup := hnumbers _ (List.getElem_mem hlt)
    rw [sub64_eq hup habove.le, sub64_eq (habove.trans hup) hbelow.le,
      upperIsCloser_iff_of_neighbours hs hlt hbelow habove]
    split
    · rename_i hless
      exact ⟨high, hhigh, rfl, Or.inl ⟨hless, Or.inr hbelow.le⟩⟩
    · rename_i hless
      exact ⟨high + 1, hlt, rfl, Or.inr ⟨hless, habove, _, List.getElem_mem hhigh, hbelow.le⟩⟩

theorem find_drop {k h : Nat} (hk : k < s.list.length) (hcut : k = 0 ∨ s.list[k].number ≤ n)
    (hnh : n ≤ h) :
    ({ s with list := s.list.drop k } : SnapshotStore).find h = s.find h := by
  rcases hcut with rfl | hle
  · rfl
  · have hmem : s.list[k] ∈ s.list.drop k := List.mem_drop_iff_getElem.mpr ⟨0, by omega, by simp⟩
    have hexists : ∃ x ∈ s.list.drop k, x.number ≤ h := ⟨_, hmem, hle.trans hnh⟩
    rw [find_eq_latest (hs.sublist (List.drop_sublist k s.list)) hexists,
      find_eq_latest hs ⟨_, List.getElem_mem hk, hle.trans hnh⟩]
    calc latest Snapshot.number (s.list.drop k) h
        = latest Snapshot.number (s.list.take k ++ s.list.drop k) h :=
          (latest_append_of_exists hexists).symm
      _ = latest Snapshot.number s.list h := by rw [List.take_append_drop]

theorem find_drop_ne {k : Nat} (hk : k < s.list.length) (hexists : ∃ x ∈ s.list, x.number ≤ n)
    (habove : n < s.list[k].number) :
    ({ s with list := s.list.drop k } : SnapshotStore).find n ≠ s.find n := by
  obtain ⟨y, hy, hle⟩ : ∃ y, s.find n = some y ∧ y.number ≤ n := by
    rw [find_eq_latest hs hexists]
    exact exists_latest hexists
  intro hsame
  have hmem := mem_of_find (hsame.trans hy)
  obtain ⟨i, hi, rfl⟩ := List.mem_drop_iff_getElem.mp hmem
  rcases Nat.eq_zero_or_pos i with rfl | hpos
  · simp only [Nat.add_zero] at hle
    omega
  · have := number_lt_of_lt hs (show k < k + i by omega) (by omega)
    omega

end

theorem pruning_is_invisible_iff (hs : Increasing Snapshot.number s.list) (hne : s.list ≠ [])
    (hnumbers : ∀ x ∈ s.list, x.number < 2 ^ 64) :
    (∃ s', s.deleteLower n = .ok s' ∧ ∀ h, n ≤ h → s'.find h = s.find h)
      ↔ s.UpperIsCloser n := by
  obtain ⟨k, hk, hindex, hcut⟩ := findClosestSnapshotIndex_spec (n := n) hs hne hnumbers
  have hdelete : s.deleteLower n = .ok { s with list := s.list.drop k } := by
    rw [deleteLower, hindex]
    rfl
  obtain ⟨hcloser, hcut⟩ | ⟨hcloser, habove, hexists⟩ := hcut
  · refine iff_of_true ⟨_, hdelete, fun h hnh => ?_⟩ hcloser
    exact find_drop hs hk hcut hnh
  · refine iff_of_false ?_ hcloser
    rintro ⟨s', hs', hfind⟩
    obtain rfl := Except.ok.inj (hdelete.symm.trans hs')
    exact find_drop_ne hs hk hexists habove (hfind n le_rfl)

def snapshotAt (number : Nat) : Snapshot := ⟨number, zeroHash, [], ⟨.ecdsa, []⟩⟩

def twoSnapshots : SnapshotStore := ⟨10, [snapshotAt 0, snapshotAt 10]⟩

theorem pruning_is_invisible_iff_twoSnapshots :
    (∃ s', twoSnapshots.deleteLower 9 = .ok s' ∧ ∀ h, 9 ≤ h → s'.find h = twoSnapshots.find h)
      ∧ ¬ ∃ s', twoSnapshots.deleteLower 1 = .ok s'
        ∧ ∀ h, 1 ≤ h → s'.find h = twoSnapshots.find h := by
  have hiff := fun n => pruning_is_invisible_iff (s := twoSnapshots) (n := n) (by decide) (by decide)
    (by decide)
  exact ⟨(hiff 9).mpr (by decide), fun h => absurd ((hiff 1).mp h) (by decide)⟩

theorem pruning_drops_the_valid_snapshot :
    Increasing Snapshot.number twoSnapshots.list
      ∧ twoSnapshots.find 1 = some (snapshotAt 0)
      ∧ twoSnapshots.deleteLower 1 = .ok ⟨10, [snapshotAt 10]⟩
      ∧ (⟨10, [snapshotAt 10]⟩ : SnapshotStore).find 1 = some (snapshotAt 10) := by
  decide

def Findable (s : SnapshotStore) (number : Nat) : Prop :=
  (∀ x ∈ s.list, x.number ≠ number)
    ∨ ∃ k ∈ probes s.list.length, (s.list[k]?).any fun x => x.number = number

instance {number : Nat} : Decidable (s.Findable number) :=
  inferInstanceAs (Decidable ((∀ x ∈ s.list, x.number ≠ number)
    ∨ ∃ k ∈ probes s.list.length, (s.list[k]?).any fun x => x.number = number))

structure Replaces (snap : Snapshot) (list list' : List Snapshot) : Prop where
  increasing : Increasing Snapshot.number list'
  mem_self : snap ∈ list'
  unique : ∀ x ∈ list', x.number = snap.number → x = snap
  keeps : ∀ x ∈ list, x.number ≠ snap.number → x ∈ list'
  adds : ∀ x ∈ list', x = snap ∨ x ∈ list

theorem eq_of_number_eq {list : List Snapshot} (hs : Increasing Snapshot.number list) {x y : Snapshot}
    (hx : x ∈ list) (hy : y ∈ list) (heq : x.number = y.number) : x = y := by
  have hnodup : (list.map Snapshot.number).Nodup := List.pairwise_map.mpr (hs.imp Nat.ne_of_lt)
  exact List.inj_on_of_nodup_map hnodup hx hy heq

theorem replaces_add (hs : Increasing Snapshot.number s.list) (hnew : ∀ x ∈ s.list, x.number ≠ snap.number) :
    Replaces snap s.list (s.add snap).list := by
  have hmem : ∀ x, x ∈ (s.add snap).list ↔ x ∈ s.list ∨ x = snap := by
    intro x
    rw [add, sortSnapshots, List.mem_insertionSort, List.mem_append, List.mem_singleton]
  refine ⟨?_, (hmem snap).mpr (Or.inr rfl), ?_, fun x hx _ => (hmem x).mpr (Or.inl hx),
    fun x hx => ((hmem x).mp hx).symm⟩
  · apply Increasing.insertionSort
    rw [List.pairwise_append]
    refine ⟨hs.imp Nat.ne_of_lt, List.pairwise_singleton _ _, ?_⟩
    intro x hx y hy
    rw [List.mem_singleton.mp hy]
    exact hnew x hx
  · intro x hx heq
    exact ((hmem x).mp hx).resolve_left fun hold => hnew x hold heq

theorem replaces_set (hs : Increasing Snapshot.number s.list) {k : Nat} (hk : k < s.list.length)
    (hnumber : s.list[k].number = snap.number) : Replaces snap s.list (s.list.set k snap) := by
  have hmap : (s.list.set k snap).map Snapshot.number = s.list.map Snapshot.number := by
    rw [List.map_set, ← hnumber, ← List.getElem_map Snapshot.number (h := by simpa using hk), List.set_getElem_self]
  have hincreasing : Increasing Snapshot.number (s.list.set k snap) := by
    rw [Increasing, ← List.pairwise_map, hmap, List.pairwise_map]
    exact hs
  have hself : snap ∈ s.list.set k snap := List.mem_set hk snap
  refine ⟨hincreasing, hself, ?_, ?_, ?_⟩
  · intro x hx heq
    exact eq_of_number_eq hincreasing hx hself heq
  · intro x hx hne
    obtain ⟨i, hi, rfl⟩ := List.mem_iff_getElem.mp hx
    have hik : k ≠ i := by
      rintro rfl
      exact hne hnumber
    rw [← List.getElem_set_ne hik (by simpa using hi)]
    exact List.getElem_mem _
  · intro x hx
    exact (List.mem_or_eq_of_mem_set hx).symm

theorem Replaces.find {list : List Snapshot} (hr : Replaces snap list s.list) : s.find snap.number = some snap := by
  rw [find_eq_latest hr.increasing ⟨snap, hr.mem_self, le_rfl⟩]
  obtain ⟨k, hk, hget⟩ := List.mem_iff_getElem.mp hr.mem_self
  rw [latest_eq_getElem hk, hget]
  · intro j hj hjk
    rcases hjk.eq_or_lt with rfl | hlt
    · exact (congrArg Snapshot.number hget).le
    · exact hget ▸ (number_lt_of_lt hr.increasing hlt hk).le
  · intro j hj hkj
    exact hget ▸ number_lt_of_lt hr.increasing hkj hj

theorem search_of_not_findable (hfindable : ¬ ∃ k ∈ probes s.list.length,
      (s.list[k]?).any fun x => x.number = snap.number) :
    search s.list.length (s.numberAt (· = snap.number)) = s.list.length := by
  refine search_of_forall_not fun k hprobe => ?_
  by_contra hyes
  exact hfindable ⟨k, hprobe, by simpa [numberAt] using hyes⟩

theorem replaces_of_mem_probes (hs : Increasing Snapshot.number s.list) {k : Nat}
    (hprobe : k ∈ probes s.list.length) (hany : (s.list[k]?).any fun x => x.number = snap.number) :
    Replaces snap s.list (s.putByNumber snap).list := by
  obtain ⟨hk, hnumber⟩ : ∃ hk : k < s.list.length, s.list[k].number = snap.number := by
    rw [Option.any_eq_true] at hany
    obtain ⟨x, hx, hnumber⟩ := hany
    obtain ⟨hk, rfl⟩ := List.getElem?_eq_some_iff.mp hx
    exact ⟨hk, of_decide_eq_true hnumber⟩
  have hindex : search s.list.length (s.numberAt (· = snap.number)) = k := by
    apply search_of_mem_probes _ _ hprobe
    · rw [numberAt_eq hk]
      exact decide_eq_true hnumber
    · intro l hlk
      rw [numberAt, Option.any_eq_false]
      intro x hx
      obtain ⟨hl, rfl⟩ := List.getElem?_eq_some_iff.mp hx
      rw [decide_eq_false_iff_not, ← hnumber]
      rcases Nat.lt_or_gt_of_ne hlk with hlt | hgt
      · exact (number_lt_of_lt hs hlt hk).ne
      · exact (number_lt_of_lt hs hgt hl).ne'
  rw [putByNumber]
  simp only [hindex, hk, if_true]
  exact replaces_set hs hk hnumber

theorem putByNumber_replaces_iff (hs : Increasing Snapshot.number s.list) :
    (Replaces snap s.list (s.putByNumber snap).list
      ∧ (s.putByNumber snap).find snap.number = some snap) ↔ s.Findable snap.number := by
  have hfinds : (Replaces snap s.list (s.putByNumber snap).list
      ∧ (s.putByNumber snap).find snap.number = some snap)
        ↔ Replaces snap s.list (s.putByNumber snap).list := and_iff_left_of_imp Replaces.find
  rw [hfinds, Findable]
  by_cases hprobed : ∃ k ∈ probes s.list.length, (s.list[k]?).any fun x => x.number = snap.number
  · obtain ⟨k, hprobe, hany⟩ := hprobed
    exact iff_of_true (replaces_of_mem_probes hs hprobe hany) (Or.inr ⟨k, hprobe, hany⟩)
  have hadd : s.putByNumber snap = s.add snap := by
    rw [putByNumber]
    simp only [search_of_not_findable hprobed, lt_self_iff_false, if_false]
  rw [hadd, or_iff_left hprobed]
  refine ⟨fun hr x hx heq => ?_, replaces_add hs⟩
  -- the snapshot stands beside the one that has its number
  have hperm : (s.add snap).list.Perm (s.list ++ [snap]) := List.perm_insertionSort _ _
  have hnodup : ((s.list ++ [snap]).map Snapshot.number).Nodup :=
    (hperm.map _).nodup_iff.mp (List.pairwise_map.mpr (hr.increasing.imp Nat.ne_of_lt))
  rw [List.map_append, List.nodup_append] at hnodup
  exact hnodup.2.2 _ (List.mem_map_of_mem hx) _ (List.mem_singleton_self _) heq

def threeSnapshots : SnapshotStore := ⟨3, [snapshotAt 1, snapshotAt 2, snapshotAt 3]⟩

def rivalAt (number : Nat) : Snapshot :=
  { snapshotAt number with hash := FixedBytes.ofBytes 32 [1] }

theorem putByNumber_replaces_iff_middle :
    Replaces (rivalAt 2) threeSnapshots.list (threeSnapshots.putByNumber (rivalAt 2)).list
      ∧ (threeSnapshots.putByNumber (rivalAt 2)).find 2 = some (rivalAt 2) :=
  have hfindable : threeSnapshots.Findable (rivalAt 2).number := by decide
  (putByNumber_replaces_iff (by decide)).mpr hfindable

theorem putByNumber_duplicates_first :
    Increasing Snapshot.number threeSnapshots.list
      ∧ (threeSnapshots.putByNumber (rivalAt 1)).list
        = [snapshotAt 1, rivalAt 1, snapshotAt 2, snapshotAt 3]
      ∧ (threeSnapshots.putByNumber (rivalAt 1)).find 1 = some (snapshotAt 1) := by
  decide

end Nxchain.SnapshotStore
