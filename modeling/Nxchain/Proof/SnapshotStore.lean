import Nxchain.Lib.Except
import Nxchain.Snapshot

namespace Nxchain.SnapshotStore

open Versions

variable {s : SnapshotStore} {snap last : Snapshot} {num : Nat}

variable {n : Nat}

theorem numberAt_eq {p : Nat → Bool} {i : Nat} (hi : i < s.list.length) : s.numberAt p i = p s.list[i].number := by
  simp [numberAt, List.getElem?_eq_getElem hi]

theorem number_lt_of_lt (hs : Increasing Snapshot.number s.list) {k l : Nat} (hkl : k < l)
    (hl : l < s.list.length) : s.list[k].number < s.list[l].number :=
  List.pairwise_iff_getElem.mp hs k l (hkl.trans hl) hl hkl

theorem search_split (hs : Increasing Snapshot.number s.list) (num : Nat) :
    (∀ k (hk : k < s.list.length), k < search s.list.length (s.numberAt (· ≥ num)) → s.list[k].number < num)
      ∧ ∀ k (hk : k < s.list.length), search s.list.length (s.numberAt (· ≥ num)) ≤ k →
        num ≤ s.list[k].number := by
  have hmono : ∀ k l, k ≤ l → l < s.list.length → s.numberAt (· ≥ num) k → s.numberAt (· ≥ num) l := by
    intro k l hkl hl hk
    rw [numberAt_eq hl]
    rw [numberAt_eq (hkl.trans_lt hl)] at hk
    rcases hkl.eq_or_lt with rfl | hlt
    · exact hk
    · have := number_lt_of_lt hs hlt hl
      simp only [decide_eq_true_eq] at hk ⊢
      omega
  obtain ⟨hbelow, habove⟩ := search_spec hmono
  constructor
  · intro k hk hlt
    have := hbelow k hlt
    rw [numberAt_eq hk] at this
    simpa using this
  · intro k hk hle
    have := habove k hle hk
    rw [numberAt_eq hk] at this
    simpa using this

theorem latest_eq_getElem {k : Nat} (hk : k < s.list.length)
    (hbefore : ∀ j (hj : j < s.list.length), j ≤ k → s.list[j].number ≤ num)
    (hafter : ∀ j (hj : j < s.list.length), k < j → num < s.list[j].number) :
    latest Snapshot.number s.list num = some s.list[k] := by
  rw [latest_eq_take (k + 1), List.getLast?_take, if_neg (Nat.succ_ne_zero k),
    Nat.add_sub_cancel, List.getElem?_eq_getElem hk, Option.some_or]
  · intro x hx
    obtain ⟨j, hj, rfl⟩ := List.mem_take_iff_getElem.mp hx
    exact hbefore j (by omega) (by omega)
  · intro x hx
    obtain ⟨j, hj, rfl⟩ := List.mem_drop_iff_getElem.mp hx
    exact hafter _ (by omega) (by omega)

theorem find_eq_latest (hs : Increasing Snapshot.number s.list) (hexists : ∃ x ∈ s.list, x.number ≤ num) :
    s.find num = latest Snapshot.number s.list num := by
  obtain ⟨x, hx, hxnum⟩ := hexists
  have hne : s.list ≠ [] := List.ne_nil_of_mem hx
  have hlen : 0 < s.list.length := List.length_pos_iff.mpr hne
  have hlast : s.list.getLast? = some (s.list.getLast hne) := List.getLast?_eq_getLast_of_ne_nil hne
  simp only [find, hlast]
  split
  · rename_i hlt
    rw [latest_eq_getLast fun y hy => (hs.le_getLast hlast hy).trans hlt.le, hlast]
  · rename_i hge
    rw [List.getLast_eq_getElem] at hge
    obtain ⟨hbelow, habove⟩ := search_split hs num
    generalize search s.list.length (s.numberAt (· ≥ num)) = i at hbelow habove ⊢
    have hi : i < s.list.length := by
      by_contra hle
      exact hge (hbelow (s.list.length - 1) (by omega) (by omega))
    have hge := habove i hi le_rfl
    have hafter : ∀ j (hj : j < s.list.length), i < j → num < s.list[j].number := by
      intro j hj hij
      exact hge.trans_lt (number_lt_of_lt hs hij hj)
    simp only [List.getElem?_eq_getElem hi]
    split
    · rename_i hzero
      subst hzero
      obtain ⟨j, hj, rfl⟩ := List.mem_iff_getElem.mp hx
      have hfirst : s.list[0].number ≤ num := by
        rcases Nat.eq_zero_or_pos j with rfl | hpos
        · exact hxnum
        · exact ((number_lt_of_lt hs hpos hj).trans_le hxnum).le
      rw [latest_eq_getElem hi _ hafter, List.head?_eq_getElem?, List.getElem?_eq_getElem hi]
      intro k hk hkzero
      obtain rfl : k = 0 := by omega
      exact hfirst
    · split
      · rename_i heq
        rw [latest_eq_getElem hi _ hafter]
        intro k hk hki
        rcases hki.eq_or_lt with rfl | hlt
        · exact heq.le
        · exact (hbelow k hk hlt).le
      · rw [List.getElem?_eq_getElem (by omega), latest_eq_getElem]
        · intro k hk hki
          exact (hbelow k hk (by omega)).le
        · intro k hk hik
          rcases (show i ≤ k by omega).eq_or_lt with rfl | hlt
          · omega
          · exact hafter k hk hlt

theorem mem_of_find {x : Snapshot} (h : s.find num = some x) : x ∈ s.list := by
  rw [find] at h
  split at h
  · cases h
  · split at h
    · cases h
      exact List.mem_of_getLast? ‹_›
    · dsimp only at h
      split at h
      · cases h
      · split_ifs at h
        · exact List.mem_of_mem_head? h
        · cases h
          exact List.mem_of_getElem? ‹_›
        · exact List.mem_of_getElem? h

structure Sound (s : SnapshotStore) (n : Nat) (last : Snapshot) : Prop where
  increasing : Increasing Snapshot.number s.list
  last_eq : s.list.getLast? = some last
  last_le : last.number ≤ n

section

variable (hs : s.Sound n last)

include hs

theorem Sound.find_eq : s.find n = some last := by
  have hmem : last ∈ s.list := List.mem_of_getLast? hs.last_eq
  rw [find_eq_latest hs.increasing ⟨last, hmem, hs.last_le⟩,
    latest_eq_getLast fun y hy => (hs.increasing.le_getLast hs.last_eq hy).trans hs.last_le,
    hs.last_eq]

theorem Sound.mono {m : Nat} (hnm : n ≤ m) : s.Sound m last :=
  ⟨hs.increasing, hs.last_eq, hs.last_le.trans hnm⟩

theorem Sound.list_add (hn : n < snap.number) : (s.add snap).list = s.list ++ [snap] := by
  apply Increasing.insertionSort_eq
  apply hs.increasing.append
  intro y hy
  exact ((hs.increasing.le_getLast hs.last_eq hy).trans hs.last_le).trans_lt hn

theorem Sound.add (hn : n < snap.number) : (s.add snap).Sound snap.number snap := by
  refine ⟨?_, ?_, le_rfl⟩
  · rw [hs.list_add hn]
    apply hs.increasing.append
    intro y hy
    exact ((hs.increasing.le_getLast hs.last_eq hy).trans hs.last_le).trans_lt hn
  · rw [hs.list_add hn, List.getLast?_concat]

theorem Sound.find_add {h : Nat} (hn : n < snap.number) (hh : h < snap.number)
    (hexists : ∃ x ∈ s.list, x.number ≤ h) : (s.add snap).find h = s.find h := by
  rw [find_eq_latest hs.increasing hexists, find_eq_latest (hs.add hn).increasing,
    hs.list_add hn, latest_append_of_lt hh]
  obtain ⟨x, hx, hxh⟩ := hexists
  refine ⟨x, ?_, hxh⟩
  rw [hs.list_add hn]
  exact List.mem_append_left _ hx

end

def InRange (len : Nat) : Nat ⊕ Nat × Nat → Prop
  | .inl mid => mid < len
  | .inr (low, high) => low < len ∧ high < len

theorem closestLoop_inRange (numbers : Nat → Nat) (blockNum len fuel low high : Nat)
    (hlast : blockNum ≤ numbers (len - 1)) (hlow : low < len) (hhigh : high < len) :
    InRange len (closestLoop numbers blockNum fuel low high) := by
  induction fuel generalizing low high with
  | zero => exact ⟨hlow, hhigh⟩
  | succ fuel ih =>
    rw [closestLoop]
    split
    · dsimp only
      split
      · exact ih low _ hlow (by omega)
      · split
        · rename_i hgt
          have hmid : (high + low) / 2 ≠ len - 1 := by
            intro heq
            rw [heq] at hgt
            omega
          exact ih _ high (by omega) hhigh
        · show (high + low) / 2 < len
          omega
    · exact ⟨hlow, hhigh⟩

theorem findClosestSnapshotIndex_lt (hne : s.list ≠ []) (blockNum : Nat) :
    ∃ k < s.list.length, s.findClosestSnapshotIndex blockNum = .ok k := by
  have hlen : 0 < s.list.length := List.length_pos_iff.mpr hne
  have hhead : s.list.head? = some s.list[0] := by
    rw [List.head?_eq_getElem?, List.getElem?_eq_getElem hlen]
  have hlastLt : s.list.length - 1 < s.list.length := by omega
  have hlast : s.list.getLast? = some s.list[s.list.length - 1] := by
    rw [List.getLast?_eq_getElem?, List.getElem?_eq_getElem hlastLt]
  simp only [findClosestSnapshotIndex, hhead, hlast]
  split
  · exact ⟨0, hlen, rfl⟩
  · split
    · exact ⟨s.list.length - 1, by omega, rfl⟩
    · rename_i hle
      have hloop := closestLoop_inRange (fun i => ((s.list[i]?).map Snapshot.number).getD 0)
        blockNum s.list.length s.list.length 0 (s.list.length - 1)
        (by simpa [List.getElem?_eq_getElem hlastLt] using hle) hlen hlastLt
      split
      · rename_i mid hmid
        rw [hmid] at hloop
        exact ⟨mid, hloop, rfl⟩
      · rename_i low high hpair
        rw [hpair] at hloop
        simp only [List.getElem?_eq_getElem hloop.1, List.getElem?_eq_getElem hloop.2]
        split
        · exact ⟨high, hloop.2, rfl⟩
        · exact ⟨low, hloop.1, rfl⟩

variable (hs : s.Sound n last)

include hs

theorem Sound.deleteLower (num : Nat) : ∃ s', s.deleteLower num = .ok s' ∧ s'.Sound n last := by
  obtain ⟨k, hk, hindex⟩ := findClosestSnapshotIndex_lt (List.ne_nil_of_mem (List.mem_of_getLast? hs.last_eq)) num
  refine ⟨{ s with list := s.list.drop k }, by simp [SnapshotStore.deleteLower, hindex], ?_⟩
  refine ⟨hs.increasing.sublist (List.drop_sublist k s.list), ?_, hs.last_le⟩
  rw [List.getLast?_drop, if_neg (by omega), hs.last_eq]

theorem Sound.self : s.Sound last.number last :=
  ⟨hs.increasing, hs.last_eq, le_rfl⟩

theorem Sound.list_putByNumber_eq (hnumber : snap.number = last.number) {init : List Snapshot}
    (hinit : s.list = init ++ [last]) : (s.putByNumber snap).list = init ++ [snap] := by
  have hlen : s.list.length = init.length + 1 := by rw [hinit, List.length_append]; rfl
  have hlast : ∀ k (hk : k < s.list.length), s.list[k].number = snap.number → k = init.length := by
    intro k hk heq
    by_contra hne
    have hlt := number_lt_of_lt hs.increasing (show k < init.length by omega) (by omega)
    have hget : s.list[init.length] = last := by simp [hinit]
    rw [hget] at hlt
    omega
  have hindex : search s.list.length (s.numberAt (· = snap.number)) = init.length := by
    apply search_of_mem_probes
    · rw [numberAt_eq (by omega)]
      simp [hinit, hnumber]
    · intro l hl
      rw [numberAt, Option.any_eq_false]
      intro x hx
      obtain ⟨hlt, rfl⟩ := List.getElem?_eq_some_iff.mp hx
      exact decide_eq_false fun heq => hl (hlast l hlt heq)
    · have hmem := last_mem_probes (show 0 < s.list.length by omega)
      rwa [hlen, Nat.add_sub_cancel, ← hlen] at hmem
  rw [putByNumber]
  simp only [hindex]
  rw [if_pos (by omega), hinit, List.set_append_right _ _ le_rfl, Nat.sub_self]
  rfl

theorem Sound.list_putByNumber_lt (hlt : last.number < snap.number) :
    (s.putByNumber snap).list = s.list ++ [snap] := by
  have hnone : ∀ k ∈ probes s.list.length, s.numberAt (· = snap.number) k = false := by
    intro k hprobe
    have hk : k < s.list.length := lt_of_mem_probesLoop hprobe
    have hle := hs.increasing.le_getLast hs.last_eq (List.getElem_mem hk)
    rw [numberAt_eq hk, decide_eq_false_iff_not]
    omega
  rw [putByNumber]
  simp only [search_of_forall_not hnone, lt_self_iff_false]
  exact hs.self.list_add hlt

theorem Sound.putByNumber (hn : snap.number = n) :
    (s.putByNumber snap).Sound n snap
      ∧ (∀ x ∈ s.list, x.number < n → x ∈ (s.putByNumber snap).list)
      ∧ ∀ h < n, (∃ x ∈ s.list, x.number ≤ h) → (s.putByNumber snap).find h = s.find h := by
  obtain ⟨init, hinit⟩ := List.getLast?_eq_some_iff.mp hs.last_eq
  -- in both cases the new list is a sorted list below `n` followed by the new snapshot
  obtain ⟨below, hlist, hsorted, hmem, hkeep⟩ : ∃ below, (s.putByNumber snap).list = below ++ [snap]
      ∧ Increasing Snapshot.number (below ++ [snap]) ∧ (∀ x ∈ s.list, x.number < n → x ∈ below)
      ∧ ∀ h < n, latest Snapshot.number s.list h = latest Snapshot.number below h := by
    rcases hs.last_le.eq_or_lt with heq | hlt
    · refine ⟨init, hs.list_putByNumber_eq (hn.trans heq.symm) hinit, ?_, ?_, ?_⟩
      · have hincreasing := hs.increasing
        rw [hinit, Increasing, List.pairwise_append] at hincreasing
        refine Increasing.append hincreasing.1 fun y hy => ?_
        have := hincreasing.2.2 y hy last (List.mem_singleton_self last)
        omega
      · intro x hx hxn
        rw [hinit] at hx
        rcases List.mem_append.mp hx with hx | hx
        · exact hx
        · rw [List.mem_singleton.mp hx] at hxn
          omega
      · intro h hh
        rw [hinit, latest_append_of_lt (by omega)]
    · refine ⟨s.list, hs.list_putByNumber_lt (by omega), ?_, fun x hx _ => hx, fun _ _ => rfl⟩
      refine hs.increasing.append fun y hy => ?_
      have := hs.increasing.le_getLast hs.last_eq hy
      omega
  have hmem' : ∀ x ∈ s.list, x.number < n → x ∈ (s.putByNumber snap).list := by
    intro x hx hxn
    rw [hlist]
    exact List.mem_append_left _ (hmem x hx hxn)
  refine ⟨⟨hlist ▸ hsorted, by rw [hlist, List.getLast?_concat], hn.le⟩, hmem', ?_⟩
  rintro h hh ⟨x, hx, hxh⟩
  rw [find_eq_latest hs.increasing ⟨x, hx, hxh⟩,
    find_eq_latest (hlist ▸ hsorted) ⟨x, hmem' x hx (by omega), hxh⟩, hlist,
    latest_append_of_lt (hn ▸ hh), hkeep h hh]

end Nxchain.SnapshotStore
