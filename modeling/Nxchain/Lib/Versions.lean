import Mathlib.Data.List.Sort

namespace Versions

variable {f : Nat → Bool} {n fuel i j : Nat}

def searchLoop (f : Nat → Bool) : Nat → Nat → Nat → Nat
  | 0, i, _ => i
  | fuel + 1, i, j =>
    if i < j then
      let h := (i + j) / 2
      if f h then searchLoop f fuel i h else searchLoop f fuel (h + 1) j
    else i

def search (n : Nat) (f : Nat → Bool) : Nat := searchLoop f n 0 n

theorem searchLoop_spec (hmono : ∀ k l, k ≤ l → l < n → f k → f l) (hij : i ≤ j) (hjn : j ≤ n)
    (hfuel : j - i ≤ fuel) (hbelow : ∀ k < i, f k = false) (habove : ∀ k, j ≤ k → k < n → f k = true) :
    (∀ k < searchLoop f fuel i j, f k = false)
      ∧ ∀ k, searchLoop f fuel i j ≤ k → k < n → f k = true := by
  induction fuel generalizing i j with
  | zero =>
    obtain rfl : i = j := by omega
    exact ⟨hbelow, habove⟩
  | succ fuel ih =>
    rw [searchLoop]
    split
    · dsimp only
      split
      · rename_i hlt hf
        refine ih (by omega) (by omega) (by omega) hbelow ?_
        intro k hk hkn
        exact hmono _ k hk hkn hf
      · rename_i hlt hf
        refine ih (by omega) hjn (by omega) ?_ habove
        intro k hk
        by_contra hfk
        exact hf (hmono k _ (by omega) (by omega) (by simpa using hfk))
    · obtain rfl : i = j := by omega
      exact ⟨hbelow, habove⟩

theorem search_spec (hmono : ∀ k l, k ≤ l → l < n → f k → f l) :
    (∀ k < search n f, f k = false) ∧ ∀ k, search n f ≤ k → k < n → f k = true :=
  searchLoop_spec hmono (Nat.zero_le n) le_rfl (by omega) (by omega) (by omega)

def probesLoop : Nat → Nat → Nat → List Nat
  | 0, _, _ => []
  | fuel + 1, i, j =>
    if i < j then (i + j) / 2 :: probesLoop fuel ((i + j) / 2 + 1) j else []

def probes (n : Nat) : List Nat := probesLoop n 0 n

theorem lt_of_mem_probesLoop {k : Nat} (hk : k ∈ probesLoop fuel i j) : k < j := by
  induction fuel generalizing i with
  | zero => cases hk
  | succ fuel ih =>
    rw [probesLoop] at hk
    split at hk
    · rcases List.mem_cons.mp hk with rfl | hk
      · omega
      · exact ih hk
    · cases hk

theorem searchLoop_of_forall_not (hij : i ≤ j) (hfuel : j - i ≤ fuel)
    (hf : ∀ k ∈ probesLoop fuel i j, f k = false) : searchLoop f fuel i j = j := by
  induction fuel generalizing i with
  | zero =>
    rw [searchLoop]
    omega
  | succ fuel ih =>
    rw [searchLoop]
    rw [probesLoop] at hf
    split
    · rename_i hlt
      rw [if_pos hlt, List.forall_mem_cons] at hf
      rw [if_neg (by simp [hf.1])]
      exact ih (by omega) (by omega) hf.2
    · omega

theorem searchLoop_of_mem_probes {k : Nat} (hfuel : j - i ≤ fuel) (hk : f k = true)
    (hne : ∀ l, l ≠ k → f l = false) (hmem : k ∈ probesLoop fuel i j) :
    searchLoop f fuel i j = k := by
  induction fuel generalizing i with
  | zero => cases hmem
  | succ fuel ih =>
    rw [probesLoop] at hmem
    rw [searchLoop]
    split at hmem
    · rename_i hij
      rw [if_pos hij]
      by_cases hmid : k = (i + j) / 2
      · rw [← hmid, if_pos hk]
        refine searchLoop_of_forall_not (by omega) (by omega) fun l hl => hne l ?_
        exact (lt_of_mem_probesLoop hl).ne
      · rw [if_neg (by simp [hne _ (Ne.symm hmid)])]
        exact ih (by omega) ((List.mem_cons.mp hmem).resolve_left hmid)
    · cases hmem

theorem search_of_mem_probes {k : Nat} (hk : f k = true) (hne : ∀ l, l ≠ k → f l = false) (hmem : k ∈ probes n) :
    search n f = k :=
  searchLoop_of_mem_probes (by omega) hk hne hmem

theorem search_of_forall_not (hf : ∀ k ∈ probes n, f k = false) : search n f = n :=
  searchLoop_of_forall_not (Nat.zero_le n) (by omega) hf

theorem mem_probesLoop_last (hij : i < j) (hfuel : j - i ≤ fuel) : j - 1 ∈ probesLoop fuel i j := by
  induction fuel generalizing i with
  | zero => omega
  | succ fuel ih =>
    rw [probesLoop, if_pos hij, List.mem_cons]
    by_cases hmid : j - 1 = (i + j) / 2
    · exact Or.inl hmid
    · exact Or.inr (ih (by omega) (by omega))

theorem last_mem_probes (hn : 0 < n) : n - 1 ∈ probes n :=
  mem_probesLoop_last hn (by omega)

variable {α : Type} (number : α → Nat)

def Increasing (l : List α) : Prop := l.Pairwise (fun x y => number x < number y)

instance (l : List α) : Decidable (Increasing number l) :=
  inferInstanceAs (Decidable (l.Pairwise (fun x y => number x < number y)))

def latest (l : List α) (n : Nat) : Option α := (l.filter (fun x => number x ≤ n)).getLast?

variable {number} {l : List α} {x : α} {n : Nat}

theorem latest_eq_getLast (h : ∀ x ∈ l, number x ≤ n) : latest number l n = l.getLast? := by
  rw [latest, List.filter_eq_self.mpr]
  simpa using h

theorem latest_eq_take (k : Nat) (hbefore : ∀ x ∈ l.take k, number x ≤ n) (hafter : ∀ x ∈ l.drop k, n < number x) :
    latest number l n = (l.take k).getLast? := by
  have hkeep : (l.take k).filter (fun x => number x ≤ n) = l.take k := by
    simpa using hbefore
  have hskip : (l.drop k).filter (fun x => number x ≤ n) = [] := by
    simpa using hafter
  rw [latest]
  nth_rewrite 1 [← List.take_append_drop k l]
  rw [List.filter_append, hkeep, hskip, List.append_nil]

theorem exists_latest (h : ∃ x ∈ l, number x ≤ n) :
    ∃ y, latest number l n = some y ∧ number y ≤ n := by
  obtain ⟨x, hx, hle⟩ := h
  have hne : l.filter (fun x => number x ≤ n) ≠ [] :=
    List.ne_nil_of_mem (List.mem_filter.mpr ⟨hx, decide_eq_true hle⟩)
  refine ⟨_, List.getLast?_eq_getLast_of_ne_nil hne, ?_⟩
  exact of_decide_eq_true (List.mem_filter.mp (List.getLast_mem hne)).2

theorem latest_append_of_lt (h : n < number x) : latest number (l ++ [x]) n = latest number l n := by
  rw [latest, List.filter_append, List.filter_cons_of_neg (by simpa using h), List.filter_nil,
    List.append_nil, latest]

theorem latest_append_of_exists {l' : List α} (h : ∃ x ∈ l', number x ≤ n) :
    latest number (l ++ l') n = latest number l' n := by
  obtain ⟨x, hx, hxn⟩ := h
  have hne : l'.filter (fun x => number x ≤ n) ≠ [] :=
    List.ne_nil_of_mem (List.mem_filter.mpr ⟨hx, decide_eq_true hxn⟩)
  rw [latest, latest, List.filter_append, List.getLast?_append_of_ne_nil _ hne]

theorem Increasing.append (hl : Increasing number l) (h : ∀ y ∈ l, number y < number x) :
    Increasing number (l ++ [x]) := by
  rw [Increasing, List.pairwise_append]
  exact ⟨hl, List.pairwise_singleton _ _, by simpa using h⟩

theorem Increasing.le_getLast (hl : Increasing number l) {last : α} (hlast : l.getLast? = some last) {y : α}
    (hy : y ∈ l) : number y ≤ number last := by
  obtain ⟨init, rfl⟩ := List.getLast?_eq_some_iff.mp hlast
  rw [Increasing, List.pairwise_append] at hl
  rcases List.mem_append.mp hy with hy | hy
  · exact (hl.2.2 y hy last (List.mem_singleton_self last)).le
  · rw [List.mem_singleton.mp hy]

theorem Increasing.insertionSort (hl : l.Pairwise (fun x y => number x ≠ number y)) :
    Increasing number (l.insertionSort (fun x y => number x ≤ number y)) := by
  have hne : (l.insertionSort (fun x y => number x ≤ number y)).Pairwise (fun x y => number x ≠ number y) :=
    ((List.perm_insertionSort _ l).pairwise_iff Ne.symm).mpr hl
  have hle : (l.insertionSort (fun x y => number x ≤ number y)).Pairwise (fun x y => number x ≤ number y) :=
    List.pairwise_insertionSort _ l
  exact (hle.and hne).imp fun h => lt_of_le_of_ne h.1 h.2

theorem Increasing.insertionSort_eq (hl : Increasing number l) :
    l.insertionSort (fun x y => number x ≤ number y) = l :=
  List.Pairwise.insertionSort_eq (hl.imp Nat.le_of_lt)

end Versions
