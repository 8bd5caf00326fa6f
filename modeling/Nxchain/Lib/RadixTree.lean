import Mathlib.Data.List.Infix

inductive RadixTree (α β : Type) where
  | nil
  | leaf (value : β)
  | ext (key : List α) (child : RadixTree α β)
  | branch (children : α → RadixTree α β)

namespace RadixTree

variable {α β : Type}

def extend : List α → RadixTree α β → RadixTree α β
  | [], t => t
  | _ :: _, nil => nil
  | a :: key, ext key' child => ext (a :: key ++ key') child
  | a :: key, leaf value => ext (a :: key) (leaf value)
  | a :: key, branch children => ext (a :: key) (branch children)

def TwoChildren (children : α → RadixTree α β) : Prop :=
  ∃ a b, a ≠ b ∧ children a ≠ nil ∧ children b ≠ nil

open Classical in
noncomputable def collapse (children : α → RadixTree α β) : RadixTree α β :=
  if TwoChildren children then branch children
  else if h : ∃ a, children a ≠ nil then extend [h.choose] (children h.choose)
  else nil

def Canonical : Nat → RadixTree α β → Prop
  | _, nil => True
  | n, leaf _ => n = 0
  | n, ext key child =>
    key ≠ [] ∧ child ≠ nil ∧ (∀ key' child', child ≠ ext key' child') ∧
      ∃ m, n = key.length + m ∧ Canonical m child
  | n, branch children => TwoChildren children ∧ ∃ m, n = m + 1 ∧ ∀ a, Canonical m (children a)

def Compact (t : RadixTree α β) : Prop := t ≠ nil ∧ ∀ key child, t ≠ ext key child

section Lookup

variable [DecidableEq α]

def get : RadixTree α β → List α → Option β
  | nil, _ => none
  | leaf value, k => if k = [] then some value else none
  | ext key child, k => if key <+: k then child.get (k.drop key.length) else none
  | branch _, [] => none
  | branch children, a :: k => (children a).get k

def sub : RadixTree α β → α → RadixTree α β
  | nil, _ | leaf _, _ | ext [] _, _ => nil
  | ext (b :: key) child, a => if a = b then extend key child else nil
  | branch children, a => children a

noncomputable def put : RadixTree α β → List α → Option β → RadixTree α β
  | _, [], none => nil
  | _, [], some value => leaf value
  | t, a :: k, o => collapse (Function.update t.sub a ((t.sub a).put k o))

end Lookup

variable {t t' : RadixTree α β} {children : α → RadixTree α β} {a b : α} {key k : List α} {n m : Nat}

@[simp]
theorem extend_nil (key : List α) : extend key (nil : RadixTree α β) = nil := by
  cases key <;> rfl

@[simp]
theorem extend_ext (key key' : List α) (child : RadixTree α β) :
    extend key (ext key' child) = ext (key ++ key') child := by
  cases key <;> rfl

theorem extend_append (key key' : List α) (t : RadixTree α β) :
    extend (key ++ key') t = extend key (extend key' t) := by
  cases key' with
  | nil => simp [extend]
  | cons b key' =>
    cases t with
    | nil => simp
    | leaf value => cases key <;> simp [extend]
    | ext key'' child => simp
    | branch children => cases key <;> simp [extend]

@[simp]
theorem extend_eq_nil_iff : extend key t = nil ↔ t = nil := by
  cases key with
  | nil => exact Iff.rfl
  | cons a key => cases t <;> simp [extend]

theorem compact_leaf (value : β) : (leaf value : RadixTree α β).Compact := ⟨nofun, nofun⟩

theorem compact_branch (children : α → RadixTree α β) : (branch children).Compact := ⟨nofun, nofun⟩

theorem Compact.extend (ht : t.Compact) (hkey : key ≠ []) : extend key t = ext key t := by
  obtain ⟨a, key, rfl⟩ := List.exists_cons_of_ne_nil hkey
  cases t with
  | nil => exact absurd rfl ht.1
  | leaf value => rfl
  | branch children => rfl
  | ext key' child => exact absurd rfl (ht.2 key' child)

theorem Canonical.extend (ht : Canonical n t) (key : List α) : Canonical (key.length + n) (extend key t) := by
  cases key with
  | nil => simpa [RadixTree.extend] using ht
  | cons a key =>
    cases t with
    | nil => trivial
    | leaf value => exact ⟨nofun, nofun, nofun, n, rfl, ht⟩
    | branch children => exact ⟨nofun, nofun, nofun, n, rfl, ht⟩
    | ext key' child =>
      obtain ⟨_, hchild, hnot, m, rfl, hm⟩ := ht
      refine ⟨nofun, hchild, hnot, m, ?_, hm⟩
      rw [List.length_append, Nat.add_assoc]

theorem Canonical.compact_child (hcanonical : Canonical n (ext key t)) : t.Compact :=
  ⟨hcanonical.2.1, hcanonical.2.2.1⟩

theorem Canonical.of_zero (ht : Canonical 0 t) : t = nil ∨ ∃ value, t = leaf value := by
  cases t with
  | nil => exact .inl rfl
  | leaf value => exact .inr ⟨value, rfl⟩
  | branch children =>
    obtain ⟨_, m, hm, _⟩ := ht
    omega
  | ext key child =>
    obtain ⟨hkey, _, _, m, hm, _⟩ := ht
    have := List.length_pos_iff.mpr hkey
    omega

theorem collapse_of_one (h : ∀ b, b ≠ a → children b = nil) : collapse children = extend [a] (children a) := by
  have htwo : ¬ TwoChildren children := by
    rintro ⟨b, c, hne, hb, hc⟩
    have hba : b = a := not_imp_comm.mp (h b) hb
    have hca : c = a := not_imp_comm.mp (h c) hc
    exact hne (hba.trans hca.symm)
  rw [collapse]
  split_ifs with hone
  · have : hone.choose = a := not_imp_comm.mp (h _) hone.choose_spec
    rw [this]
  · have : children a = nil := not_not.mp fun hne => hone ⟨a, hne⟩
    rw [this, extend_nil]

theorem collapse_of_two (h : TwoChildren children) : collapse children = branch children := if_pos h

theorem two_or_one [Nonempty α] (children : α → RadixTree α β) :
    TwoChildren children ∨ ∃ a, ∀ b, b ≠ a → children b = nil := by
  by_cases h : ∃ a, children a ≠ nil
  · obtain ⟨a, ha⟩ := h
    by_cases htwo : ∃ b, b ≠ a ∧ children b ≠ nil
    · obtain ⟨b, hne, hb⟩ := htwo
      exact .inl ⟨b, a, hne, hb, ha⟩
    · push Not at htwo
      exact .inr ⟨a, htwo⟩
  · push Not at h
    exact .inr ⟨Classical.arbitrary α, fun b _ => h b⟩

theorem Canonical.collapse (h : ∀ a, Canonical n (children a)) : Canonical (n + 1) (collapse children) := by
  by_cases hempty : Nonempty α
  · obtain htwo | ⟨c, hone⟩ := two_or_one children
    · rw [collapse_of_two htwo]
      exact ⟨htwo, n, rfl, h⟩
    · rw [collapse_of_one hone, Nat.add_comm]
      exact (h c).extend [c]
  · have hnone : ¬ ∃ a, children a ≠ nil := fun ⟨a, _⟩ => hempty ⟨a⟩
    have htwo : ¬ TwoChildren children := fun ⟨a, _⟩ => hempty ⟨a⟩
    rw [RadixTree.collapse, if_neg htwo, dif_neg hnone]
    trivial

variable [DecidableEq α]

theorem get_ext_append (key k : List α) (child : RadixTree α β) : (ext key child).get (key ++ k) = child.get k := by
  rw [get, if_pos (List.prefix_append key k), List.drop_left]

theorem get_ext_of_not (h : ¬ key <+: k) (child : RadixTree α β) : (ext key child).get k = none := by
  rw [get, if_neg h]

theorem get_extend_append (key k : List α) (t : RadixTree α β) : (extend key t).get (key ++ k) = t.get k := by
  cases key with
  | nil => rfl
  | cons a key =>
    cases t with
    | nil => rfl
    | leaf value => exact get_ext_append _ k _
    | branch children => exact get_ext_append _ k _
    | ext key' child =>
      by_cases h : key' <+: k
      · obtain ⟨rest, rfl⟩ := h
        rw [extend, get_ext_append, ← List.append_assoc, get_ext_append]
      · rw [extend, get_ext_of_not h, get_ext_of_not]
        rwa [List.prefix_append_right_inj]

theorem get_extend_of_not (h : ¬ key <+: k) (t : RadixTree α β) : (extend key t).get k = none := by
  cases key with
  | nil => exact absurd (List.nil_prefix) h
  | cons a key =>
    cases t with
    | nil => rfl
    | leaf value => exact get_ext_of_not h _
    | branch children => exact get_ext_of_not h _
    | ext key' child =>
      exact get_ext_of_not (fun hlong => h ((List.prefix_append _ key').trans hlong)) child

theorem get_sub (hcanonical : Canonical (n + 1) t) (a : α) (k : List α) : (t.sub a).get k = t.get (a :: k) := by
  cases t with
  | nil => rfl
  | leaf value => exact absurd hcanonical (Nat.succ_ne_zero n)
  | branch children => rfl
  | ext key child =>
    cases key with
    | nil => exact absurd rfl hcanonical.1
    | cons b key =>
      by_cases hab : a = b
      · subst hab
        rw [sub, if_pos rfl]
        by_cases h : key <+: k
        · obtain ⟨rest, rfl⟩ := h
          rw [get_extend_append, ← List.cons_append, get_ext_append]
        · rw [get_extend_of_not h, get_ext_of_not]
          rwa [List.prefix_cons_inj]
      · rw [sub, if_neg hab, get_ext_of_not, get]
        rintro ⟨rest, hrest⟩
        exact hab (List.cons.inj hrest).1.symm

theorem Canonical.sub (hcanonical : Canonical (n + 1) t) (a : α) : Canonical n (t.sub a) := by
  cases t with
  | nil => trivial
  | leaf value => exact absurd hcanonical (Nat.succ_ne_zero n)
  | branch children =>
    obtain ⟨_, m, hm, hchildren⟩ := hcanonical
    obtain rfl : n = m := by omega
    exact hchildren a
  | ext key child =>
    obtain ⟨hkey, _, _, m, hm, hchild⟩ := hcanonical
    cases key with
    | nil => exact absurd rfl hkey
    | cons b key =>
      rw [RadixTree.sub]
      split_ifs
      · have hlength : n = key.length + m := by
          rw [List.length_cons] at hm
          omega
        exact hlength ▸ hchild.extend key
      · trivial

theorem get_collapse (children : α → RadixTree α β) (a : α) (k : List α) :
    (collapse children).get (a :: k) = (children a).get k := by
  have : Nonempty α := ⟨a⟩
  obtain htwo | ⟨c, hone⟩ := two_or_one children
  · rw [collapse_of_two htwo, get]
  · rw [collapse_of_one hone]
    by_cases hac : a = c
    · subst hac
      exact get_extend_append [a] k _
    · rw [hone a hac, get_extend_of_not, get]
      rintro ⟨rest, hrest⟩
      exact hac (List.cons.inj hrest).1.symm

theorem Canonical.collapse_sub (hcanonical : Canonical (n + 1) t) : RadixTree.collapse t.sub = t := by
  cases t with
  | nil =>
    have hnone : ¬ ∃ a : α, (nil : RadixTree α β).sub a ≠ nil := fun ⟨_, h⟩ => h rfl
    have htwo : ¬ TwoChildren (nil : RadixTree α β).sub := fun ⟨_, _, _, h, _⟩ => h rfl
    rw [RadixTree.collapse, if_neg htwo, dif_neg hnone]
  | leaf value => exact absurd hcanonical (Nat.succ_ne_zero n)
  | branch children => exact collapse_of_two hcanonical.1
  | ext key child =>
    obtain ⟨hkey, hchild, hnot, _⟩ := hcanonical
    cases key with
    | nil => exact absurd rfl hkey
    | cons b key =>
      have hone : ∀ c, c ≠ b → (ext (b :: key) child).sub c = nil := fun c hne => if_neg hne
      rw [collapse_of_one hone, RadixTree.sub, if_pos rfl, ← extend_append]
      cases child with
      | nil => exact absurd rfl hchild
      | leaf value => rfl
      | branch children => rfl
      | ext key' child' => exact absurd rfl (hnot key' child')

section

variable (ht : Canonical n t)

include ht

theorem Canonical.ext_get (ht' : Canonical n t') (h : ∀ k, k.length = n → t.get k = t'.get k) : t = t' := by
  induction n generalizing t t' with
  | zero =>
    have hvalue := h [] rfl
    rcases ht.of_zero with rfl | ⟨v, rfl⟩ <;> rcases ht'.of_zero with rfl | ⟨v', rfl⟩
    · rfl
    · simp [get] at hvalue
    · simp [get] at hvalue
    · simpa [get] using hvalue
  | succ n ih =>
    rw [← ht.collapse_sub, ← ht'.collapse_sub]
    congr 1
    funext a
    apply ih (ht.sub a) (ht'.sub a)
    intro k hk
    rw [get_sub ht, get_sub ht']
    exact h (a :: k) (congrArg Nat.succ hk)

theorem Canonical.put (hk : k.length = n) (o : Option β) : Canonical n (t.put k o) := by
  induction k generalizing n t with
  | nil =>
    subst hk
    cases o with
    | none => trivial
    | some value => rfl
  | cons a k ih =>
    subst hk
    refine Canonical.collapse fun b => ?_
    by_cases hb : b = a
    · subst hb
      rw [Function.update_self]
      exact ih (ht.sub b) rfl
    · rw [Function.update_of_ne hb]
      exact ht.sub b

theorem get_put (hk : k.length = n) (o : Option β) {k' : List α} (hk' : k'.length = n) :
    (t.put k o).get k' = if k' = k then o else t.get k' := by
  induction k generalizing n t k' with
  | nil =>
    subst hk
    obtain rfl := List.length_eq_zero_iff.mp hk'
    cases o <;> simp [RadixTree.put, get]
  | cons a k ih =>
    subst hk
    obtain ⟨b, k', rfl⟩ := List.exists_cons_of_length_eq_add_one hk'
    rw [RadixTree.put, get_collapse]
    by_cases hb : b = a
    · subst hb
      rw [Function.update_self, ih (ht.sub b) rfl (Nat.succ.inj hk'), get_sub ht]
      simp only [List.cons.injEq, true_and]
    · rw [Function.update_of_ne hb, get_sub ht, if_neg]
      exact fun h => hb (List.cons.inj h).1

theorem put_some_ne_nil (hk : k.length = n) (value : β) : t.put k (some value) ≠ nil := by
  intro hnil
  have hget := get_put ht hk (some value) hk
  rw [hnil, if_pos rfl] at hget
  exact nomatch hget

end

theorem put_nil_some (k : List α) (value : β) :
    (nil : RadixTree α β).put k (some value) = extend k (leaf value) := by
  induction k with
  | nil => rfl
  | cons a k ih =>
    have hone : ∀ b, b ≠ a → Function.update (nil : RadixTree α β).sub a
        ((nil : RadixTree α β).put k (some value)) b = nil := by
      intro b hb
      rw [Function.update_of_ne hb]
      rfl
    calc
      (nil : RadixTree α β).put (a :: k) (some value)
          = extend [a] ((nil : RadixTree α β).put k (some value)) := by
        exact (collapse_of_one hone).trans (by rw [Function.update_self])
      _ = extend (a :: k) (leaf value) := by rw [ih, ← extend_append, List.singleton_append]

theorem put_branch (hcanonical : Canonical (n + 1) (branch children)) (hk : k.length = n) (a : α) (value : β) :
    (branch children).put (a :: k) (some value) =
      branch (Function.update children a ((children a).put k (some value))) := by
  obtain ⟨⟨b, c, hne, hb, hc⟩, m, hm, hchildren⟩ := hcanonical
  obtain rfl : n = m := Nat.succ.inj hm
  have hput := put_some_ne_nil (hchildren a) hk value
  -- one of the two children is not the one that is changed
  have hother : ∃ d, d ≠ a ∧ children d ≠ nil := by
    by_cases hba : b = a
    · exact ⟨c, fun hca => hne (hba.trans hca.symm), hc⟩
    · exact ⟨b, hba, hb⟩
  obtain ⟨d, hda, hd⟩ := hother
  refine collapse_of_two ⟨a, d, hda.symm, ?_, ?_⟩
  · rwa [Function.update_self]
  · rwa [Function.update_of_ne hda]

variable (ht : Canonical n t)

include ht

theorem Canonical.compact_put (hcompact : t.Compact) (hk : k.length = n) (value : β) :
    (t.put k (some value)).Compact := by
  cases t with
  | nil => exact absurd rfl hcompact.1
  | ext key child => exact absurd rfl (hcompact.2 key child)
  | leaf value' =>
    obtain rfl : n = 0 := ht
    obtain rfl := List.length_eq_zero_iff.mp hk
    exact compact_leaf value
  | branch children =>
    obtain ⟨m, rfl, _⟩ := ht.2
    obtain ⟨a, k, rfl⟩ := List.exists_cons_of_length_eq_add_one hk
    rw [put_branch ht (Nat.succ.inj hk)]
    exact compact_branch _

theorem Canonical.sub_extend (a : α) (key : List α) (b : α) :
    (RadixTree.extend (a :: key) t).sub b = if b = a then RadixTree.extend key t else nil := by
  cases t with
  | nil => simp [RadixTree.sub]
  | leaf value => rfl
  | branch children => rfl
  | ext key' child =>
    have hkey : key ++ key' ≠ [] := fun h => ht.1 (List.append_eq_nil_iff.mp h).2
    rw [extend_ext, extend_ext, List.cons_append, RadixTree.sub, ht.compact_child.extend hkey]

theorem Canonical.put_extend (key k : List α) (o : Option β) :
    (RadixTree.extend key t).put (key ++ k) o = RadixTree.extend key (t.put k o) := by
  induction key with
  | nil => rfl
  | cons a key ih =>
    have hone : ∀ b, b ≠ a → Function.update (RadixTree.extend (a :: key) t).sub a
        (((RadixTree.extend (a :: key) t).sub a).put (key ++ k) o) b = nil := by
      intro b hb
      rw [Function.update_of_ne hb, ht.sub_extend, if_neg hb]
    calc
      (RadixTree.extend (a :: key) t).put (a :: key ++ k) o
          = RadixTree.extend [a] (((RadixTree.extend (a :: key) t).sub a).put (key ++ k) o) := by
        exact (collapse_of_one hone).trans (by rw [Function.update_self])
      _ = RadixTree.extend (a :: key) (t.put k o) := by
        rw [ht.sub_extend, if_pos rfl, ih, ← extend_append, List.singleton_append]

theorem Canonical.put_split (hne : t ≠ nil) (key r k : List α) {a b : α} (hab : b ≠ a) (value : β) :
    (RadixTree.extend (key ++ a :: r) t).put (key ++ b :: k) (some value) =
      RadixTree.extend key
        (branch (Function.update (Function.update (fun _ => nil) a (RadixTree.extend r t)) b
          (RadixTree.extend k (leaf value)))) := by
  rw [extend_append, (ht.extend (a :: r)).put_extend]
  congr 1
  have hsub : (RadixTree.extend (a :: r) t).sub = Function.update (fun _ => nil) a (RadixTree.extend r t) := by
    funext c
    rw [ht.sub_extend, Function.update_apply]
  rw [RadixTree.put, hsub, Function.update_of_ne hab, put_nil_some]
  refine collapse_of_two ⟨a, b, hab.symm, ?_, ?_⟩
  · rw [Function.update_of_ne hab.symm, Function.update_self, ne_eq, extend_eq_nil_iff]
    exact hne
  · rw [Function.update_self, ne_eq, extend_eq_nil_iff]
    exact nofun

theorem Canonical.exists_get (hne : t ≠ nil) : ∃ k, k.length = n ∧ t.get k ≠ none := by
  induction t generalizing n with
  | nil => exact absurd rfl hne
  | leaf value =>
    obtain rfl : n = 0 := ht
    exact ⟨[], rfl, nofun⟩
  | ext key child ih =>
    obtain ⟨_, hchild, _, m, rfl, hm⟩ := ht
    obtain ⟨k, hk, hget⟩ := ih hm hchild
    refine ⟨key ++ k, by rw [List.length_append, hk], ?_⟩
    rwa [get_ext_append]
  | branch children ih =>
    obtain ⟨⟨a, _, _, ha, _⟩, m, rfl, hm⟩ := ht
    obtain ⟨k, hk, hget⟩ := ih a (hm a) ha
    exact ⟨a :: k, by rw [List.length_cons, hk], hget⟩

theorem Canonical.get_of_length_ne (hk : k.length ≠ n) : t.get k = none := by
  induction t generalizing n k with
  | nil => rfl
  | leaf value =>
    obtain rfl : n = 0 := ht
    rw [get, if_neg fun h => hk (by rw [h]; rfl)]
  | ext key child ih =>
    obtain ⟨_, _, _, m, rfl, hm⟩ := ht
    by_cases h : key <+: k
    · obtain ⟨rest, rfl⟩ := h
      rw [get_ext_append]
      refine ih hm fun hrest => hk ?_
      rw [List.length_append, hrest]
    · exact get_ext_of_not h child
  | branch children ih =>
    obtain ⟨_, m, rfl, hm⟩ := ht
    cases k with
    | nil => rfl
    | cons a k => exact ih a (hm a) fun h => hk (by rw [List.length_cons, h])

end RadixTree
