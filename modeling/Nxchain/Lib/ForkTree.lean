import Mathlib.Algebra.BigOperators.Group.Finset.Basic

namespace ForkTree

structure Shape (β κ : Type) where
  key : β → κ
  up : β → κ
  level : β → Nat
  weight : β → Nat

variable {β κ : Type} (S : Shape β κ)

def IsParent (t : Finset β) (b p : β) : Prop :=
  b ∈ t ∧ p ∈ t ∧ S.key p = S.up b ∧ S.level b = S.level p + 1

def Ancestor (t : Finset β) (a b : β) : Prop := Relation.ReflTransGen (IsParent S t) b a

def Leaf (t : Finset β) (b : β) : Prop := ∀ x, ¬ IsParent S t x b

section Ancestor

variable {S} {t : Finset β} {a b p x : β}

theorem Ancestor.refl (b : β) : Ancestor S t b b := Relation.ReflTransGen.refl

theorem Ancestor.trans (hab : Ancestor S t a b) (hbx : Ancestor S t b x) : Ancestor S t a x :=
  Relation.ReflTransGen.trans hbx hab

theorem IsParent.ancestor (hp : IsParent S t b p) : Ancestor S t p b :=
  Relation.ReflTransGen.single hp

theorem Ancestor.level_le (h : Ancestor S t a b) : S.level a ≤ S.level b := by
  induction h with
  | refl => exact le_rfl
  | tail _ hstep ih =>
    have := hstep.2.2.2
    omega

theorem Ancestor.mem (h : Ancestor S t a b) (hb : b ∈ t) : a ∈ t := by
  induction h with
  | refl => exact hb
  | tail _ hstep _ => exact hstep.2.1

theorem Ancestor.eq_of_level_eq (h : Ancestor S t a b) (hlevel : S.level a = S.level b) : a = b := by
  rcases Relation.ReflTransGen.cases_head h with heq | ⟨q, hq, hrest⟩
  · exact heq.symm
  · have hle : S.level a ≤ S.level q := Ancestor.level_le hrest
    have := hq.2.2.2
    omega

theorem Leaf.eq_of_ancestor (hleaf : Leaf S t b) (h : Ancestor S t b x) : x = b := by
  rcases Relation.ReflTransGen.cases_tail h with heq | ⟨c, _, hstep⟩
  · exact heq.symm
  · exact absurd hstep (hleaf c)

end Ancestor

variable [DecidableEq β]

inductive Grown (root : β) : Finset β → Prop
  | root (hlevel : S.level root = 0) : Grown root {root}
  | insert {t : Finset β} {b p : β} (ht : Grown root t) (hp : p ∈ t) (hkey : S.key p = S.up b)
      (hlevel : S.level b = S.level p + 1) (hfresh : ∀ x ∈ t, S.key x ≠ S.key b) :
      Grown root (insert b t)

open Classical in
noncomputable def totalWeight (t : Finset β) (b : β) : Nat :=
  ∑ a ∈ t with Ancestor S t a b, S.weight a

variable {S} {root : β} {t : Finset β} {a b p x y : β}

theorem Ancestor.mono (h : Ancestor S t a b) : Ancestor S (insert x t) a b :=
  Relation.ReflTransGen.mono (fun _ _ hstep => ⟨Finset.mem_insert_of_mem hstep.1,
    Finset.mem_insert_of_mem hstep.2.1, hstep.2.2⟩) _ _ h

variable (ht : Grown S root t)

include ht

theorem Grown.root_mem : root ∈ t := by
  induction ht with
  | root _ => exact Finset.mem_singleton_self root
  | insert _ _ _ _ _ ih => exact Finset.mem_insert_of_mem ih

theorem Grown.level_root : S.level root = 0 := by
  induction ht with
  | root hlevel => exact hlevel
  | insert _ _ _ _ _ ih => exact ih

theorem Grown.eq_of_key_eq (hx : x ∈ t) (hy : y ∈ t) (hkey : S.key x = S.key y) : x = y := by
  induction ht with
  | root _ =>
    rw [Finset.mem_singleton] at hx hy
    rw [hx, hy]
  | insert _ _ _ _ hfresh ih =>
    rw [Finset.mem_insert] at hx hy
    rcases hx with rfl | hx <;> rcases hy with rfl | hy
    · rfl
    · exact absurd hkey.symm (hfresh y hy)
    · exact absurd hkey (hfresh x hx)
    · exact ih hx hy

theorem Grown.exists_parent (hb : b ∈ t) : b = root ∨ ∃ p, IsParent S t b p := by
  induction ht with
  | root _ => exact Or.inl (Finset.mem_singleton.mp hb)
  | @insert t c p _ hp hkey hlevel _ ih =>
    rcases Finset.mem_insert.mp hb with rfl | hold
    · exact Or.inr ⟨p, Finset.mem_insert_self _ _, Finset.mem_insert_of_mem hp, hkey, hlevel⟩
    · rcases ih hold with rfl | ⟨q, hbt, hqt, hqkey, hqlevel⟩
      · exact Or.inl rfl
      · exact Or.inr ⟨q, Finset.mem_insert_of_mem hbt, Finset.mem_insert_of_mem hqt, hqkey, hqlevel⟩

theorem Grown.eq_root_of_level_eq_zero (hb : b ∈ t) (hlevel : S.level b = 0) : b = root := by
  rcases ht.exists_parent hb with rfl | ⟨p, _, _, _, hsucc⟩
  · rfl
  · omega

theorem IsParent.unique (hp : IsParent S t b p) (hq : IsParent S t b x) : p = x :=
  ht.eq_of_key_eq hp.2.1 hq.2.1 (hp.2.2.1.trans hq.2.2.1.symm)

theorem Ancestor.eq_or_parent (h : Ancestor S t a b) (hp : IsParent S t b p) : a = b ∨ Ancestor S t a p := by
  rcases Relation.ReflTransGen.cases_head h with heq | ⟨q, hq, hrest⟩
  · exact Or.inl heq.symm
  · rw [IsParent.unique ht hp hq]
    exact Or.inr hrest

theorem Grown.exists_ancestor (hb : b ∈ t) {n : Nat} (hn : n ≤ S.level b) :
    ∃ a, Ancestor S t a b ∧ S.level a = n := by
  generalize hgap : S.level b - n = gap
  induction gap generalizing b with
  | zero => exact ⟨b, Ancestor.refl b, by omega⟩
  | succ gap ih =>
    rcases ht.exists_parent hb with rfl | ⟨p, hp⟩
    · have := ht.level_root
      omega
    · have hlevel := hp.2.2.2
      obtain ⟨a, hap, ha⟩ := ih hp.2.1 (by omega) (by omega)
      exact ⟨a, hap.trans hp.ancestor, ha⟩

theorem Ancestor.unique (hx : Ancestor S t x b) (hy : Ancestor S t y b) (hlevel : S.level x = S.level y) :
    x = y := by
  induction hx using Relation.ReflTransGen.head_induction_on with
  | refl => exact (hy.eq_of_level_eq hlevel.symm).symm
  | @head c q hstep hrest ih =>
    rcases hy.eq_or_parent ht hstep with rfl | hyq
    · have hle : S.level x ≤ S.level q := Ancestor.level_le hrest
      have := hstep.2.2.2
      omega
    · exact ih hyq

theorem Ancestor.of_level_le (hx : Ancestor S t x b) (hy : Ancestor S t y b) (hb : b ∈ t)
    (hlevel : S.level x ≤ S.level y) : Ancestor S t x y := by
  obtain ⟨z, hz, hzlevel⟩ := ht.exists_ancestor (hy.mem hb) hlevel
  rw [Ancestor.unique ht hx (hz.trans hy) hzlevel.symm]
  exact hz

theorem ancestor_insert_iff (hb : b ∈ t) (hfresh : ∀ y ∈ t, S.key y ≠ S.key x) :
    Ancestor S (insert x t) a b ↔ Ancestor S t a b := by
  constructor
  · intro h
    induction h with
    | refl => exact Ancestor.refl b
    | @tail c d hpath hstep ih =>
      have hc : c ∈ t := Ancestor.mem ih hb
      rcases Finset.mem_insert.mp hstep.2.1 with rfl | hd
      · rcases ht.exists_parent hc with rfl | ⟨q, hq⟩
        · have hroot := ht.level_root
          have := hstep.2.2.2
          omega
        · exact absurd (hq.2.2.1.trans hstep.2.2.1.symm) (hfresh q hq.2.1)
      · exact Relation.ReflTransGen.tail ih ⟨hc, hd, hstep.2.2⟩
  · exact Ancestor.mono

theorem leaf_insert_self (hfresh : ∀ y ∈ t, S.key y ≠ S.key x) : Leaf S (insert x t) x := by
  intro y hparent
  have hlevel := hparent.2.2.2
  rcases Finset.mem_insert.mp hparent.1 with rfl | hy
  · omega
  · rcases ht.exists_parent hy with rfl | ⟨q, hq⟩
    · have := ht.level_root
      omega
    · exact hfresh q hq.2.1 (hq.2.2.1.trans hparent.2.2.1.symm)

theorem Leaf.insert (hleaf : Leaf S t b) (hb : b ∈ t) (hp : p ∈ t) (hkey : S.key p = S.up x) (hne : p ≠ b)
    (hfresh : ∀ y ∈ t, S.key y ≠ S.key x) : Leaf S (insert x t) b := by
  intro y hparent
  rcases Finset.mem_insert.mp hparent.1 with rfl | hy
  · exact hne (ht.eq_of_key_eq hp hb (hkey.trans hparent.2.2.1.symm))
  · exact hleaf y ⟨hy, hb, hparent.2.2⟩

theorem totalWeight_root : totalWeight S t root = S.weight root := by
  classical
  have hset : t.filter (fun a => Ancestor S t a root) = {root} := by
    ext a
    rw [Finset.mem_filter, Finset.mem_singleton]
    constructor
    · rintro ⟨hat, hanc⟩
      have hle := hanc.level_le
      have hzero := ht.level_root
      exact ht.eq_root_of_level_eq_zero hat (by omega)
    · rintro rfl
      exact ⟨ht.root_mem, Ancestor.refl _⟩
  rw [totalWeight]
  convert Finset.sum_singleton S.weight root using 2

theorem totalWeight_parent (hp : IsParent S t b p) : totalWeight S t b = totalWeight S t p + S.weight b := by
  classical
  have hset : t.filter (fun a => Ancestor S t a b) = insert b (t.filter (fun a => Ancestor S t a p)) := by
    ext a
    rw [Finset.mem_insert, Finset.mem_filter, Finset.mem_filter]
    constructor
    · rintro ⟨hat, hanc⟩
      rcases hanc.eq_or_parent ht hp with rfl | hap
      · exact Or.inl rfl
      · exact Or.inr ⟨hat, hap⟩
    · rintro (rfl | ⟨hat, hap⟩)
      · exact ⟨hp.1, Ancestor.refl _⟩
      · exact ⟨hat, hap.trans hp.ancestor⟩
  have hnot : b ∉ t.filter (fun a => Ancestor S t a p) := by
    intro hmem
    have hle := (Finset.mem_filter.mp hmem).2.level_le
    have := hp.2.2.2
    omega
  have hsum := Finset.sum_insert (f := S.weight) hnot
  rw [totalWeight, totalWeight, add_comm]
  convert hsum using 2

theorem totalWeight_insert (hb : b ∈ t) (hfresh : ∀ y ∈ t, S.key y ≠ S.key x) :
    totalWeight S (insert x t) b = totalWeight S t b := by
  classical
  have hset : (insert x t).filter (fun a => Ancestor S (insert x t) a b)
      = t.filter (fun a => Ancestor S t a b) := by
    ext a
    rw [Finset.mem_filter, Finset.mem_filter, ancestor_insert_iff ht hb hfresh]
    constructor
    · rintro ⟨_, hanc⟩
      exact ⟨hanc.mem hb, hanc⟩
    · rintro ⟨hat, hanc⟩
      exact ⟨Finset.mem_insert_of_mem hat, hanc⟩
  exact Finset.sum_congr (by convert hset) fun _ _ => rfl

end ForkTree
