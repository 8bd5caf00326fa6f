import Mathlib.Data.List.Forall2

namespace Except

variable {ε ε' α β γ : Type}

variable {x : Except ε α} {f : α → Except ε β} {b : β} {a : α} {as : List α}

theorem ok_bind (a : α) (f : α → Except ε β) : Except.ok a >>= f = f a := rfl

theorem bind_eq_ok_iff : x >>= f = .ok b ↔ ∃ a, x = .ok a ∧ f a = .ok b := by
  cases x with
  | error e => simp [bind, Except.bind]
  | ok a => simp [bind, Except.bind]

theorem bind_eq_ok (hx : x = .ok a) (hf : f a = .ok b) : x >>= f = .ok b := bind_eq_ok_iff.mpr ⟨a, hx, hf⟩

theorem mapError_eq_ok_iff {f : ε → ε'} : x.mapError f = .ok a ↔ x = .ok a := by
  cases x <;> simp [Except.mapError]

theorem map_eq_ok_iff {f : α → β} : x.map f = .ok b ↔ ∃ a, x = .ok a ∧ f a = b := by
  cases x <;> simp [Except.map]

theorem toOption_eq_some_iff : x.toOption = some a ↔ x = .ok a := by
  cases x <;> simp [Except.toOption]

theorem ite_throw_bind_eq_ok_iff {c : Prop} [Decidable c] {e : ε} {f : PUnit → Except ε α} :
    (if c then (throw e : Except ε PUnit) >>= f else f ⟨⟩) = .ok a ↔ ¬ c ∧ f ⟨⟩ = .ok a := by
  by_cases hc : c
  · simp [hc, bind, Except.bind]
  · simp [hc]

theorem foldlM_inv {p : β → Prop} {f : β → α → Except ε β} (hstep : ∀ b a b', p b → f b a = .ok b' → p b') {b' : β} (hb : p b) (hfold : as.foldlM f b = .ok b') : p b' := by
  induction as generalizing b with
  | nil =>
    cases hfold
    exact hb
  | cons a as ih =>
    obtain ⟨next, hnext, hrest⟩ := bind_eq_ok_iff.mp hfold
    exact ih (hstep b a next hb hnext) hrest

theorem foldlM_collects {p : β → List γ → Prop} {f : β → α → Except ε β} {g : α → List γ}
    (hstep : ∀ b cs a, a ∈ as → p b cs → ∃ b', f b a = .ok b' ∧ p b' (cs ++ g a)) {cs : List γ} (hb : p b cs) :
    ∃ b', as.foldlM f b = .ok b' ∧ p b' (cs ++ as.flatMap g) := by
  induction as generalizing b cs with
  | nil => exact ⟨b, rfl, by simpa using hb⟩
  | cons a as ih =>
    obtain ⟨next, hnext, hp⟩ := hstep b cs a List.mem_cons_self hb
    obtain ⟨b', hrest, hb'⟩ := ih (fun b cs x hx => hstep b cs x (List.mem_cons_of_mem a hx)) hp
    refine ⟨b', bind_eq_ok_iff.mpr ⟨next, hnext, hrest⟩, ?_⟩
    simpa using hb'

theorem foldlM_append {f : List γ → α → Except ε (List γ)} {g : α → List γ}
    (hstep : ∀ cs a, a ∈ as → f cs a = .ok (cs ++ g a)) (cs : List γ) :
    as.foldlM f cs = .ok (cs ++ as.flatMap g) := by
  have hcollects : ∃ b, as.foldlM f cs = .ok b ∧ b = cs ++ as.flatMap g :=
    foldlM_collects (p := Eq) (fun b _ a ha hb => ⟨b ++ g a, hstep b a ha, by rw [hb]⟩) rfl
  obtain ⟨_, hfold, rfl⟩ := hcollects
  exact hfold

theorem mapM_eq_ok_iff {bs : List β} : as.mapM f = .ok bs ↔ List.Forall₂ (fun a b => f a = .ok b) as bs := by
  induction as generalizing bs with
  | nil =>
    rw [List.forall₂_nil_left_iff]
    exact ⟨fun h => (Except.ok.inj h).symm, fun h => h ▸ rfl⟩
  | cons a as ih =>
    rw [List.mapM_cons, bind_eq_ok_iff, List.forall₂_cons_left_iff]
    constructor
    · rintro ⟨b, hb, hrest⟩
      obtain ⟨bs', hbs, heq⟩ := bind_eq_ok_iff.mp hrest
      exact ⟨b, bs', hb, ih.mp hbs, (Except.ok.inj heq).symm⟩
    · rintro ⟨b, bs', hb, hbs, rfl⟩
      exact ⟨b, hb, bind_eq_ok_iff.mpr ⟨bs', ih.mpr hbs, rfl⟩⟩

theorem forall_mem_of_mapM {bs : List β} {p : β → Prop} (h : as.mapM f = .ok bs)
    (hp : ∀ a ∈ as, ∀ b, f a = .ok b → p b) : ∀ b ∈ bs, p b := by
  induction mapM_eq_ok_iff.mp h with
  | nil => exact nofun
  | @cons a b as bs hb hbs ih =>
    intro c hc
    rcases List.mem_cons.mp hc with rfl | hc
    · exact hp a List.mem_cons_self c hb
    · exact ih (mapM_eq_ok_iff.mpr hbs) (fun a ha => hp a (List.mem_cons_of_mem _ ha)) c hc

def Errs (p : ε → Prop) (x : Except ε α) : Prop := ∀ e, x = .error e → p e

namespace Errs

variable {p : ε → Prop}

theorem ok (a : α) : Errs p (.ok a : Except ε α) := fun _ h => nomatch h

theorem error {e : ε} (h : p e) : Errs p (.error e : Except ε α) := fun _ heq => Except.error.inj heq ▸ h

theorem bind {x : Except ε α} {f : α → Except ε β} (hx : Errs p x) (hf : ∀ a, Errs p (f a)) : Errs p (x >>= f) := by
  cases x with
  | error e => exact error (hx e rfl)
  | ok a => exact hf a

theorem mapError {p' : ε' → Prop} {x : Except ε α} {f : ε → ε'} (hx : Errs (fun e => p' (f e)) x) :
    Errs p' (x.mapError f) := by
  cases x with
  | error e => exact error (hx e rfl)
  | ok a => exact ok a

theorem mapM {f : α → Except ε β} (hf : ∀ a, Errs p (f a)) (as : List α) : Errs p (as.mapM f) := by
  induction as with
  | nil => exact ok []
  | cons a as ih =>
    rw [List.mapM_cons]
    exact (hf a).bind fun _ => ih.bind fun _ => ok _

end Errs

end Except
