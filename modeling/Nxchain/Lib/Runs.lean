import Mathlib.Data.List.Induction
import Mathlib.Data.Multiset.AddSub

namespace Runs

variable {σ ι : Type} (step : σ → ι → σ)

variable {s : σ} {inputs : List ι}

def Along (p : σ → ι → Prop) : σ → List ι → Prop
  | _, [] => True
  | s, input :: rest => p s input ∧ Along p (step s input) rest

instance decidableAlong (p : σ → ι → Prop) [∀ s input, Decidable (p s input)] :
    ∀ s inputs, Decidable (Along step p s inputs)
  | _, [] => .isTrue trivial
  | s, input :: rest =>
    have := decidableAlong p (step s input) rest
    inferInstanceAs (Decidable (p s input ∧ Along step p (step s input) rest))

variable {step} {p q : σ → ι → Prop} {inv : σ → Prop}

@[simp]
theorem along_nil (s : σ) : Along step p s [] := trivial

@[simp]
theorem along_cons (s : σ) (input : ι) (rest : List ι) :
    Along step p s (input :: rest) ↔ p s input ∧ Along step p (step s input) rest := Iff.rfl

theorem along_and :
    Along step (fun s input => p s input ∧ q s input) s inputs ↔
      Along step p s inputs ∧ Along step q s inputs := by
  induction inputs generalizing s with
  | nil => simp
  | cons input rest ih => simp only [along_cons, ih, and_and_and_comm]

theorem along_of_forall_mem (h : ∀ input ∈ inputs, ∀ s, p s input) (s : σ) : Along step p s inputs := by
  induction inputs generalizing s with
  | nil => trivial
  | cons input rest ih =>
    exact ⟨h input List.mem_cons_self s,
      ih (fun other hother => h other (List.mem_cons_of_mem _ hother)) (step s input)⟩

theorem along_append {rest : List ι} :
    Along step p s (inputs ++ rest) ↔
      Along step p s inputs ∧ Along step p (inputs.foldl step s) rest := by
  induction inputs generalizing s with
  | nil => simp
  | cons input inputs ih =>
    rw [List.cons_append, along_cons, along_cons, ih, List.foldl_cons, and_assoc]

theorem inv_history (inv : List ι → Prop) (hnil : inv [])
    (hkeep : ∀ done input, done ++ [input] <+: inputs → p (done.foldl step s) input → inv done →
      inv (done ++ [input])) (hrun : Along step p s inputs) : inv inputs := by
  have hprefix : ∀ done, done <+: inputs → inv done := by
    intro done
    induction done using List.reverseRecOn with
    | nil => exact fun _ => hnil
    | append_singleton done input ih =>
      intro hle
      have htaken : Along step p s (done ++ [input]) := by
        obtain ⟨rest, rfl⟩ := hle
        exact (along_append.mp hrun).1
      exact hkeep done input hle (along_append.mp htaken).2.1
        (ih ((List.prefix_append _ _).trans hle))
  exact hprefix inputs List.prefix_rfl

theorem along_iff (inv : σ → Prop) (hagree : ∀ s input, inv s → (p s input ↔ q s input))
    (hkeep : ∀ s input, inv s → p s input → inv (step s input)) (hs : inv s) (inputs : List ι) :
    Along step p s inputs ↔ Along step q s inputs := by
  induction inputs generalizing s with
  | nil => exact Iff.rfl
  | cons input rest ih =>
    rw [along_cons, along_cons, ← hagree s input hs]
    exact and_congr_right fun hp => ih (hkeep s input hs hp)

def collect {β : Type} (step : σ → ι → σ) (gives : σ → ι → List β) : σ → List ι → List β
  | _, [] => []
  | s, input :: rest => gives s input ++ collect step gives (step s input) rest

section

variable (hkeep : ∀ s input, inv s → p s input → inv (step s input))

include hkeep

theorem along_of_inv
    (hstep : ∀ s input, inv s → p s input → q s input) (hs : inv s) (hrun : Along step p s inputs) :
    Along step q s inputs := by
  induction inputs generalizing s with
  | nil => trivial
  | cons input rest ih =>
    exact ⟨hstep s input hs hrun.1, ih (hkeep s input hs hrun.1) hrun.2⟩

theorem inv_foldl (hs : inv s) (hrun : Along step p s inputs) : inv (inputs.foldl step s) := by
  induction inputs generalizing s with
  | nil => exact hs
  | cons input rest ih => exact ih (hkeep s input hs hrun.1) hrun.2

theorem forall_mem_collect {β : Type} {gives : σ → ι → List β} {r : β → Prop}
    (hgives : ∀ s input, inv s → p s input → ∀ b ∈ gives s input, r b) (hs : inv s)
    (hrun : Along step p s inputs) : ∀ b ∈ collect step gives s inputs, r b := by
  induction inputs generalizing s with
  | nil => exact nofun
  | cons input rest ih =>
    intro b hb
    rcases List.mem_append.mp hb with hb | hb
    · exact hgives s input hs hrun.1 b hb
    · exact ih (hkeep s input hs hrun.1) hrun.2 b hb

end

theorem collect_add_owed {β : Type} {comes released : σ → ι → List β} (owed : σ → Multiset β)
    (hkeep : ∀ s input, inv s → p s input → inv (step s input))
    (hstep : ∀ s input, inv s → p s input →
      (released s input : Multiset β) + owed (step s input) = comes s input + owed s) (hs : inv s) (hrun : Along step p s inputs) :
    (collect step released s inputs : Multiset β) + owed (inputs.foldl step s) =
      collect step comes s inputs + owed s := by
  induction inputs generalizing s with
  | nil => rfl
  | cons input rest ih =>
    have hrest := ih (hkeep s input hs hrun.1) hrun.2
    simp only [collect, List.foldl_cons, ← Multiset.coe_add]
    calc
      _ = (released s input : Multiset β) +
          (collect step comes (step s input) rest + owed (step s input)) := by
        rw [Multiset.add_assoc, hrest]
      _ = (released s input : Multiset β) + owed (step s input) +
          collect step comes (step s input) rest := by
        rw [Multiset.add_assoc, Multiset.add_comm (owed _)]
      _ = _ := by
        rw [hstep s input hs hrun.1, Multiset.add_assoc, Multiset.add_comm (owed s), ← Multiset.add_assoc]

end Runs
