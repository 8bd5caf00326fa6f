import Mathlib.Data.List.Basic

namespace Stateful

variable {ε σ α β : Type} {s : σ} {x : EStateM ε σ α} {q r : α → σ → Prop} {e f : σ → Prop}

def Post (x : EStateM ε σ α) (s : σ) (q : α → σ → Prop) (e : σ → Prop) : Prop :=
  match x.run s with
  | .ok a t => q a t
  | .error _ t => e t

theorem Post.mono (hx : Post x s q e) (hq : ∀ a t, q a t → r a t) (he : ∀ t, e t → f t) : Post x s r f := by
  unfold Post at hx ⊢
  cases hrun : x.run s with
  | ok a t =>
    rw [hrun] at hx
    exact hq a t hx
  | error _ t =>
    rw [hrun] at hx
    exact he t hx

theorem post_pure {a : α} (h : q a s) : Post (pure a : EStateM ε σ α) s q e := h

theorem post_throw {err : ε} (h : e s) : Post (throw err : EStateM ε σ α) s q e := h

theorem post_get {q : σ → σ → Prop} (h : q s s) : Post (get : EStateM ε σ σ) s q e := h

theorem post_set {t : σ} {q : PUnit → σ → Prop} (h : q ⟨⟩ t) : Post (set t : EStateM ε σ PUnit) s q e := h

theorem post_modify {g : σ → σ} {q : PUnit → σ → Prop} (h : q ⟨⟩ (g s)) :
    Post (modify g : EStateM ε σ PUnit) s q e := h

theorem post_bind {k : α → EStateM ε σ β} {q : β → σ → Prop} (hx : Post x s (fun a t => Post (k a) t q e) e) :
    Post (x >>= k) s q e := by
  unfold Post at hx ⊢
  rw [EStateM.run_bind]
  cases hrun : x.run s with
  | ok a t =>
    rw [hrun] at hx
    exact hx
  | error _ t =>
    rw [hrun] at hx
    exact hx

theorem Post.bind {k : α → EStateM ε σ β} {q : β → σ → Prop} (hx : Post x s r e)
    (hk : ∀ a t, r a t → Post (k a) t q e) : Post (x >>= k) s q e :=
  post_bind (hx.mono hk fun _ h => h)

theorem post_of_forall (hq : ∀ a t, q a t) (he : ∀ t, e t) : Post x s q e := by
  unfold Post
  cases x.run s with
  | ok a t => exact hq a t
  | error _ t => exact he t

end Stateful
