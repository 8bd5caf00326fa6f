import Mathlib.Logic.Basic

structure Traced (β ε α : Type) where
  trace : List β
  outcome : Except ε α

namespace Traced

variable {β ε α γ : Type}

def pure (a : α) : Traced β ε α := ⟨[], .ok a⟩

def bind (x : Traced β ε α) (f : α → Traced β ε γ) : Traced β ε γ :=
  match x.outcome with
  | .ok a => ⟨x.trace ++ (f a).trace, (f a).outcome⟩
  | .error e => ⟨x.trace, .error e⟩

instance : Monad (Traced β ε) where
  pure := pure
  bind := bind

def emit (event : β) : Traced β ε Unit := ⟨[event], .ok ()⟩

def ofExcept (x : Except ε α) : Traced β ε α := ⟨[], x⟩

@[simp]
theorem trace_pure (a : α) : (Pure.pure a : Traced β ε α).trace = [] := rfl

theorem bind_of_ok {x : Traced β ε α} {a : α} (h : x.outcome = .ok a) (f : α → Traced β ε γ) :
    x >>= f = ⟨x.trace ++ (f a).trace, (f a).outcome⟩ := by
  change x.bind f = _
  rw [bind, h]

theorem bind_of_error {x : Traced β ε α} {e : ε} (h : x.outcome = .error e) (f : α → Traced β ε γ) :
    x >>= f = ⟨x.trace, .error e⟩ := by
  change x.bind f = _
  rw [bind, h]

@[simp]
theorem emit_bind (event : β) (f : Unit → Traced β ε γ) :
    emit event >>= f = ⟨event :: (f ()).trace, (f ()).outcome⟩ := rfl

theorem bind_pure_eq (x : Traced β ε α) (f : α → γ) :
    (x >>= fun a => Pure.pure (f a) : Traced β ε γ) = ⟨x.trace, x.outcome.map f⟩ := by
  cases hx : x.outcome with
  | ok a =>
    rw [bind_of_ok hx, trace_pure, List.append_nil]
    rfl
  | error e =>
    rw [bind_of_error hx]
    rfl

theorem bind_outcome_eq_ok {x : Traced β ε α} {f : α → Traced β ε γ} {c : γ} (h : (x >>= f).outcome = .ok c) :
    ∃ a, x.outcome = .ok a ∧ (f a).outcome = .ok c := by
  cases hx : x.outcome with
  | ok a =>
    rw [bind_of_ok hx] at h
    exact ⟨a, rfl, h⟩
  | error e =>
    rw [bind_of_error hx] at h
    cases h

def Ensures (blame : β → ε → Prop) (fault : ε → Prop) (post : α → Prop) (x : Traced β ε α) : Prop :=
  match x.outcome with
  | .ok a => post a
  | .error e => fault e ∨ ∃ event ∈ x.trace, blame event e

section Ensures

variable {blame : β → ε → Prop} {fault : ε → Prop} {post : α → Prop} {x : Traced β ε α}

theorem ensures_of_ok {a : α} (h : x.outcome = .ok a) : x.Ensures blame fault post ↔ post a := by
  rw [Ensures, h]

theorem ensures_of_error {e : ε} (h : x.outcome = .error e) :
    x.Ensures blame fault post ↔ fault e ∨ ∃ event ∈ x.trace, blame event e := by
  rw [Ensures, h]

section

variable (h : x.Ensures blame fault post)

include h

theorem Ensures.imp {fault' : ε → Prop} {post' : α → Prop} (hfault : ∀ e, fault e → fault' e)
    (hpost : ∀ a, post a → post' a) : x.Ensures blame fault' post' := by
  cases hx : x.outcome with
  | ok a => exact (ensures_of_ok hx).mpr (hpost a ((ensures_of_ok hx).mp h))
  | error e => exact (ensures_of_error hx).mpr (((ensures_of_error hx).mp h).imp_left (hfault e))

theorem Ensures.mono {post' : α → Prop} (hpost : ∀ a, post a → post' a) : x.Ensures blame fault post' :=
  h.imp (fun _ => id) hpost

theorem Ensures.mono_fault {fault' : ε → Prop} (hfault : ∀ e, fault e → fault' e) : x.Ensures blame fault' post :=
  h.imp hfault fun _ => id

theorem Ensures.bind {f : α → Traced β ε γ} {post' : γ → Prop}
    (hf : ∀ a, post a → (f a).Ensures blame fault post') : (x >>= f).Ensures blame fault post' := by
  cases hx : x.outcome with
  | ok a =>
    have hthen := hf a ((ensures_of_ok hx).mp h)
    rw [bind_of_ok hx]
    cases hfa : (f a).outcome with
    | ok c => exact (ensures_of_ok hfa).mp hthen
    | error e =>
      refine ((ensures_of_error hfa).mp hthen).imp_right ?_
      rintro ⟨event, hevent, hblame⟩
      exact ⟨event, List.mem_append_right _ hevent, hblame⟩
  | error e =>
    rw [bind_of_error hx]
    exact (ensures_of_error hx).mp h

end

theorem ensures_emit_bind {event : β} {f : Unit → Traced β ε γ} {post' : γ → Prop}
    (h : (f ()).Ensures blame (fun e => fault e ∨ blame event e) post') :
    (emit event >>= f).Ensures blame fault post' := by
  rw [emit_bind]
  cases hf : (f ()).outcome with
  | ok c => exact (ensures_of_ok hf).mp h
  | error e =>
    rcases (ensures_of_error hf).mp h with (hfault | hblame) | ⟨earlier, hmem, hblame⟩
    · exact .inl hfault
    · exact .inr ⟨event, List.mem_cons_self, hblame⟩
    · exact .inr ⟨earlier, List.mem_cons_of_mem _ hmem, hblame⟩

end Ensures

end Traced

inductive Program {ι κ : Type} (A : ι → Type) (B : κ → Type) (α : Type) where
  | pure (a : α)
  | act (op : ι) (k : A op → Program A B α)
  | ask (request : κ) (k : B request → Program A B α)

namespace Program

variable {ι κ : Type} {A : ι → Type} {B : κ → Type} {α γ : Type}

def bind : Program A B α → (α → Program A B γ) → Program A B γ
  | pure a, f => f a
  | act op k, f => act op fun answer => (k answer).bind f
  | ask request k, f => ask request fun answer => (k answer).bind f

instance : Monad (Program A B) where
  pure := pure
  bind := bind

def perform (op : ι) : Program A B (A op) := act op pure

def query (request : κ) : Program A B (B request) := ask request pure

variable {σ τ β ε : Type} (exec : (op : ι) → σ → Except ε (A op × σ))

def run (serve : (request : κ) → τ → Traced β ε (B request × τ)) :
    Program A B α → σ → τ → Traced β ε (α × σ × τ)
  | pure a, s, t => Pure.pure (a, s, t)
  | act op k, s, t =>
    match exec op s with
    | .ok (answer, s') => run serve (k answer) s' t
    | .error e => .ofExcept (.error e)
  | ask request k, s, t => do
    let (answer, t') ← serve request t
    run serve (k answer) s t'

abbrev Path (B : κ → Type) : Type := List ((request : κ) × B request)

inductive Follows : Program A B α → σ → Path B → Except ε (α × σ) → Prop
  | pure (a : α) (s : σ) : Follows (pure a) s [] (.ok (a, s))
  | act {op : ι} {k : A op → Program A B α} {s s' : σ} {answer : A op}
      {path : Path B} {result : Except ε (α × σ)} :
      exec op s = .ok (answer, s') → Follows (k answer) s' path result →
        Follows (act op k) s path result
  | fault {op : ι} {k : A op → Program A B α} {s : σ} {e : ε} :
      exec op s = .error e → Follows (act op k) s [] (.error e)
  | ask {request : κ} {k : B request → Program A B α} {s : σ} (answer : B request)
      {path : Path B} {result : Except ε (α × σ)} :
      Follows (k answer) s path result → Follows (ask request k) s (⟨request, answer⟩ :: path) result

inductive Asks : Program A B α → σ → Path B → κ → σ → Prop
  | here {request : κ} {k : B request → Program A B α} (s : σ) : Asks (ask request k) s [] request s
  | act {op : ι} {k : A op → Program A B α} {s s' s₁ : σ} {answer : A op}
      {path : Path B} {request : κ} :
      exec op s = .ok (answer, s') → Asks (k answer) s' path request s₁ →
        Asks (act op k) s path request s₁
  | ask {request request' : κ} {k : B request → Program A B α} {s s₁ : σ} (answer : B request)
      {path : Path B} :
      Asks (k answer) s path request' s₁ → Asks (ask request k) s (⟨request, answer⟩ :: path) request' s₁

inductive Performs : Program A B α → σ → Path B → ι → σ → Prop
  | here {op : ι} {k : A op → Program A B α} (s : σ) : Performs (act op k) s [] op s
  | act {op op' : ι} {k : A op → Program A B α} {s s' s₁ : σ} {answer : A op}
      {path : Path B} :
      exec op s = .ok (answer, s') → Performs (k answer) s' path op' s₁ →
        Performs (act op k) s path op' s₁
  | ask {request : κ} {k : B request → Program A B α} {s s₁ : σ} (answer : B request)
      {path : Path B} {op : ι} :
      Performs (k answer) s path op s₁ → Performs (ask request k) s (⟨request, answer⟩ :: path) op s₁

def Meets (fault : ε → Prop) (post : α → σ → Prop) : Except ε (α × σ) → Prop
  | .ok result => post result.1 result.2
  | .error e => fault e

structure Spec (A : ι → Type) (B : κ → Type) (σ ε : Type) where
  oblige : ι → σ → Prop
  fault : ε → Prop
  allowed : κ → Prop
  returns : (request : κ) → B request → Prop

def wp (spec : Spec A B σ ε) : Program A B α → (α → σ → Prop) → σ → Prop
  | pure a, post, s => post a s
  | act op k, post, s =>
    spec.oblige op s ∧ Meets spec.fault (fun answer s' => wp spec (k answer) post s') (exec op s)
  | ask request k, post, s =>
    spec.allowed request ∧ ∀ answer, spec.returns request answer → wp spec (k answer) post s

variable {exec} {spec : Spec A B σ ε} {post : α → σ → Prop} {p : Program A B α} {s s₁ : σ} {path : Path B}

theorem Meets.imp {fault fault' : ε → Prop} {post' : α → σ → Prop} {result : Except ε (α × σ)}
    (h : Meets fault post result) (hfault : ∀ e, fault e → fault' e) (hpost : ∀ a s, post a s → post' a s) :
    Meets fault' post' result := by
  cases result with
  | ok result => exact hpost result.1 result.2 h
  | error e => exact hfault e h

theorem wp_imp {post' : α → σ → Prop} (h : wp exec spec p post s) (fault : ε → Prop)
    (hfault : ∀ e, spec.fault e → fault e) (hpost : ∀ a s', post a s' → post' a s') :
    wp exec { spec with fault := fault } p post' s := by
  induction p generalizing s with
  | pure a => exact hpost a s h
  | act op k ih => exact ⟨h.1, h.2.imp hfault fun answer s' => ih answer⟩
  | ask request k ih => exact ⟨h.1, fun answer hanswer => ih answer (h.2 answer hanswer)⟩

theorem wp_of_exec {op : ι} {k : A op → Program A B α} {answer : A op} (h : wp exec spec (act op k) post s)
    (hop : exec op s = .ok (answer, s₁)) : wp exec spec (k answer) post s₁ := by
  have hexec := h.2
  rw [hop] at hexec
  exact hexec

theorem fault_of_exec {op : ι} {k : A op → Program A B α} {e : ε} (h : wp exec spec (act op k) post s)
    (hop : exec op s = .error e) : spec.fault e := by
  have hexec := h.2
  rw [hop] at hexec
  exact hexec

theorem wp_invariant {inv : σ → Prop}
    (hexec : ∀ op s, inv s → spec.oblige op s → Meets (fun _ => True) (fun _ s' => inv s') (exec op s))
    (h : wp exec spec p post s) (hinv : inv s) : wp exec spec p (fun a s' => post a s' ∧ inv s') s := by
  induction p generalizing s with
  | pure a => exact ⟨h, hinv⟩
  | act op k ih =>
    have hkept := hexec op s hinv h.1
    refine ⟨h.1, ?_⟩
    have hmeets := h.2
    cases hop : exec op s with
    | ok result =>
      rw [hop] at hmeets hkept
      exact ih result.1 hmeets hkept
    | error e =>
      rw [hop] at hmeets
      exact hmeets
  | ask request k ih => exact ⟨h.1, fun answer hanswer => ih answer (h.2 answer hanswer) hinv⟩

@[simp]
theorem wp_bind {p : Program A B γ} {f : γ → Program A B α} :
    wp exec spec (p >>= f) post s ↔ wp exec spec p (fun c s' => wp exec spec (f c) post s') s := by
  induction p generalizing s with
  | pure c => exact Iff.rfl
  | act op k ih =>
    refine and_congr_right fun _ => ?_
    constructor
    · exact fun h => h.imp (fun _ => id) fun answer s' => (ih answer).mp
    · exact fun h => h.imp (fun _ => id) fun answer s' => (ih answer).mpr
  | ask request k ih =>
    exact and_congr_right fun _ => forall_congr' fun answer => imp_congr_right fun _ => ih answer

theorem run_ensures {serve : (request : κ) → τ → Traced β ε (B request × τ)} {blame : β → ε → Prop}
    {inv : τ → Prop} {t : τ}
    (hserve : ∀ request t, spec.allowed request → inv t → (serve request t).Ensures blame spec.fault fun result =>
        spec.returns request result.1 ∧ inv result.2)
    (h : wp exec spec p post s) (ht : inv t) :
    (p.run exec serve s t).Ensures blame spec.fault fun result =>
      post result.1 result.2.1 ∧ inv result.2.2 := by
  induction p generalizing s t with
  | pure a => exact ⟨h, ht⟩
  | act op k ih =>
    unfold run
    cases hop : exec op s with
    | ok result => exact ih result.1 (wp_of_exec h hop) ht
    | error e => exact .inl (fault_of_exec h hop)
  | ask request k ih =>
    refine (hserve request t h.1 ht).bind ?_
    rintro ⟨answer, t'⟩ ⟨hreturns, ht'⟩
    exact ih answer (h.2 answer hreturns) ht'

theorem post_of_run {serve : (request : κ) → τ → Traced β ε (B request × τ)} {s' : σ} {t t' : τ} {a : α}
    (hreturns : ∀ request answer, spec.returns request answer) (h : wp exec spec p post s)
    (hrun : (p.run exec serve s t).outcome = .ok (a, s', t')) : post a s' := by
  induction p generalizing s t with
  | pure b =>
    cases hrun
    exact h
  | act op k ih =>
    unfold run at hrun
    cases hop : exec op s with
    | ok result =>
      rw [hop] at hrun
      exact ih result.1 (wp_of_exec h hop) hrun
    | error e =>
      rw [hop] at hrun
      cases hrun
  | ask request k ih =>
    obtain ⟨⟨answer, t₁⟩, _, hrest⟩ := Traced.bind_outcome_eq_ok hrun
    exact ih answer (h.2 answer (hreturns request answer)) hrest

theorem Follows.of_wp {result : Except ε (α × σ)} (hfollows : Follows exec p s path result)
    (h : wp exec spec p post s) (hpath : ∀ step ∈ path, spec.returns step.1 step.2) :
    (∀ step ∈ path, spec.allowed step.1) ∧ Meets spec.fault post result := by
  induction hfollows with
  | pure a s => exact ⟨by simp, h⟩
  | act hop _ ih => exact ih (wp_of_exec h hop) hpath
  | fault hop => exact ⟨by simp, fault_of_exec h hop⟩
  | ask answer _ ih =>
    rw [List.forall_mem_cons] at hpath
    obtain ⟨hallowed, hresult⟩ := ih (h.2 answer hpath.1) hpath.2
    exact ⟨List.forall_mem_cons.mpr ⟨h.1, hallowed⟩, hresult⟩

theorem Asks.allowed {request : κ} (hasks : Asks exec p s path request s₁) (h : wp exec spec p post s)
    (hpath : ∀ step ∈ path, spec.returns step.1 step.2) : spec.allowed request := by
  induction hasks with
  | here s => exact h.1
  | act hop _ ih => exact ih (wp_of_exec h hop) hpath
  | ask answer _ ih =>
    rw [List.forall_mem_cons] at hpath
    exact ih (h.2 answer hpath.1) hpath.2

theorem Performs.oblige {op : ι} (hperforms : Performs exec p s path op s₁) (h : wp exec spec p post s)
    (hpath : ∀ step ∈ path, spec.returns step.1 step.2) : spec.oblige op s₁ := by
  induction hperforms with
  | here s => exact h.1
  | act hop _ ih => exact ih (wp_of_exec h hop) hpath
  | ask answer _ ih =>
    rw [List.forall_mem_cons] at hpath
    exact ih (h.2 answer hpath.1) hpath.2

theorem Follows.of_act {op : ι} {k : A op → Program A B α} {answer : A op}
    {result : Except ε (α × σ)} (h : Follows exec (.act op k) s path result)
    (hop : exec op s = .ok (answer, s₁)) : Follows exec (k answer) s₁ path result := by
  cases h with
  | act hop' hrest =>
    cases hop.symm.trans hop'
    exact hrest
  | fault hop' => cases hop.symm.trans hop'

theorem Follows.of_fault {op : ι} {k : A op → Program A B α} {e : ε} {result : Except ε (α × σ)}
    (h : Follows exec (.act op k) s path result) (hop : exec op s = .error e) :
    path = [] ∧ result = .error e := by
  cases h with
  | act hop' _ => cases hop.symm.trans hop'
  | fault hop' =>
    cases hop.symm.trans hop'
    exact ⟨rfl, rfl⟩

theorem Asks.bind_inv {p : Program A B γ} {f : γ → Program A B α} {request : κ}
    (h : Asks exec (p >>= f) s path request s₁) :
    Asks exec p s path request s₁ ∨
      ∃ path₁ path₂ c s', path = path₁ ++ path₂ ∧ Follows exec p s path₁ (.ok (c, s')) ∧
        Asks exec (f c) s' path₂ request s₁ := by
  induction p generalizing s path with
  | pure c => exact .inr ⟨[], path, c, s, rfl, .pure c s, h⟩
  | act op k ih =>
    cases h with
    | act hop hrest =>
      rcases ih _ hrest with hfirst | ⟨path₁, path₂, c, s', rfl, hfirst, hthen⟩
      · exact .inl (.act hop hfirst)
      · exact .inr ⟨path₁, path₂, c, s', rfl, .act hop hfirst, hthen⟩
  | ask request' k ih =>
    cases h with
    | here => exact .inl (.here _)
    | ask answer hrest =>
      rcases ih _ hrest with hfirst | ⟨path₁, path₂, c, s', rfl, hfirst, hthen⟩
      · exact .inl (.ask answer hfirst)
      · exact .inr ⟨_, path₂, c, s', rfl, .ask answer hfirst, hthen⟩

theorem Follows.bind_inv {p : Program A B γ} {f : γ → Program A B α} {result : Except ε (α × σ)}
    (h : Follows exec (p >>= f) s path result) :
    (∃ e, result = .error e ∧ Follows exec p s path (.error e)) ∨
      ∃ path₁ path₂ c s₁, path = path₁ ++ path₂ ∧ Follows exec p s path₁ (.ok (c, s₁)) ∧
        Follows exec (f c) s₁ path₂ result := by
  induction p generalizing s path with
  | pure c => exact .inr ⟨[], path, c, s, rfl, .pure c s, h⟩
  | act op k ih =>
    cases h with
    | act hop hrest =>
      rcases ih _ hrest with ⟨e, rfl, herror⟩ | ⟨path₁, path₂, c, s₁, rfl, hfirst, hthen⟩
      · exact .inl ⟨e, rfl, .act hop herror⟩
      · exact .inr ⟨path₁, path₂, c, s₁, rfl, .act hop hfirst, hthen⟩
    | fault hop => exact .inl ⟨_, rfl, .fault hop⟩
  | ask request k ih =>
    cases h with
    | ask answer hrest =>
      rcases ih _ hrest with ⟨e, rfl, herror⟩ | ⟨path₁, path₂, c, s₁, rfl, hfirst, hthen⟩
      · exact .inl ⟨e, rfl, .ask answer herror⟩
      · exact .inr ⟨_, path₂, c, s₁, rfl, .ask answer hfirst, hthen⟩

def replying (answer : (request : κ) → Path B → B request) (request : κ)
    (history : Path B) :
    Traced β ε (B request × Path B) :=
  Pure.pure (answer request history, history ++ [⟨request, answer request history⟩])

theorem follows_run (answer : (request : κ) → Path B → B request) (p : Program A B α) (s : σ) (history : Path B) :
    ∃ path result, Follows exec p s path result ∧
      (p.run exec (replying (β := β) answer) s history).outcome =
        result.map fun (a, s') => (a, s', history ++ path) := by
  induction p generalizing s history with
  | pure a => exact ⟨[], _, .pure a s, by rw [List.append_nil]; rfl⟩
  | act op k ih =>
    unfold run
    cases hop : exec op s with
    | ok next =>
      obtain ⟨path, result, hfollows, hrun⟩ := ih next.1 next.2 history
      exact ⟨path, result, .act hop hfollows, hrun⟩
    | error e => exact ⟨[], _, .fault hop, rfl⟩
  | ask request k ih =>
    obtain ⟨path, result, hfollows, hrun⟩ :=
      ih (answer request history) s (history ++ [⟨request, answer request history⟩])
    refine ⟨_, result, .ask (answer request history) hfollows, ?_⟩
    rw [List.append_assoc] at hrun
    exact hrun

def remembering (serve : (request : κ) → τ → Traced β ε (B request × τ)) (request : κ)
    (t : τ × Path B) :
    Traced β ε (B request × (τ × Path B)) := do
  let (answer, t') ← serve request t.1
  return (answer, (t', t.2 ++ [⟨request, answer⟩]))

theorem follows_of_run {serve : (request : κ) → τ → Traced β ε (B request × τ)} {s' : σ} {t t' : τ} {a : α}
    {history history' : Path B}
    (hrun : (p.run exec (remembering serve) s (t, history)).outcome = .ok (a, s', (t', history'))) :
    ∃ path, history' = history ++ path ∧ Follows exec p s path (.ok (a, s')) ∧
      ∀ step ∈ path, ∃ t₁ t₂, (serve step.1 t₁).outcome = .ok (step.2, t₂) := by
  induction p generalizing s t history with
  | pure b =>
    cases hrun
    exact ⟨[], (List.append_nil _).symm, .pure _ _, by simp⟩
  | act op k ih =>
    unfold run at hrun
    cases hop : exec op s with
    | ok result =>
      rw [hop] at hrun
      obtain ⟨path, hpath, hfollows, hserved⟩ := ih result.1 hrun
      exact ⟨path, hpath, .act hop hfollows, hserved⟩
    | error e =>
      rw [hop] at hrun
      cases hrun
  | ask request k ih =>
    obtain ⟨⟨answer, t₁⟩, hserve, hrest⟩ := Traced.bind_outcome_eq_ok hrun
    obtain ⟨⟨answer', t₂⟩, hserve', hok⟩ := Traced.bind_outcome_eq_ok hserve
    cases hok
    obtain ⟨path, rfl, hfollows, hserved⟩ := ih answer hrest
    refine ⟨⟨request, answer⟩ :: path, by simp, .ask answer hfollows, ?_⟩
    exact List.forall_mem_cons.mpr ⟨⟨t, t₂, hserve'⟩, hserved⟩

inductive Agree (rel : σ → σ → Prop) : Except ε (α × σ) → Except ε (α × σ) → Prop
  | ok (a : α) {s s' : σ} : rel s s' → Agree rel (.ok (a, s)) (.ok (a, s'))
  | error (e : ε) : Agree rel (.error e) (.error e)

theorem run_related {serve : (request : κ) → τ → Traced β ε (B request × τ)} {rel : σ → σ → Prop} {s' : σ} {t : τ}
    (hexec : ∀ op s s', rel s s' → spec.oblige op s → Agree rel (exec op s) (exec op s'))
    (hreturns : ∀ request answer, spec.returns request answer) (h : wp exec spec p post s) (hrel : rel s s') :
    (p.run exec serve s t).trace = (p.run exec serve s' t).trace ∧
      Agree (fun x y => rel x.1 y.1 ∧ x.2 = y.2)
        (p.run exec serve s t).outcome (p.run exec serve s' t).outcome := by
  induction p generalizing s s' t with
  | pure a => exact ⟨rfl, .ok a ⟨hrel, rfl⟩⟩
  | act op k ih =>
    have hagree := hexec op s s' hrel h.1
    have hwp := h.2
    unfold run
    generalize exec op s = result at hagree hwp
    generalize exec op s' = result' at hagree
    cases hagree with
    | ok answer hrel' => exact ih answer hwp hrel'
    | error e => exact ⟨rfl, .error e⟩
  | ask request k ih =>
    unfold run
    cases hserve : (serve request t).outcome with
    | ok result =>
      obtain ⟨answer, t'⟩ := result
      have hrun := ih answer (t := t') (h.2 answer (hreturns request answer)) hrel
      rw [Traced.bind_of_ok hserve, Traced.bind_of_ok hserve]
      exact ⟨congrArg (_ ++ ·) hrun.1, hrun.2⟩
    | error e =>
      rw [Traced.bind_of_error hserve, Traced.bind_of_error hserve]
      exact ⟨rfl, .error e⟩

end Program
