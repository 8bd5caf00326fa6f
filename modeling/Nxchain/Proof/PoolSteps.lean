import Nxchain.Proof.AccountQueues
import Nxchain.Txpool.Schedule

namespace Nxchain.Txpool

def Account.Same (a b : Account) : Prop :=
  ∃ demotions skips, b = { a with demotions := demotions, skips := skips }

theorem Account.Same.refl (a : Account) : a.Same a := ⟨a.demotions, a.skips, rfl⟩

theorem Config.validateTx_ok {c : Config} {store : Store} {tx tx' : Transaction}
    (h : c.validateTx store tx = .ok tx') :
    ∃ signedBy, c.signer tx = some signedBy ∧ tx' = { tx with sender := signedBy } := by
  unfold validateTx at h
  split_ifs at h
  cases hsigner : c.signer tx with
  | none =>
    simp only [hsigner] at h
    cases h
  | some signedBy =>
    simp only [hsigner] at h
    split_ifs at h
    obtain ⟨-, -, heq⟩ := Except.map_eq_ok_iff.mp h
    exact ⟨signedBy, rfl, heq.symm⟩

namespace Action

def incoming : Action → List Transaction
  | addIndex tx | createAccountOnce tx | fetchNonce tx | initOnce tx _ | enqueue tx => [tx]
  | _ => []

def indexed : Action → List Transaction
  | createAccountOnce tx | fetchNonce tx | initOnce tx _ | enqueue tx => [tx]
  | _ => []

def uncounted : Action → List Transaction
  | increase tx => [tx]
  | _ => []

def untested : Action → List Transaction
  | increase tx | testNonce tx => [tx]
  | _ => []

def owed : Action → List Transaction
  | decrease txs => txs
  | reset r | resetEnqueued _ r => r.prunedPromoted ++ r.prunedEnqueued
  | _ => []

def stale : Action → List Transaction
  | removeIndex txs => txs
  | processBlocks _ blocks _ => blocks.flatten
  | reset r | resetEnqueued _ r => r.prunedPromoted ++ r.prunedEnqueued
  | _ => []

def promotes : Action → List Address
  | promote addr => [addr]
  | _ => []

def submitted : Action → List Transaction
  | checkPressure tx | checkFuture tx | checkOverflow tx | addIndex tx | createAccountOnce tx
  | fetchNonce tx | initOnce tx _ | enqueue tx => [tx]
  | _ => []

end Action

inductive Work where
  | submitted
  | incoming
  | indexed
  | uncounted
  | untested
  | owed
  | stale

namespace Action

def work : Work → Action → List Transaction
  | .submitted => submitted
  | .incoming => incoming
  | .indexed => indexed
  | .uncounted => uncounted
  | .untested => untested
  | .owed => owed
  | .stale => stale

def Passes (a : Action) (next : List Action) : Prop :=
  (∀ w, next.flatMap (work w) = work w a) ∧ next.flatMap promotes = a.promotes

theorem Passes.mem_iff {a : Action} {next : List Action} (h : Passes a next) (w : Work) {tx : Transaction} :
    tx ∈ next.flatMap (work w) ↔ tx ∈ work w a := by
  rw [h.1 w]

theorem Passes.single {a b : Action} (hwork : ∀ w, work w b = work w a) (hpromotes : b.promotes = a.promotes) :
    Passes a [b] := by
  refine ⟨fun w => ?_, ?_⟩
  · rw [List.flatMap_singleton, hwork]
  · rw [List.flatMap_singleton, hpromotes]

def idle : Action → Bool
  | prune _ | checkSealing _ | updateSkips _ _ | drop _ | resetSkips _ => true
  | _ => false

theorem work_of_idle {a : Action} (ha : a.idle) (w : Work) : work w a = [] := by
  cases a <;> cases ha <;> cases w <;> rfl

theorem promotes_of_idle {a : Action} (ha : a.idle) : a.promotes = [] := by
  cases a <;> cases ha <;> rfl

theorem Passes.of_idle {a : Action} {next : List Action} (ha : a.idle) (hnext : ∀ b ∈ next, b.idle) :
    Passes a next := by
  refine ⟨fun w => ?_, ?_⟩
  · rw [work_of_idle ha, List.flatMap_eq_nil_iff]
    exact fun b hb => work_of_idle (hnext b hb) w
  · rw [promotes_of_idle ha, List.flatMap_eq_nil_iff]
    exact fun b hb => promotes_of_idle (hnext b hb)

theorem next_cases {α : Type} {remaining : List α} {pick : Nat} {finish : Outcome} {visit : α → List α → Outcome}
    {outcome : Outcome} (h : next remaining pick finish visit = outcome) :
    remaining = [] ∧ finish = outcome ∨ outcome = .blocked ∧ remaining[pick]? = none ∨
      ∃ x, remaining[pick]? = some x ∧ visit x (remaining.eraseIdx pick) = outcome := by
  unfold next at h
  split at h
  · exact .inl ⟨rfl, h⟩
  next hnone => exact .inr (.inl ⟨h.symm, hnone⟩)
  next x hx => exact .inr (.inr ⟨x, hx, h⟩)

theorem next_rejected {α : Type} {remaining : List α} {pick : Nat} {finish : Outcome} {visit : α → List α → Outcome}
    {e : Error} (h : next remaining pick finish visit = .rejected e) :
    finish = .rejected e ∨ ∃ x rest, visit x rest = .rejected e := by
  obtain ⟨-, hfinish⟩ | ⟨hblocked, -⟩ | ⟨x, -, hvisit⟩ := next_cases h
  · exact .inl hfinish
  · cases hblocked
  · exact .inr ⟨x, _, hvisit⟩

variable [ContainerHeap] [Keccak] {c : Config} {store : Store} {sealing : Bool} {p p' : Pool}

def releases (p : Pool) (pick : Nat) : Action → List Transaction
  | decrease txs => txs
  | prune remaining =>
    match remaining[pick]?.bind p.accounts.lookup with
    | none => []
    | some acc => acc.pruneNonceHoles.1
  | drop tx =>
    match p.accounts.lookup tx.sender with
    | none => []
    | some acc => if acc.resetting.isSome then [] else acc.queued
  | _ => []

inductive Runs (c : Config) (p : Pool) (pick : Nat) : Action → Pool → List Action → List Address → Prop
  | skip {a next} (hnext : Passes a next) (hreleases : a.releases p pick = []) :
      Runs c p pick a p next []
  | recount {a next addr acc acc'} (hnext : Passes a next) (hreleases : a.releases p pick = [])
      (hacc : p.accounts.lookup addr = some acc) (hsame : acc.Same acc') :
      Runs c p pick a (p.setAccount addr acc') next []
  | reject {a tx} (ha : a = checkFuture tx ∨ a = checkOverflow tx ∨ a = addIndex tx) :
      Runs c p pick a p [] []
  | accept {tx} (hfits : p.overflows c tx = false) :
      Runs c p pick (checkOverflow tx) p [addIndex (c.computeHash tx)] []
  | addIndex {tx} (hnew : p.index tx.hash = none) :
      Runs c p pick (addIndex tx) (p.addIndex tx) [createAccountOnce tx] []
  | create {tx nonce} (hnew : p.accounts.lookup tx.sender = none) :
      Runs c p pick (initOnce tx nonce)
        (p.setAccount tx.sender (.new nonce c.maxAccountEnqueued)) [enqueue tx] []
  | refuse {tx acc e} (hacc : p.accounts.lookup tx.sender = some acc)
      (henqueue : acc.enqueue tx = .error e) : Runs c p pick (enqueue tx) p [removeIndex [tx]] []
  | enqueue {tx acc acc'} (hacc : p.accounts.lookup tx.sender = some acc)
      (henqueue : acc.enqueue tx = .ok acc') :
      Runs c p pick (enqueue tx) (p.setAccount tx.sender acc') [increase tx] []
  | increase {tx} : Runs c p pick (increase tx) (p.increase c [tx]) [testNonce tx] []
  | testLater {tx acc} (hacc : p.accounts.lookup tx.sender = some acc)
      (hlater : acc.nextNonce < tx.nonce) : Runs c p pick (testNonce tx) p [] []
  | testNext {tx acc} (hacc : p.accounts.lookup tx.sender = some acc)
      (hnext : tx.nonce ≤ acc.nextNonce) : Runs c p pick (testNonce tx) p [] [tx.sender]
  | promote {addr acc} (hacc : p.accounts.lookup addr = some acc) (hlock : acc.resetting = none) :
      Runs c p pick (promote addr) (p.setAccount addr acc.promote.2)
        [removeIndex acc.promote.1.2, decrease acc.promote.1.2] []
  | removeIndex {txs} : Runs c p pick (removeIndex txs) (p.removeIndex txs) [] []
  | decrease {txs} : Runs c p pick (decrease txs) (p.decrease c txs) [] []
  | prune {addr acc remaining rest} (hpick : remaining[pick]? = some addr)
      (hacc : p.accounts.lookup addr = some acc) :
      Runs c p pick (prune remaining)
        (((p.setAccount addr acc.pruneNonceHoles.2).removeIndex acc.pruneNonceHoles.1).decrease c
          acc.pruneNonceHoles.1) [prune rest] []
  | removeBlock {latest txs blocks nonces nonces'} :
      Runs c p pick (processBlocks latest (txs :: blocks) nonces) (p.removeIndex txs)
        [processBlocks latest blocks nonces'] []
  | resetPromoted {r addr nonce acc acc' next} (remaining : List (Address × Nat))
      (hacc : p.accounts.lookup addr = some acc) (hlock : acc.resetting = none)
      (hpick : r.remaining[pick]? = some (addr, nonce))
      (hsame : (acc.resetPromoted nonce).2.Same acc')
      (hnext : Passes (reset { r with
        remaining := remaining
        prunedPromoted := r.prunedPromoted ++ (acc.resetPromoted nonce).1 }) next) :
      Runs c p pick (reset r) (p.setAccount addr acc') next []
  | resetEnqueued {r addr acc acc'} (hacc : p.accounts.lookup addr = some acc)
      (hsame : acc.resetEnqueued.2.2.Same acc') :
      Runs c p pick (resetEnqueued addr r) (p.setAccount addr acc')
        [reset { r with prunedEnqueued := r.prunedEnqueued ++ acc.resetEnqueued.1 }]
        acc.resetEnqueued.2.1.toList
  | drop {tx acc} (hacc : p.accounts.lookup tx.sender = some acc) (hlock : acc.resetting = none) :
      Runs c p pick (drop tx) (p.drop c tx) [] []

variable {pick : Nat} {a : Action} {next : List Action} {promotions : List Address}

theorem runs_visitSkips {active remaining rest : List Address} {addr : Address}
    (h : visitSkips p active addr rest = .done p' next promotions) :
    Runs c p pick (updateSkips active remaining) p' next promotions := by
  unfold visitSkips at h
  cases hacc : p.accounts.lookup addr with
  | none =>
    simp only [hacc] at h
    obtain ⟨rfl, rfl, rfl⟩ := h
    exact .skip (.of_idle rfl (by simp [idle])) rfl
  | some acc =>
    simp only [hacc] at h
    by_cases hactive : addr ∈ active
    · simp only [hactive] at h
      obtain ⟨rfl, rfl, rfl⟩ := h
      exact .recount (.of_idle rfl (by simp [idle])) rfl hacc ⟨acc.demotions, 0, rfl⟩
    by_cases hheld : acc.resetting.isSome = true
    · simp [hactive, hheld] at h
    rw [if_neg hactive, if_neg hheld] at h
    cases hlowest : acc.getLowestTx with
    | none =>
      simp only [hlowest] at h
      obtain ⟨rfl, rfl, rfl⟩ := h
      exact .skip (.of_idle rfl (by simp [idle])) rfl
    | some firstTx =>
      simp only [hlowest] at h
      split_ifs at h
      all_goals
        cases h
        exact .recount (.of_idle rfl (by simp [idle])) rfl hacc ⟨acc.demotions, _, rfl⟩

theorem runs_visitReset {r : ResetAccounts} {addr : Address} {nonce : Nat} {remaining : List (Address × Nat)}
    (hpick : r.remaining[pick]? = some (addr, nonce))
    (h : visitReset p r addr nonce remaining = .done p' next promotions) :
    Runs c p pick (reset r) p' next promotions := by
  unfold visitReset at h
  cases hacc : p.accounts.lookup addr with
  | none =>
    simp only [hacc] at h
    obtain ⟨rfl, rfl, rfl⟩ := h
    exact .skip (.single (fun w => by cases w <;> rfl) rfl) rfl
  | some acc =>
    simp only [hacc] at h
    split_ifs at h with hlock hheld
    all_goals
      cases h
      have hfree : acc.resetting = none := by simpa using hlock
    · exact .resetPromoted remaining hacc hfree hpick (.refl _) (.single (fun w => by cases w <;> rfl) rfl)
    · exact .resetPromoted remaining hacc hfree hpick ⟨0, _, rfl⟩ (.single (fun w => by cases w <;> rfl) rfl)

omit [Keccak] in
theorem visitReset_ne_rejected {r : ResetAccounts} {addr : Address} {nonce : Nat} {remaining : List (Address × Nat)}
    {e : Error} : visitReset p r addr nonce remaining ≠ .rejected e := by
  unfold visitReset
  repeat' split
  all_goals exact nofun

omit [Keccak] in
theorem visitSkips_ne_rejected {active : List Address} {addr : Address} {remaining : List Address} {e : Error} :
    visitSkips p active addr remaining ≠ .rejected e := by
  unfold visitSkips
  repeat' split
  all_goals exact nofun

theorem run_rejected {e : Error} (h : a.run c store sealing p pick = .rejected e) : Runs c p pick a p [] [] := by
  cases a with
  | checkFuture tx => exact .reject (.inl rfl)
  | checkOverflow tx => exact .reject (.inr (.inl rfl))
  | addIndex tx => exact .reject (.inr (.inr rfl))
  | prune remaining =>
    rw [run] at h
    obtain h | ⟨_, _, h⟩ := next_rejected h <;> cases h
  | reset r =>
    rw [run] at h
    obtain h | ⟨_, _, h⟩ := next_rejected h
    · cases h
    · exact absurd h visitReset_ne_rejected
  | updateSkips active remaining =>
    obtain h | ⟨_, _, h⟩ := next_rejected h
    · cases h
    · exact absurd h visitSkips_ne_rejected
  | processBlocks latest blocks stateNonces => cases blocks <;> cases h
  | _ =>
    simp only [run] at h
    (repeat' split at h) <;> cases h

theorem releases_of_blocked (h : a.run c store sealing p pick = .blocked) : a.releases p pick = [] := by
  cases a with
  | decrease txs => cases h
  | prune remaining =>
    rw [run] at h
    obtain ⟨-, hdone⟩ | ⟨-, hnone⟩ | ⟨addr, -, hvisit⟩ := next_cases h
    · cases hdone
    · simp [releases, hnone]
    · cases hvisit
  | drop tx =>
    simp only [run] at h
    cases hacc : p.accounts.lookup tx.sender with
    | none => simp [releases, hacc]
    | some acc =>
      simp only [hacc] at h
      split_ifs at h with hheld
      simp [releases, hacc, hheld]
  | _ => rfl

abbrev Inverted (c : Config) (store : Store) (sealing : Bool) (p : Pool) (pick : Nat) (a : Action) : Prop :=
  ∀ p' next promotions, a.run c store sealing p pick = .done p' next promotions →
    Runs c p pick a p' next promotions

section Inversion

variable {tx : Transaction}

theorem inverted_createAccountOnce : Inverted c store sealing p pick (createAccountOnce tx) := by
  intro p' next promotions h
  simp only [run] at h
  split_ifs at h
  all_goals
    cases h
    exact .skip (.single (fun w => by cases w <;> rfl) rfl) rfl

theorem inverted_initOnce {nonce : Nat} : Inverted c store sealing p pick (initOnce tx nonce) := by
  rintro _ _ _ ⟨⟩
  unfold Pool.initOnce
  cases hacc : p.accounts.lookup tx.sender with
  | none => exact .create hacc
  | some acc => exact .skip (.single (fun w => by cases w <;> rfl) rfl) rfl

theorem inverted_enqueue : Inverted c store sealing p pick (enqueue tx) := by
  intro p' next promotions h
  simp only [run] at h
  cases hacc : p.accounts.lookup tx.sender with
  | none => simp [hacc] at h
  | some acc =>
    simp only [hacc] at h
    cases henqueue : acc.enqueue tx with
    | error e =>
      simp only [henqueue] at h
      cases h
      exact .refuse hacc henqueue
    | ok acc' =>
      simp only [henqueue] at h
      cases h
      exact .enqueue hacc henqueue

theorem inverted_testNonce : Inverted c store sealing p pick (testNonce tx) := by
  intro p' next promotions h
  simp only [run] at h
  cases hacc : p.accounts.lookup tx.sender with
  | none => simp [hacc] at h
  | some acc =>
    simp only [hacc] at h
    cases h
    split_ifs with hlater
    · exact .testLater hacc hlater
    · exact .testNext hacc (not_lt.mp hlater)

theorem inverted_promote {addr : Address} : Inverted c store sealing p pick (promote addr) := by
  intro p' next promotions h
  simp only [run] at h
  cases hacc : p.accounts.lookup addr with
  | none => simp [hacc] at h
  | some acc =>
    simp only [hacc] at h
    split_ifs at h with hheld
    cases h
    exact .promote hacc (by simpa using hheld)

theorem inverted_prune {remaining : List Address} : Inverted c store sealing p pick (prune remaining) := by
  intro p' next promotions h
  rw [run] at h
  obtain ⟨hnil, hdone⟩ | ⟨hblocked, -⟩ | ⟨addr, hpick, hvisit⟩ := next_cases h
  · cases hdone
    exact .skip (.of_idle rfl (by simp)) (by simp [releases, hnil])
  · cases hblocked
  · cases hvisit
    unfold Pool.pruneAccount
    cases hacc : p.accounts.lookup addr with
    | none => exact .skip (.of_idle rfl (by simp [idle])) (by simp [releases, hpick, hacc])
    | some acc => exact .prune hpick hacc

theorem inverted_processBlocks {latest : Address → Nat} {blocks : List (List Transaction)}
    {stateNonces : List (Address × Nat)} :
    Inverted c store sealing p pick (processBlocks latest blocks stateNonces) := by
  intro p' next promotions h
  cases blocks with
  | nil =>
    cases h
    exact .skip (.single (fun w => by cases w <;> rfl) rfl) rfl
  | cons txs blocks =>
    cases h
    exact .removeBlock

theorem inverted_reset {r : ResetAccounts} : Inverted c store sealing p pick (reset r) := by
  intro p' next promotions h
  rw [run] at h
  obtain ⟨-, hdone⟩ | ⟨hblocked, -⟩ | ⟨⟨addr, nonce⟩, hpick, hvisit⟩ := next_cases h
  · cases hdone
    refine .skip ⟨fun w => ?_, rfl⟩ rfl
    cases w
    case owed => simp [work, owed]
    case stale => simp [work, stale]
    all_goals rfl
  · cases hblocked
  · exact runs_visitReset hpick hvisit

theorem inverted_resetEnqueued {addr : Address} {r : ResetAccounts} :
    Inverted c store sealing p pick (resetEnqueued addr r) := by
  intro p' next promotions h
  simp only [run] at h
  cases hacc : p.accounts.lookup addr with
  | none => simp [hacc] at h
  | some acc =>
    simp only [hacc] at h
    cases h
    exact .resetEnqueued hacc ⟨0, _, rfl⟩

theorem inverted_checkSealing {active : List Address} :
    Inverted c store sealing p pick (checkSealing active) := by
  rintro _ _ _ ⟨⟩
  refine .skip (.of_idle rfl fun b hb => ?_) rfl
  split_ifs at hb
  · cases hb
  · rw [List.mem_singleton.mp hb]
    rfl

theorem inverted_updateSkips {active remaining : List Address} :
    Inverted c store sealing p pick (updateSkips active remaining) := by
  intro p' next promotions h
  obtain ⟨-, hdone⟩ | ⟨hblocked, -⟩ | ⟨addr, -, hvisit⟩ := next_cases h
  · cases hdone
    exact .skip (.of_idle rfl (by simp)) rfl
  · cases hblocked
  · exact runs_visitSkips hvisit

theorem inverted_drop : Inverted c store sealing p pick (drop tx) := by
  intro p' next promotions h
  simp only [run] at h
  cases hacc : p.accounts.lookup tx.sender with
  | none => simp [hacc] at h
  | some acc =>
    simp only [hacc] at h
    split_ifs at h with hheld
    cases h
    exact .drop hacc (by simpa using hheld)

theorem inverted_resetSkips {addr : Address} : Inverted c store sealing p pick (resetSkips addr) := by
  rintro _ _ _ ⟨⟩
  unfold Pool.modifyAccount
  cases hacc : p.accounts.lookup addr with
  | none => exact .skip (.of_idle rfl (by simp)) rfl
  | some acc => exact .recount (.of_idle rfl (by simp)) rfl hacc ⟨_, 0, rfl⟩

theorem inverted_check (ha : a = checkPressure tx ∨ a = checkFuture tx ∨ a = checkOverflow tx) :
    Inverted c store sealing p pick a := by
  intro p' next promotions h
  obtain rfl | rfl | rfl := ha
  · cases h
    refine .skip (.single (fun w => ?_) ?_) rfl
    · split_ifs <;> cases w <;> rfl
    · split_ifs <;> rfl
  · simp only [run] at h
    split_ifs at h
    cases h
    exact .skip (.single (fun w => by cases w <;> rfl) rfl) rfl
  · simp only [run] at h
    split_ifs at h with hfits
    cases h
    exact .accept (by simpa using hfits)

theorem inverted_addIndex : Inverted c store sealing p pick (addIndex tx) := by
  intro p' next promotions h
  simp only [run] at h
  split_ifs at h with hknown
  cases h
  exact .addIndex (by simpa using hknown)

end Inversion

theorem run_done (h : a.run c store sealing p pick = .done p' next promotions) :
    Runs c p pick a p' next promotions := by
  cases a with
  | checkPressure tx => exact inverted_check (.inl rfl) _ _ _ h
  | checkFuture tx => exact inverted_check (.inr (.inl rfl)) _ _ _ h
  | checkOverflow tx => exact inverted_check (.inr (.inr rfl)) _ _ _ h
  | addIndex tx => exact inverted_addIndex _ _ _ h
  | createAccountOnce tx => exact inverted_createAccountOnce _ _ _ h
  | fetchNonce tx =>
    cases h
    exact .skip (.single (fun w => by cases w <;> rfl) rfl) rfl
  | initOnce tx nonce => exact inverted_initOnce _ _ _ h
  | enqueue tx => exact inverted_enqueue _ _ _ h
  | increase tx =>
    cases h
    exact .increase
  | testNonce tx => exact inverted_testNonce _ _ _ h
  | promote addr => exact inverted_promote _ _ _ h
  | removeIndex txs =>
    cases h
    exact .removeIndex
  | decrease txs =>
    cases h
    exact .decrease
  | prune remaining => exact inverted_prune _ _ _ h
  | processBlocks latest blocks stateNonces => exact inverted_processBlocks _ _ _ h
  | reset r => exact inverted_reset _ _ _ h
  | resetEnqueued addr r => exact inverted_resetEnqueued _ _ _ h
  | checkSealing active => exact inverted_checkSealing _ _ _ h
  | updateSkips active remaining => exact inverted_updateSkips _ _ _ h
  | drop tx => exact inverted_drop _ _ _ h
  | resetSkips addr => exact inverted_resetSkips _ _ _ h

end Action

structure Pool.SameQueues (p p' : Pool) : Prop where
  accounts : p'.accounts = p.accounts
  index : p'.index = p.index
  gauge : p'.gauge = p.gauge

theorem Pool.SameQueues.refl (p : Pool) : p.SameQueues p := ⟨rfl, rfl, rfl⟩

def Pool.Recounts (p p' : Pool) : Prop :=
  p' = p ∨ ∃ addr acc acc', p.accounts.lookup addr = some acc ∧ acc.Same acc' ∧
    p' = p.setAccount addr acc'

namespace System

variable [ContainerHeap] [Keccak] (c : Config)

def releases (s : System) : Event → List Transaction
  | .run goroutine pick =>
    match s.goroutines[goroutine]? with
    | some (a :: _) => a.releases s.pool pick
    | _ => []
  | .pop tx => if s.unlocked tx.sender then [tx] else []
  | .drop tx =>
    match s.pool.accounts.lookup tx.sender with
    | none => []
    | some acc => if acc.resetting.isSome then [] else acc.queued
  | .demote tx =>
    match s.pool.accounts.lookup tx.sender with
    | none => []
    | some acc =>
      if acc.resetting.isSome ∨ acc.demotions < maxAccountDemotions then [] else acc.queued
  | _ => []

inductive Steps (s : System) : Event → System → Prop
  | idle {e s'} (hreleases : s.releases e = []) (hpool : s.pool.SameQueues s'.pool)
      (hpending : s'.pending = s.pending) : Steps s e s'
  | submit {tx tx' s'} (hvalid : c.validateTx s.store tx = .ok tx') (hpool : s'.pool = s.pool)
      (hpending : s'.pending = .checkPressure tx' :: s.pending) : Steps s (.addTx tx) s'
  | prune {s' addrs} (hpool : s'.pool = s.pool)
      (hpending : s'.pending = .prune addrs :: s.pending) : Steps s .pruneAccounts s'
  | processBlocks {blocks s'} (hpool : s'.pool = s.pool)
      (hpending : s'.pending = .processBlocks s.store.nonce blocks [] :: s.pending) :
      Steps s (.resetWithHeaders blocks) s'
  | act {goroutine pick a rest others p' next promotions s'}
      (hgoroutine : s.goroutines[goroutine]? = some (a :: rest))
      (hrun : Action.Runs c s.pool pick a p' next promotions) (hpool : s'.pool = p')
      (hbefore : s.pending.Perm (a :: others))
      (hafter : s'.pending.Perm (next ++ promotions.map .promote ++ others)) :
      Steps s (.run goroutine pick) s'
  | pop {tx acc s'} (hacc : s.pool.accounts.lookup tx.sender = some acc)
      (hlock : acc.resetting = none) (hpool : s'.pool = s.pool.pop c tx)
      (hpending : s'.pending = s.pending) : Steps s (.pop tx) s'
  | drop {e tx acc s'} (he : e = .drop tx ∨ e = .demote tx) (hreleases : s.releases e = acc.queued)
      (hacc : s.pool.accounts.lookup tx.sender = some acc) (hlock : acc.resetting = none)
      (hpool : (s.pool.drop c tx).Recounts s'.pool) (hpending : s'.pending = s.pending) :
      Steps s e s'
  | demote {tx s'} (hreleases : s.releases (.demote tx) = []) (hpool : s.pool.Recounts s'.pool)
      (hpending : s'.pending = s.pending) : Steps s (.demote tx) s'

omit [ContainerHeap] [Keccak] in
theorem pending_perm {s : System} {goroutine : Nat} {a : Action} {rest : List Action}
    (h : s.goroutines[goroutine]? = some (a :: rest)) :
    s.pending.Perm (a :: (rest ++ (s.goroutines.eraseIdx goroutine).flatten)) := by
  obtain ⟨hlt, hget⟩ := List.getElem?_eq_some_iff.mp h
  have hperm := (List.getElem_cons_eraseIdx_perm hlt).flatten
  rw [hget] at hperm
  exact hperm.symm

theorem steps_advance (s : System) (goroutine pick : Nat) :
    Steps c s (.run goroutine pick) (s.advance c goroutine pick) := by
  unfold advance
  split
  next a rest hgoroutine =>
    have hbefore := pending_perm hgoroutine
    cases hrun : a.run c s.store s.sealing s.pool pick with
    | blocked =>
      refine .idle ?_ (.refl _) rfl
      simp only [releases, hgoroutine]
      exact Action.releases_of_blocked hrun
    | rejected e =>
      exact .act hgoroutine (Action.run_rejected hrun) rfl hbefore (.refl _)
    | done p' next promotions =>
      refine .act hgoroutine (Action.run_done hrun) rfl hbefore ?_
      have hflat : (promotions.map fun addr => [Action.promote addr]).flatten = promotions.map .promote := by
        rw [← List.flatMap_def, ← List.map_eq_flatMap]
      simp only [pending, List.cons_append, List.flatten_cons, List.flatten_append, hflat]
      rw [List.append_assoc, List.append_assoc]
      exact (List.perm_append_comm_assoc _ _ _).append_left next
  next => exact .idle (by simp only [releases]) (.refl _) rfl

omit [ContainerHeap] [Keccak] in
theorem unlocked_eq_true_iff {s : System} {addr : Address} :
    s.unlocked addr = true ↔
      ∃ acc, s.pool.accounts.lookup addr = some acc ∧ acc.resetting = none := by
  unfold unlocked
  cases s.pool.accounts.lookup addr <;> simp

theorem step_cases (s : System) (e : Event) : Steps c s e (s.step c e) := by
  cases e with
  | addTx tx =>
    rw [step]
    split
    · exact .idle rfl (.refl _) rfl
    next tx' hvalid => exact .submit hvalid rfl rfl
  | run goroutine pick => exact steps_advance c s goroutine pick
  | setHead store => exact .idle rfl (.refl _) rfl
  | setSealing sealing => exact .idle rfl (.refl _) rfl
  | pruneAccounts => exact .prune rfl rfl
  | resetWithHeaders blocks => exact .processBlocks rfl rfl
  | clearExecutables => exact .idle rfl ⟨rfl, rfl, rfl⟩ rfl
  | pushPrimary addr =>
    rw [step]
    split
    · exact .idle rfl (.refl _) rfl
    · split_ifs <;> exact .idle rfl ⟨rfl, rfl, rfl⟩ rfl
  | peek =>
    refine .idle rfl ?_ rfl
    simp only [step, Pool.peek]
    split <;> exact ⟨rfl, rfl, rfl⟩
  | pop tx =>
    rw [step]
    split_ifs with hunlocked
    · obtain ⟨acc, hacc, hlock⟩ := unlocked_eq_true_iff.mp hunlocked
      exact .pop hacc hlock rfl rfl
    · exact .idle (by simp [releases, hunlocked]) (.refl _) rfl
  | drop tx =>
    rw [step]
    split_ifs with hunlocked
    · obtain ⟨acc, hacc, hlock⟩ := unlocked_eq_true_iff.mp hunlocked
      exact .drop (.inl rfl) (by simp [releases, hacc, hlock]) hacc hlock (.inl rfl) rfl
    · refine .idle ?_ (.refl _) rfl
      simp only [releases]
      split
      · rfl
      next acc hacc =>
        rw [if_pos]
        simpa [unlocked, hacc, Option.ne_none_iff_isSome] using hunlocked
  | demote tx =>
    rw [step]
    split
    next hnone => exact .idle (by simp [releases, hnone]) (.refl _) rfl
    next acc hacc =>
      split_ifs with hheld
      · rw [Bool.and_eq_true] at hheld
        exact .idle (by simp [releases, hacc, hheld.1]) (.refl _) rfl
      by_cases hlimit : maxAccountDemotions ≤ acc.demotions
      · have hlock : acc.resetting = none := by simpa [hlimit] using hheld
        refine .drop (.inr rfl) ?_ hacc hlock ?_ rfl
        · simp [releases, hacc, hlock, hlimit]
        · simp only [Pool.demote, hacc, hlimit, if_true, Pool.modifyAccount]
          split
          · exact .inl rfl
          next acc' hacc' => exact .inr ⟨_, _, _, hacc', ⟨0, acc'.skips, rfl⟩, rfl⟩
      · refine .demote (by simp [releases, hacc, not_le.mp hlimit])
          (.inr ⟨tx.sender, acc, acc.incrementDemotions, hacc, ⟨_, acc.skips, rfl⟩, ?_⟩) rfl
        simp only [Pool.demote, hacc, hlimit, if_false]

end System

section Accounts

variable {c : Config} {p p' : Pool} {tx : Transaction} {acc : Account}
  {inv : Address → Account → Prop}

theorem Pool.lookup_setAccount (p : Pool) (addr addr' : Address) (acc : Account) :
    (p.setAccount addr acc).accounts.lookup addr' =
      if addr' = addr then some acc else p.accounts.lookup addr' := by
  split_ifs with heq
  · rw [heq]
    exact AList.lookup_insert _
  · exact AList.lookup_insert_ne heq

theorem Pool.lookup_setAccount_cases {addr addr' : Address} {acc' : Account}
    (h : (p.setAccount addr acc).accounts.lookup addr' = some acc') :
    (addr' = addr ∧ acc' = acc) ∨ addr' ≠ addr ∧ p.accounts.lookup addr' = some acc' := by
  rw [lookup_setAccount] at h
  split_ifs at h with heq
  · exact .inl ⟨heq, (Option.some.inj h).symm⟩
  · exact .inr ⟨heq, h⟩

theorem Pool.Recounts.lookup (h : p.Recounts p') {addr : Address} {acc' : Account}
    (hacc' : p'.accounts.lookup addr = some acc') : ∃ acc, p.accounts.lookup addr = some acc ∧ acc.Same acc' := by
  obtain rfl | ⟨addr₀, acc, acc₀, hacc, hsame, rfl⟩ := h
  · exact ⟨acc', hacc', .refl _⟩
  · obtain ⟨rfl, rfl⟩ | ⟨-, hold⟩ := Pool.lookup_setAccount_cases hacc'
    · exact ⟨acc, hacc, hsame⟩
    · exact ⟨acc', hold, .refl _⟩

def Pool.All (inv : Address → Account → Prop) (p : Pool) : Prop :=
  ∀ addr acc, p.accounts.lookup addr = some acc → inv addr acc

theorem Pool.All.setAccount (h : p.All inv) {addr : Address} (hacc : inv addr acc) :
    (p.setAccount addr acc).All inv := by
  intro addr' acc' hlookup
  obtain ⟨rfl, rfl⟩ | ⟨-, hold⟩ := lookup_setAccount_cases hlookup
  · exact hacc
  · exact h addr' acc' hold

theorem Pool.All.of_accounts (h : p.All inv) (haccounts : p'.accounts = p.accounts) : p'.All inv := by
  intro addr acc hlookup
  rw [haccounts] at hlookup
  exact h addr acc hlookup

theorem Pool.drop_executables (c : Config) (p : Pool) (tx : Transaction) :
    (p.drop c tx).executables = p.executables := by
  unfold Pool.drop
  split <;> rfl

theorem Pool.demote_executables (c : Config) (p : Pool) (tx : Transaction) :
    (p.demote c tx).executables = p.executables := by
  unfold Pool.demote Pool.modifyAccount
  repeat' split
  all_goals first | rfl | exact p.drop_executables c tx

theorem Pool.drop_accounts (c : Config) (hacc : p.accounts.lookup tx.sender = some acc) :
    (p.drop c tx).accounts = p.accounts.insert tx.sender (acc.drop tx) := by
  simp [Pool.drop, hacc, Pool.decrease, Pool.removeIndex, Pool.setAccount]

variable [ContainerHeap]

theorem Pool.pop_eq (c : Config) (hacc : p.accounts.lookup tx.sender = some acc) :
    p.pop c tx =
      { (p.setAccount tx.sender acc.pop).decrease c [tx] with
        executables := ((p.setAccount tx.sender acc.pop).decrease c [tx]).executables ++
          (Queue.peek acc.pop.promoted).toList } := by
  simp only [Pool.pop, hacc]

theorem Pool.pop_accounts (c : Config) (hacc : p.accounts.lookup tx.sender = some acc) :
    (p.pop c tx).accounts = p.accounts.insert tx.sender acc.pop := by
  rw [pop_eq c hacc]
  rfl

structure Maintained (bounded : Nat → Prop) (inv : Address → Account → Prop) : Prop where
  same {addr acc acc'} : inv addr acc → acc.Same acc' → inv addr acc'
  new addr nonce maxEnqueued : inv addr (.new nonce maxEnqueued)
  enqueue {acc acc'} {tx : Transaction} : inv tx.sender acc → bounded tx.nonce →
    acc.enqueue tx = .ok acc' → inv tx.sender acc'
  promote {addr acc} : inv addr acc → acc.resetting = none → inv addr acc.promote.2
  resetPromoted {addr acc} nonce : inv addr acc → acc.resetting = none →
    inv addr (acc.resetPromoted nonce).2
  resetEnqueued {addr acc} : inv addr acc → inv addr acc.resetEnqueued.2.2
  pop {addr acc} : inv addr acc → acc.resetting = none → inv addr acc.pop
  drop {addr acc} tx : inv addr acc → acc.resetting = none → inv addr (acc.drop tx)
  pruneNonceHoles {addr acc} : inv addr acc → inv addr acc.pruneNonceHoles.2

def Event.Bounded (bounded : Nat → Prop) : Event → Prop
  | .addTx tx => bounded tx.nonce
  | _ => True

instance (bounded : Nat → Prop) [DecidablePred bounded] :
    DecidablePred (Event.Bounded bounded) := fun e =>
  match e with
  | .addTx tx => inferInstanceAs (Decidable (bounded tx.nonce))
  | .run _ _ | .setHead _ | .setSealing _ | .pruneAccounts | .resetWithHeaders _ | .clearExecutables
  | .pushPrimary _ | .peek | .pop _ | .drop _ | .demote _ => .isTrue trivial

structure System.Holds (bounded : Nat → Prop) (inv : Address → Account → Prop) (s : System) :
    Prop where
  accounts : s.pool.All inv
  submitted : ∀ tx ∈ s.pending.flatMap Action.submitted, bounded tx.nonce

variable {bounded : Nat → Prop} {pick : Nat} {a : Action} {next : List Action}
  {promotions : List Address}

omit [ContainerHeap] in
theorem System.holds_new (maxSlots : Nat) (store : Store) (sealing : Bool) :
    (new maxSlots store sealing).Holds bounded inv where
  accounts addr acc hacc := by simp [new, Pool.new] at hacc
  submitted := by simp [new, pending]

theorem Pool.All.recounts (h : p.All inv) (hinv : Maintained bounded inv) (hp : p.Recounts p') : p'.All inv := by
  obtain rfl | ⟨addr, acc, acc', hacc, hsame, rfl⟩ := hp
  · exact h
  · exact h.setAccount (hinv.same (h addr acc hacc) hsame)

theorem Pool.All.drop (h : p.All inv) (hinv : Maintained bounded inv)
    (hacc : p.accounts.lookup tx.sender = some acc) (hlock : acc.resetting = none) : (p.drop c tx).All inv :=
  (h.setAccount (hinv.drop tx (h _ _ hacc) hlock)).of_accounts (drop_accounts c hacc)

variable [Keccak]

theorem Pool.All.runs (h : p.All inv) (hinv : Maintained bounded inv) (ha : ∀ tx ∈ a.submitted, bounded tx.nonce)
    (hrun : a.Runs c p pick p' next promotions) : p'.All inv := by
  cases hrun with
  | recount _ _ hacc hsame => exact h.setAccount (hinv.same (h _ _ hacc) hsame)
  | create _ => exact h.setAccount (hinv.new _ _ _)
  | enqueue hacc henqueue =>
    exact h.setAccount (hinv.enqueue (h _ _ hacc) (ha _ List.mem_cons_self) henqueue)
  | promote hacc hlock => exact h.setAccount (hinv.promote (h _ _ hacc) hlock)
  | prune _ hacc => exact (h.setAccount (hinv.pruneNonceHoles (h _ _ hacc))).of_accounts rfl
  | resetPromoted _ hacc hlock _ hsame _ =>
    exact h.setAccount (hinv.same (hinv.resetPromoted _ (h _ _ hacc) hlock) hsame)
  | resetEnqueued hacc hsame =>
    exact h.setAccount (hinv.same (hinv.resetEnqueued (h _ _ hacc)) hsame)
  | drop hacc hlock => exact h.drop hinv hacc hlock
  -- The other actions do not change an account.
  | _ => exact h.of_accounts rfl

theorem Action.Runs.submitted (hrun : a.Runs c p pick p' next promotions) :
    ∀ tx ∈ next.flatMap Action.submitted, ∃ tx' ∈ a.submitted, tx.nonce = tx'.nonce := by
  have hpasses : ∀ {b : Action}, b.Passes next →
      ∀ tx ∈ next.flatMap Action.submitted, ∃ tx' ∈ b.submitted, tx.nonce = tx'.nonce :=
    fun hnext tx htx => ⟨tx, (hnext.mem_iff .submitted).mp htx, rfl⟩
  cases hrun with
  | skip hnext _ => exact hpasses hnext
  | recount hnext _ _ _ => exact hpasses hnext
  | resetPromoted _ _ _ _ _ hnext =>
    have hnone := hpasses hnext
    exact hnone
  | _ => simp [Action.submitted, Config.computeHash]

theorem System.Holds.step {s : System} (h : s.Holds bounded inv) (hinv : Maintained bounded inv) {e : Event}
    (he : e.Bounded bounded) : (s.step c e).Holds bounded inv := by
  have hsteps := step_cases c s e
  generalize s.step c e = s' at hsteps
  have hold : s'.pending.flatMap Action.submitted = s.pending.flatMap Action.submitted →
      ∀ tx ∈ s'.pending.flatMap Action.submitted, bounded tx.nonce := by
    intro heq
    rw [heq]
    exact h.submitted
  cases hsteps with
  | idle _ hpool hpending => exact ⟨h.accounts.of_accounts hpool.accounts, hold (by rw [hpending])⟩
  | submit hvalid hpool hpending =>
    obtain ⟨signedBy, -, rfl⟩ := Config.validateTx_ok hvalid
    refine ⟨hpool ▸ h.accounts, ?_⟩
    rw [hpending, List.flatMap_cons, List.forall_mem_append]
    refine ⟨?_, h.submitted⟩
    rw [Action.submitted, List.forall_mem_singleton]
    exact he
  | prune hpool hpending => exact ⟨hpool ▸ h.accounts, hold (by rw [hpending]; rfl)⟩
  | processBlocks hpool hpending => exact ⟨hpool ▸ h.accounts, hold (by rw [hpending]; rfl)⟩
  | act _ hrun hpool hbefore hafter =>
    have hall : ∀ tx ∈ List.flatMap Action.submitted (_ :: _), bounded tx.nonce :=
      fun tx htx => h.submitted tx ((hbefore.flatMap_right _).symm.subset htx)
    rw [List.flatMap_cons, List.forall_mem_append] at hall
    refine ⟨hpool ▸ h.accounts.runs hinv hall.1 hrun, ?_⟩
    intro tx htx
    have hmem := (hafter.flatMap_right _).subset htx
    rw [List.flatMap_append, List.flatMap_append, List.mem_append, List.mem_append] at hmem
    obtain (hnext | hpromotion) | hother := hmem
    · obtain ⟨tx', htx', heq⟩ := hrun.submitted tx hnext
      exact heq ▸ hall.1 tx' htx'
    · simp [Action.submitted] at hpromotion
    · exact hall.2 tx hother
  | pop hacc hlock hpool hpending =>
    refine ⟨?_, hold (by rw [hpending])⟩
    rw [hpool]
    exact (h.accounts.setAccount (hinv.pop (h.accounts _ _ hacc) hlock)).of_accounts (Pool.pop_accounts c hacc)
  | drop _ _ hacc hlock hpool hpending =>
    exact ⟨(h.accounts.drop hinv hacc hlock).recounts hinv hpool, hold (by rw [hpending])⟩
  | demote _ hpool hpending => exact ⟨h.accounts.recounts hinv hpool, hold (by rw [hpending])⟩

end Accounts

def sampleConfig : Config where
  codec := Rlp.standard
  signer tx := some tx.sender
  deploymentWhitelist := []
  priceLimit := 0
  homestead := true
  istanbul := true
  maxAccountEnqueued := 4

def sampleStore : Store := ⟨fun _ => 0, fun _ => some 1000000, 30000⟩

def goOn (n : Nat) : List Event := List.replicate n (.run 0 0)

def addFirst (tx : Transaction) : List Event := .addTx tx :: goOn 9 ++ .run 1 0 :: goOn 2

def addNext (tx : Transaction) : List Event := .addTx tx :: goOn 7 ++ .run 1 0 :: goOn 2

end Nxchain.Txpool
