import Nxchain.Proof.Promotions
import Nxchain.Proof.SlotAccounting
import Nxchain.Txpool.Building

namespace Nxchain.Txpool

namespace Pool

variable {c : Config} {p p' : Pool} {tx : Transaction} {txs : List Transaction} {addr : Address}
  {acc acc' : Account}

def AgreesOff (p : Pool) (addr : Address) (p' : Pool) : Prop :=
  ∀ other, other ≠ addr → p'.accounts.lookup other = p.accounts.lookup other

theorem agreesOff_setAccount (p : Pool) (addr : Address) (acc : Account) :
    p.AgreesOff addr (p.setAccount addr acc) := by
  intro other hne
  rw [lookup_setAccount, if_neg hne]

theorem agreesOff_drop (p : Pool) (tx : Transaction) : p.AgreesOff tx.sender (p.drop c tx) := by
  intro other hne
  cases hacc : p.accounts.lookup tx.sender with
  | none => rw [drop, hacc]
  | some acc => rw [drop_accounts c hacc, AList.lookup_insert_ne hne]

theorem agreesOff_modifyAccount (p : Pool) (addr : Address) (f : Account → Account) :
    p.AgreesOff addr (p.modifyAccount addr f) := by
  unfold modifyAccount
  split
  · exact fun _ _ => rfl
  · exact p.agreesOff_setAccount addr _

theorem agreesOff_demote (p : Pool) (tx : Transaction) : p.AgreesOff tx.sender (p.demote c tx) := by
  unfold demote
  split
  · exact fun _ _ => rfl
  · split_ifs
    · intro other hne
      rw [agreesOff_modifyAccount _ _ _ other hne, agreesOff_drop p tx other hne]
    · exact p.agreesOff_setAccount tx.sender _

variable [ContainerHeap]

theorem agreesOff_pop (p : Pool) (tx : Transaction) : p.AgreesOff tx.sender (p.pop c tx) := by
  intro other hne
  cases hacc : p.accounts.lookup tx.sender with
  | none => rw [pop, hacc]
  | some acc => rw [pop_accounts c hacc, AList.lookup_insert_ne hne]

def HasHead (p : Pool) (tx : Transaction) : Prop :=
  ∃ acc, p.accounts.lookup tx.sender = some acc ∧ Queue.peek acc.promoted = some tx

theorem HasHead.setAccount (h : p.HasHead tx)
    (hacc : ∀ acc, p.accounts.lookup addr = some acc → addr = tx.sender →
      Queue.peek acc.promoted = some tx → Queue.peek acc'.promoted = some tx) :
    (p.setAccount addr acc').HasHead tx := by
  obtain ⟨acc, hlookup, hpeek⟩ := h
  by_cases heq : tx.sender = addr
  · refine ⟨acc', ?_, hacc acc (heq ▸ hlookup) heq.symm hpeek⟩
    rw [lookup_setAccount, if_pos heq]
  · refine ⟨acc, ?_, hpeek⟩
    rw [lookup_setAccount, if_neg heq]
    exact hlookup

theorem HasHead.of_accounts (h : p.HasHead tx) (haccounts : p'.accounts = p.accounts) : p'.HasHead tx := by
  obtain ⟨acc, hlookup, hpeek⟩ := h
  exact ⟨acc, haccounts ▸ hlookup, hpeek⟩

theorem HasHead.same (h : p.HasHead tx) (hacc : p.accounts.lookup addr = some acc)
    (hpromoted : acc'.promoted = acc.promoted) : (p.setAccount addr acc').HasHead tx := by
  refine h.setAccount fun acc₀ hlookup _ hpeek => ?_
  rw [hpromoted, ← Option.some.inj (hlookup.symm.trans hacc)]
  exact hpeek

structure Heads (p : Pool) (txs : List Transaction) : Prop where
  head : ∀ tx ∈ txs, p.HasHead tx
  nodup : (txs.map Transaction.sender).Nodup

theorem Heads.perm {txs' : List Transaction} (h : p.Heads txs) (hperm : txs'.Perm txs) : p.Heads txs' :=
  ⟨fun tx htx => h.head tx (hperm.subset htx), (hperm.map _).nodup_iff.mpr h.nodup⟩

theorem Heads.push (h : p.Heads txs) (hacc : p.accounts.lookup addr = some acc)
    (hhoused : ∀ tx ∈ acc.promoted, tx.sender = addr) (hnew : ∀ tx ∈ txs, tx.sender ≠ addr) :
    p.Heads (txs ++ (Queue.peek acc.promoted).toList) := by
  cases hpeek : Queue.peek acc.promoted with
  | none => simpa using h
  | some tx =>
    have hsender : tx.sender = addr := hhoused tx (Queue.mem_of_peek hpeek)
    refine Heads.perm ⟨?_, ?_⟩ (List.perm_append_singleton tx txs)
    · rw [List.forall_mem_cons]
      exact ⟨⟨acc, hsender ▸ hacc, hpeek⟩, h.head⟩
    · rw [List.map_cons, List.nodup_cons, hsender]
      refine ⟨fun hmem => ?_, h.nodup⟩
      obtain ⟨other, hother, heq⟩ := List.mem_map.mp hmem
      exact hnew other hother heq

theorem Heads.of_agreesOff (h : p.Heads (tx :: txs)) (hp : p.AgreesOff tx.sender p') :
    p'.Heads txs ∧ ∀ other ∈ txs, other.sender ≠ tx.sender := by
  obtain ⟨hnew, hnodup⟩ := List.nodup_cons.mp h.nodup
  have hne : ∀ other ∈ txs, other.sender ≠ tx.sender :=
    fun other hother heq => hnew (heq ▸ List.mem_map_of_mem hother)
  refine ⟨⟨fun other hother => ?_, hnodup⟩, hne⟩
  obtain ⟨acc, hacc, hpeek⟩ := h.head other (List.mem_cons_of_mem _ hother)
  exact ⟨acc, (hp _ (hne other hother)).trans hacc, hpeek⟩

end Pool

section Heads

variable [ContainerHeap] {p p' : Pool} {tx : Transaction}

def Action.disturbs (pick : Nat) (tx : Transaction) : Action → Bool
  | .reset r =>
    match r.remaining[pick]? with
    | some (addr, nonce) => addr = tx.sender && tx.nonce < nonce
    | none => false
  | .drop other => other.sender = tx.sender
  | _ => false

theorem Account.pruneNonceHoles_promoted (a : Account) : a.pruneNonceHoles.2.promoted = a.promoted := by
  obtain heq | heq := a.pruneNonceHoles_cases <;> rw [heq]

theorem Account.resetEnqueued_promoted (a : Account) : a.resetEnqueued.2.2.promoted = a.promoted := by
  unfold resetEnqueued
  split <;> rfl

variable [Keccak] {c : Config}

theorem Action.Runs.hasHead {pick : Nat} {a : Action} {next : List Action} {promotions : List Address}
    (hrun : a.Runs c p pick p' next promotions) (hordered : p.All fun _ acc => acc.Ordered) (h : p.HasHead tx)
    (hdisturbs : a.disturbs pick tx = false) : p'.HasHead tx := by
  cases hrun with
  | recount _ _ hacc hsame =>
    obtain ⟨demotions, skips, rfl⟩ := hsame
    exact h.same hacc rfl
  | create hnew =>
    refine h.setAccount fun acc hlookup _ _ => ?_
    rw [hnew] at hlookup
    cases hlookup
  | enqueue hacc henqueue =>
    obtain ⟨-, -, rfl⟩ := Account.enqueue_cases henqueue
    exact h.same hacc rfl
  | promote hacc hlock =>
    refine h.setAccount fun acc hlookup _ hpeek => ?_
    obtain rfl := Option.some.inj (hlookup.symm.trans hacc)
    exact (hordered _ _ hacc).peek_promote hlock hpeek
  | @prune addr acc _ _ _ hacc =>
    have hset : (p.setAccount addr acc.pruneNonceHoles.2).HasHead tx := h.same hacc acc.pruneNonceHoles_promoted
    exact hset.of_accounts rfl
  | @resetPromoted r addr nonce acc _ _ _ hacc _ hpick hsame _ =>
    obtain ⟨demotions, skips, rfl⟩ := hsame
    refine h.setAccount fun acc₀ hlookup heq hpeek => ?_
    obtain rfl := Option.some.inj (hlookup.symm.trans hacc)
    have hle : nonce ≤ tx.nonce := by simpa [disturbs, hpick, heq] using hdisturbs
    simp only [Account.resetPromoted, Queue.prune_of_le hpeek hle]
    exact hpeek
  | resetEnqueued hacc hsame =>
    obtain ⟨demotions, skips, rfl⟩ := hsame
    exact h.same hacc (Account.resetEnqueued_promoted _)
  | @drop other acc hacc _ =>
    have hne : other.sender ≠ tx.sender := by simpa [disturbs] using hdisturbs
    have hset : (p.setAccount other.sender (acc.drop other)).HasHead tx :=
      h.setAccount fun _ _ heq => absurd heq hne
    exact hset.of_accounts (Pool.drop_accounts c hacc)
  -- The other actions do not change an account.
  | _ => exact h.of_accounts rfl

theorem Action.Runs.executables {pick : Nat} {a : Action} {next : List Action} {promotions : List Address}
    (hrun : a.Runs c p pick p' next promotions) : p'.executables = p.executables := by
  cases hrun with
  | drop hacc _ => exact Pool.drop_executables c p _
  | _ => rfl

def System.disturbs (s : System) (tx : Transaction) : Event → Bool
  | .run goroutine pick =>
    match s.goroutines[goroutine]? with
    | some (a :: _) => a.disturbs pick tx
    | _ => false
  | _ => false

theorem System.executables_step (s : System) {e : Event} (he : e.isConcurrent = true) :
    (s.step c e).pool.executables = s.pool.executables := by
  cases e with
  | addTx tx =>
    rw [step]
    split <;> rfl
  | run goroutine pick =>
    rw [step, advance]
    split
    next a rest hgoroutine =>
      cases hrun : a.run c s.store s.sealing s.pool pick with
      | done p' next promotions => exact (Action.run_done hrun).executables
      | _ => rfl
    next => rfl
  | setHead store => rfl
  | setSealing sealing => rfl
  | pruneAccounts => rfl
  | resetWithHeaders blocks => rfl
  | _ => cases he

theorem System.hasHead_step {s : System} (hordered : s.pool.All fun _ acc => acc.Ordered) {e : Event}
    (he : e.isConcurrent = true) (h : s.pool.HasHead tx) (hdisturbs : s.disturbs tx e = false) :
    (s.step c e).pool.HasHead tx := by
  have hsteps := step_cases c s e
  cases hsteps with
  | idle _ hpool _ => exact h.of_accounts hpool.accounts
  | submit _ hpool _ => exact hpool ▸ h
  | prune hpool _ => exact hpool ▸ h
  | processBlocks hpool _ => exact hpool ▸ h
  | act hgoroutine hrun hpool _ _ =>
    rw [hpool]
    exact hrun.hasHead hordered h (by simpa [disturbs, hgoroutine] using hdisturbs)
  | pop _ _ _ _ => cases he
  | drop hcall _ _ _ _ _ => obtain rfl | rfl := hcall <;> cases he
  | demote _ _ _ => cases he

namespace Node

variable {n : Node} {e : NodeEvent}

def taken (n : Node) : List Transaction :=
  match n.phase with
  | .idle => []
  | .preparing _ | .selecting => n.system.pool.executables
  | .executing tx => tx :: n.system.pool.executables

def Undisturbed (n : Node) (e : NodeEvent) : Prop :=
  ∀ call ∈ n.call e, ∀ tx ∈ n.taken, n.system.disturbs tx call = false

instance (n : Node) (e : NodeEvent) : Decidable (n.Undisturbed e) :=
  inferInstanceAs (Decidable (∀ call ∈ n.call e, ∀ tx ∈ n.taken, n.system.disturbs tx call = false))

structure Selected (n : Node) : Prop where
  heads : n.system.pool.Heads n.taken
  remaining : ∀ remaining, n.phase = .preparing remaining →
    remaining.Nodup ∧ ∀ tx ∈ n.taken, tx.sender ∉ remaining

omit [Keccak] in
theorem Selected.of_phase (hheads : n.system.pool.Heads n.taken)
    (hphase : ∀ remaining, n.phase ≠ .preparing remaining) : n.Selected :=
  ⟨hheads, fun remaining heq => absurd heq (hphase remaining)⟩

omit [Keccak] in
theorem Selected.of_idle (hphase : n.phase = .idle) : n.Selected := by
  refine .of_phase ?_ (by simp [hphase])
  rw [taken, hphase]
  exact ⟨nofun, List.nodup_nil⟩

theorem Selected.stuck (h : n.Selected) (hcall : n.call e = none) (hprogress : n.progress e = (n.phase, n.popped)) :
    (n.step c e).Selected := by
  rw [step, hcall, hprogress]
  exact h

omit [Keccak] in
theorem Selected.heads_of_agreesOff (h : n.Selected) (hphase : n.phase = .executing tx)
    (hp : n.system.pool.AgreesOff tx.sender p) :
    p.Heads n.system.pool.executables ∧ ∀ other ∈ n.system.pool.executables, other.sender ≠ tx.sender := by
  have hheads := h.heads
  simp only [taken, hphase] at hheads
  exact hheads.of_agreesOff hp

theorem Selected.other (h : n.Selected) (hordered : n.system.pool.All fun _ acc => acc.Ordered) {e : Event}
    (hcalm : n.Undisturbed (.other e)) : (n.step c (.other e)).Selected := by
  by_cases he : e.isConcurrent = true
  · have hcall : n.call (.other e) = some e := by simp [call, he]
    have hsystem : (n.step c (.other e)).system = n.system.step c e := by simp [step, hcall]
    have htaken : (n.step c (.other e)).taken = n.taken := by
      simp only [taken, hsystem, System.executables_step _ he]
      rfl
    refine ⟨⟨fun tx htx => ?_, htaken ▸ h.heads.nodup⟩, ?_⟩
    · rw [htaken] at htx
      rw [hsystem]
      exact System.hasHead_step hordered he (h.heads.head tx htx) (hcalm e hcall tx htx)
    · rw [htaken]
      exact h.remaining
  · exact h.stuck (by simp [call, he]) rfl

theorem Selected.prepare (h : n.Selected) : (n.step c .prepare).Selected := by
  cases hphase : n.phase with
  | idle =>
    have hstep : n.step c .prepare =
        ⟨n.system.step c .clearExecutables, .preparing n.system.pool.accounts.keys, []⟩ := by
      simp [step, call, progress, hphase]
    rw [hstep]
    refine ⟨⟨nofun, List.nodup_nil⟩, ?_⟩
    rintro remaining ⟨rfl⟩
    exact ⟨n.system.pool.accounts.keys_nodup, nofun⟩
  | _ => exact h.stuck (by simp [call, hphase]) (by simp [progress, hphase])

omit [ContainerHeap] [Keccak] in
theorem call_collect {remaining : List Address} (hphase : n.phase = .preparing remaining) (pick : Nat) :
    n.call (.collect pick) = none ∨
      ∃ addr acc, remaining[pick]? = some addr ∧ n.system.pool.accounts.lookup addr = some acc ∧
        acc.resetting = none ∧ n.call (.collect pick) = some (.pushPrimary addr) := by
  cases hpick : remaining[pick]? with
  | none => exact .inl (by simp [call, hphase, hpick])
  | some addr =>
    by_cases hunlocked : n.system.unlocked addr = true
    · obtain ⟨acc, hacc, hlock⟩ := System.unlocked_eq_true_iff.mp hunlocked
      refine .inr ⟨addr, acc, rfl, hacc, hlock, ?_⟩
      simp [call, hphase, hpick, hunlocked]
    · exact .inl (by simp [call, hphase, hpick, hunlocked])

section

variable (h : n.Selected)

include h

theorem Selected.collect (hhoused : n.system.pool.All Account.HousedAt) (pick : Nat) :
    (n.step c (.collect pick)).Selected := by
  cases hphase : n.phase with
  | preparing remaining =>
    have htaken : n.taken = n.system.pool.executables := by simp only [taken, hphase]
    obtain ⟨hnodup, hnew⟩ := h.remaining remaining hphase
    have hheads := h.heads
    rw [htaken] at hheads hnew
    obtain hcall | ⟨addr, acc, hpick, hacc, hlock, hcall⟩ := call_collect hphase pick
    · cases remaining with
      | nil =>
        have hstep : n.step c (.collect pick) = ⟨n.system, .selecting, n.popped⟩ := by
          simp [step, hcall, progress, hphase]
        rw [hstep]
        exact .of_phase hheads nofun
      | cons addr rest => exact h.stuck hcall (by simp [progress, hphase, hcall])
    · obtain ⟨hlt, hget⟩ := List.getElem?_eq_some_iff.mp hpick
      have hstep : n.step c (.collect pick) =
          ⟨n.system.step c (.pushPrimary addr), .preparing (remaining.eraseIdx pick), n.popped⟩ := by
        cases remaining with
        | nil => cases hlt
        | cons _ _ => simp [step, hcall, progress, hphase]
      have hmem : addr ∈ remaining := hget ▸ List.getElem_mem hlt
      have hpush : n.system.pool.Heads (n.system.pool.executables ++ (Queue.peek acc.promoted).toList) :=
        hheads.push hacc (hhoused addr acc hacc).promoted fun tx htx heq => hnew tx htx (heq ▸ hmem)
      have hpool : (n.system.step c (.pushPrimary addr)).pool = { n.system.pool with
            executables := n.system.pool.executables ++ (Queue.peek acc.promoted).toList } := by
        simp [System.step, hacc, hlock]
      rw [hstep]
      refine ⟨?_, ?_⟩
      · simp only [taken, hpool]
        exact ⟨fun tx htx => (hpush.head tx htx).of_accounts rfl, hpush.nodup⟩
      · rintro _ ⟨rfl⟩
        have hrest : addr ∉ remaining.eraseIdx pick := by
          rw [← hnodup.erase_getElem pick hlt, hget]
          exact hnodup.not_mem_erase
        refine ⟨hnodup.eraseIdx pick, fun tx htx => ?_⟩
        simp only [taken, hpool, List.mem_append, Option.mem_toList] at htx
        obtain hold | hhead := htx
        · exact fun hin => hnew tx hold (List.eraseIdx_subset hin)
        · have hsender : tx.sender = addr := (hhoused addr acc hacc).promoted tx (Queue.mem_of_peek hhead)
          exact hsender ▸ hrest
  | _ => exact h.stuck (by simp [call, hphase]) (by simp [progress, hphase])

theorem Selected.peek : (n.step c .peek).Selected := by
  cases hphase : n.phase with
  | selecting =>
    have hheads := h.heads
    simp only [taken, hphase] at hheads
    cases hfirst : ContainerHeap.byPrice.first n.system.pool.executables with
    | none =>
      have hpeek : n.system.pool.peek = (none, n.system.pool) := by simp [Pool.peek, hfirst]
      have hstep : n.step c .peek = n := by
        simp only [step, call, progress, hphase, hpeek, System.step]
        rw [← hphase]
      rw [hstep]
      exact h
    | some tx =>
      have hpeek : n.system.pool.peek =
          (some tx, { n.system.pool with executables := n.system.pool.executables.erase tx }) := by
        simp [Pool.peek, hfirst]
      have hmem := ContainerHeap.byPrice.mem_of_first hfirst
      have hall := hheads.perm (List.perm_cons_erase hmem).symm
      refine .of_phase ?_ (by simp [step, progress, hphase, hpeek])
      simp only [step, call, progress, hphase, hpeek, System.step]
      exact ⟨fun tx htx => (hall.head tx htx).of_accounts rfl, hall.nodup⟩
  | _ => exact h.stuck (by simp [call, hphase]) (by simp [progress, hphase])

theorem Selected.pop (hhoused : n.system.pool.All Account.HousedAt) : (n.step c .pop).Selected := by
  cases hphase : n.phase with
  | executing tx =>
    by_cases hunlocked : n.system.unlocked tx.sender = true
    · have hcall : n.call .pop = some (.pop tx) := by simp [call, hphase, hunlocked]
      obtain ⟨acc, hacc, hlock⟩ := System.unlocked_eq_true_iff.mp hunlocked
      obtain ⟨hrest, hne⟩ := h.heads_of_agreesOff hphase (n.system.pool.agreesOff_pop (c := c) tx)
      have hacc' : (n.system.pool.pop c tx).accounts.lookup tx.sender = some acc.pop := by
        rw [Pool.pop_accounts c hacc, AList.lookup_insert]
      have hhoused' : acc.pop.HousedAt tx.sender := maintained_housedAt.pop (hhoused _ _ hacc) hlock
      refine .of_phase ?_ (by simp [step, progress, hphase, hcall])
      simp only [taken, step, progress, hphase, hcall, System.step, hunlocked, if_true]
      have hexecutables : (n.system.pool.pop c tx).executables =
          n.system.pool.executables ++ (Queue.peek acc.pop.promoted).toList := by
        rw [Pool.pop_eq c hacc]
        rfl
      rw [hexecutables]
      exact hrest.push hacc' hhoused'.promoted hne
    · have hcall : n.call .pop = none := by simp [call, hphase, hunlocked]
      exact h.stuck hcall (by simp [progress, hcall])
  | _ => exact h.stuck (by simp [call, hphase]) (by simp [progress, hphase])

theorem Selected.drop : (n.step c .drop).Selected := by
  cases hphase : n.phase with
  | executing tx =>
    by_cases hunlocked : n.system.unlocked tx.sender = true
    · have hcall : n.call .drop = some (.drop tx) := by simp [call, hphase, hunlocked]
      obtain ⟨hrest, -⟩ := h.heads_of_agreesOff hphase (n.system.pool.agreesOff_drop (c := c) tx)
      refine .of_phase ?_ (by simp [step, progress, hcall])
      simp only [taken, step, progress, hcall, System.step, hunlocked, if_true,
        Option.isSome_some, Pool.drop_executables]
      exact hrest
    · have hcall : n.call .drop = none := by simp [call, hphase, hunlocked]
      exact h.stuck hcall (by simp [progress, hcall])
  | _ =>
    have hcall : n.call .drop = none := by simp [call, hphase]
    exact h.stuck hcall (by simp [progress, hcall])

theorem Selected.demote : (n.step c .demote).Selected := by
  cases hphase : n.phase with
  | executing tx =>
    by_cases hwaits : n.demoteWaits tx = true
    · have hcall : n.call .demote = none := by simp [call, hphase, hwaits]
      exact h.stuck hcall (by simp [progress, hcall])
    · have hcall : n.call .demote = some (.demote tx) := by simp [call, hphase, hwaits]
      obtain ⟨hrest, -⟩ := h.heads_of_agreesOff hphase (n.system.pool.agreesOff_demote (c := c) tx)
      have hpool : (n.system.step c (.demote tx)).pool = n.system.pool.demote c tx := by
        cases hacc : n.system.pool.accounts.lookup tx.sender with
        | none => simp [demoteWaits, hacc] at hwaits
        | some acc =>
          simp only [demoteWaits, hacc] at hwaits
          simp only [System.step, hacc, hwaits, Bool.false_eq_true, if_false]
      refine .of_phase ?_ (by simp [step, progress, hcall])
      simp only [taken, step, progress, hcall, if_true, Option.isSome_some, hpool, Pool.demote_executables]
      exact hrest
  | _ =>
    have hcall : n.call .demote = none := by simp [call, hphase]
    exact h.stuck hcall (by simp [progress, hcall])

theorem Selected.finish (inserted : Bool) : (n.step c (.finish inserted)).Selected := by
  cases hphase : n.phase with
  | selecting => exact .of_idle (by simp [step, progress, hphase])
  | executing tx => exact .of_idle (by simp [step, progress, hphase])
  | _ => exact h.stuck (by simp [call, hphase]) (by simp [progress, hphase])

theorem Selected.step (hordered : n.system.pool.All fun _ acc => acc.Ordered)
    (hhoused : n.system.pool.All Account.HousedAt) (hcalm : n.Undisturbed e) : (n.step c e).Selected := by
  cases e with
  | other e => exact h.other hordered hcalm
  | prepare => exact h.prepare
  | collect pick => exact h.collect hhoused pick
  | peek => exact h.peek
  | pop => exact h.pop hhoused
  | drop => exact h.drop
  | demote => exact h.demote
  | finish inserted => exact h.finish inserted

end

def Calm (n : Node) (e : NodeEvent) : Prop :=
  n.Undisturbed e ∧ ∀ call ∈ n.call e, call.Bounded HasSuccessor

instance (n : Node) (e : NodeEvent) : Decidable (n.Calm e) :=
  inferInstanceAs (Decidable (n.Undisturbed e ∧ ∀ call ∈ n.call e, call.Bounded HasSuccessor))

structure Sound (n : Node) : Prop extends n.Selected where
  ordered : n.system.Holds HasSuccessor fun _ acc => acc.Ordered
  housed : n.system.Holds (fun _ => True) Account.HousedAt

theorem system_step {inv : System → Prop} (h : inv n.system)
    (hstep : ∀ call ∈ n.call e, inv (n.system.step c call)) : inv (n.step c e).system := by
  unfold step
  cases hcall : n.call e with
  | none => exact h
  | some call => exact hstep call hcall

theorem Sound.step (h : n.Sound) (hcalm : n.Calm e) :
    (n.step c e).Sound where
  toSelected := h.toSelected.step h.ordered.accounts h.housed.accounts hcalm.1
  ordered := system_step h.ordered fun call hcall =>
    h.ordered.step maintained_ordered (hcalm.2 call hcall)
  housed := system_step h.housed fun call hcall =>
    h.housed.step maintained_housedAt (by cases call <;> trivial)

omit [Keccak] in
theorem sound_new (maxSlots : Nat) (store : Store) (sealing : Bool) :
    (new maxSlots store sealing).Sound where
  toSelected := .of_idle rfl
  ordered := System.holds_new maxSlots store sealing
  housed := System.holds_new maxSlots store sealing

omit [ContainerHeap] [Keccak] in
theorem call_eq_pop {tx : Transaction} (h : n.call e = some (.pop tx)) :
    e = .pop ∧ n.phase = .executing tx ∧ n.system.unlocked tx.sender = true := by
  cases e with
  | other e =>
    simp only [call] at h
    split_ifs at h with he
    obtain rfl := Option.some.inj h
    cases he
  | pop =>
    simp only [call] at h
    split at h
    next tx' hphase =>
      split_ifs at h with hunlocked
      obtain ⟨rfl⟩ := Option.some.inj h
      exact ⟨rfl, hphase, hunlocked⟩
    next => cases h
  | collect pick =>
    simp only [call] at h
    split at h
    · obtain ⟨addr, -, heq⟩ := Option.map_eq_some_iff.mp h
      cases heq
    · cases h
  | _ =>
    simp only [call] at h
    split at h <;> first | cases h | (split_ifs at h; cases h)

def PopsExactly (c : Config) (n : Node) (e : NodeEvent) : Prop :=
  ∀ tx, n.call e = some (.pop tx) →
    ∃ acc, n.system.pool.accounts.lookup tx.sender = some acc ∧ tx ∈ acc.promoted ∧
      (n.step c e).system.pool.accounts = n.system.pool.accounts.insert tx.sender
        { acc with promoted := acc.promoted.erase tx, demotions := 0 }

def departures (c : Config) (n : Node) (e : NodeEvent) : List Transaction :=
  n.system.pool.queued.diff (n.step c e).system.pool.queued

def releases (n : Node) (e : NodeEvent) : List Transaction :=
  match n.call e with
  | some call => n.system.releases call
  | none => []

def counts (c : Config) (n : Node) (e : NodeEvent) : List Transaction :=
  (n.system.pending.flatMap Action.uncounted).diff
    ((n.step c e).system.pending.flatMap Action.uncounted)

def GaugeFollows (c : Config) (n : Node) (e : NodeEvent) : Prop :=
  ((n.step c e).system.pool.gauge.height + c.slotsRequired (n.releases e)) % 2 ^ 64 =
    (n.system.pool.gauge.height + c.slotsRequired (n.counts c e)) % 2 ^ 64

def owed (n : Node) : List Transaction := n.system.pending.flatMap Action.owed

omit [Keccak] in
theorem Selected.hasHead (h : n.Selected) {tx : Transaction} (hcall : n.call e = some (.pop tx)) :
    n.system.pool.HasHead tx := by
  refine h.heads.head tx ?_
  rw [taken, (call_eq_pop hcall).2.1]
  exact List.mem_cons_self

omit [Keccak] in
theorem Selected.popsHead (h : n.Selected) {call : Event} (hcall : n.call e = some call) :
    n.system.PopsHead call := by
  intro tx hpopped acc hacc
  cases call with
  | pop tx' =>
    obtain ⟨rfl⟩ := Option.some.inj hpopped
    obtain ⟨acc', hacc', hpeek⟩ := h.hasHead hcall
    exact Option.some.inj (hacc'.symm.trans hacc) ▸ hpeek
  | _ => cases hpopped

theorem Selected.popsExactly (h : n.Selected) (e : NodeEvent) : n.PopsExactly c e := by
  intro tx hcall
  obtain ⟨acc, hacc, hpeek⟩ := h.hasHead hcall
  refine ⟨acc, hacc, Queue.mem_of_peek hpeek, ?_⟩
  have hpop : acc.pop = { acc with promoted := acc.promoted.erase tx, demotions := 0 } := by
    simp only [Account.pop, Queue.pop, hpeek]
  simp only [Node.step, hcall, System.step, (call_eq_pop hcall).2.2, if_true]
  rw [Pool.pop_accounts c hacc, hpop]

theorem Selected.move (h : n.Selected) (e : NodeEvent) :
    ∃ admits left, Ledger.Move c.weight admits (ledger n.system.pool n.system.pending) left
      (n.releases e) (ledger (n.step c e).system.pool (n.step c e).system.pending) := by
  cases hcall : n.call e with
  | none =>
    simp only [releases, Node.step, hcall]
    exact ⟨fun _ => False, 0, .idle _⟩
  | some call =>
    simp only [releases, Node.step, hcall]
    obtain ⟨left, -, hmove⟩ := n.system.step_move call (h.popsHead hcall)
    exact ⟨_, left, hmove⟩

theorem Selected.gaugeFollows (h : n.Selected) (e : NodeEvent) : n.GaugeFollows c e := by
  obtain ⟨admits, left, hmove⟩ := h.move (c := c) e
  have hlevel := hmove.level_add
  have hcounts : (ledger n.system.pool n.system.pending).uncounted -
      (ledger (n.step c e).system.pool (n.step c e).system.pending).uncounted =
        (n.counts c e : Multiset Transaction) := Multiset.coe_sub _ _
  rw [hcounts, ← c.cast_slotsRequired, ← c.cast_slotsRequired] at hlevel
  simp only [ledger] at hlevel
  rw [← Nat.cast_add, ← Nat.cast_add, ZMod.natCast_eq_natCast_iff'] at hlevel
  exact hlevel

theorem Selected.releases_add_owed (h : n.Selected) (e : NodeEvent) :
    (n.releases e : Multiset Transaction) + (n.step c e).owed = n.departures c e + n.owed := by
  obtain ⟨admits, left, hmove⟩ := h.move (c := c) e
  have hleft : left = n.departures c e := hmove.left_eq.trans (Multiset.coe_sub _ _)
  have hreleased := hmove.released_add_owed
  rw [hleft] at hreleased
  exact hreleased

end Node

theorem pop_removes_argument (maxSlots : Nat) (store : Store) (sealing : Bool) (events : List NodeEvent)
    (hevents : Runs.Along (Node.step c) Node.Calm (.new maxSlots store sealing) events) :
    let start := Node.new maxSlots store sealing
    Runs.Along (Node.step c) (fun n e => n.PopsExactly c e ∧ n.GaugeFollows c e) start events ∧
      (Runs.collect (Node.step c) (Node.departures c) start events).Perm
        (Runs.collect (Node.step c) Node.releases start events ++ (start.run c events).owed) := by
  intro start
  have hkeep : ∀ (n : Node) (e : NodeEvent), n.Sound → n.Calm e → (n.step c e).Sound :=
    fun n e h hcalm => h.step hcalm
  have hstart : start.Sound := Node.sound_new maxSlots store sealing
  constructor
  · exact Runs.along_of_inv hkeep
      (fun n e h _ => ⟨h.toSelected.popsExactly e, h.toSelected.gaugeFollows e⟩) hstart hevents
  · have hstep : ∀ (n : Node) (e : NodeEvent), n.Sound → n.Calm e →
        (n.releases e : Multiset Transaction) + (n.step c e).owed = n.departures c e + n.owed :=
      fun n e h _ => h.toSelected.releases_add_owed e
    have htotal := Runs.collect_add_owed (fun n => (n.owed : Multiset Transaction)) hkeep hstep hstart hevents
    have hnone : start.owed = [] := rfl
    rw [hnone, Multiset.coe_nil, add_zero, Multiset.coe_add, Multiset.coe_eq_coe] at htotal
    exact htotal.symm

end Heads

section Sample

local instance roundHeap : ContainerHeap := leftmostHeap
local instance roundKeccak : Keccak := sampleKeccak

def sampleSelection : List NodeEvent :=
  (addFirst (sampleTx 0 1) ++ addNext (sampleTx 1 1)).map .other ++
    [.prepare, .collect 0, .collect 0, .peek]

theorem pop_removes_argument_sample : let events := sampleSelection ++ [.pop, .finish true]
    let start := Node.new 10 sampleStore true
    ((start.run sampleConfig events).system.pool.accounts.lookup sampleSender).map
        Account.promoted = some [samplePooled 1] ∧
      (Runs.collect (Node.step sampleConfig) (Node.departures sampleConfig) start events).Perm
        (Runs.collect (Node.step sampleConfig) Node.releases start events ++
          (start.run sampleConfig events).owed) :=
  ⟨by decide +kernel,
    (pop_removes_argument 10 sampleStore true (sampleSelection ++ [.pop, .finish true]) (by decide +kernel)).2⟩

def sampleDisturbance : List NodeEvent :=
  sampleSelection ++
    (.setHead { sampleStore with nonce := fun _ => 1 } :: .resetWithHeaders [[samplePooled 0]] ::
      goOn 6).map .other

theorem pop_removes_successor : let start := Node.new 10 sampleStore true
    let n := start.run sampleConfig sampleDisturbance
    let events := sampleDisturbance ++ [.pop]
    (n.call .pop).bind Event.popped = some (samplePooled 0) ∧
      (n.system.pool.accounts.lookup sampleSender).map Account.promoted = some [samplePooled 1] ∧
      ((n.step sampleConfig .pop).system.pool.accounts.lookup sampleSender).map Account.promoted =
        some [] ∧
      Runs.collect (Node.step sampleConfig) (Node.departures sampleConfig) start events =
        [samplePooled 0, samplePooled 1] ∧
      Runs.collect (Node.step sampleConfig) Node.releases start events =
        [samplePooled 0, samplePooled 0] := by
  refine ⟨?_, ?_, ?_, ?_, ?_⟩
  all_goals decide +kernel

end Sample

end Nxchain.Txpool
