import Nxchain.Proof.Overlay
import Nxchain.Proof.PoolSteps

namespace Nxchain.Txpool

section Promotions

variable [ContainerHeap]

variable {acc acc' : Account} {addr : Address} {a : Action}

def HasSuccessor (nonce : Nat) : Prop := nonce < 2 ^ 64 - 1

instance : DecidablePred HasSuccessor := fun nonce =>
  inferInstanceAs (Decidable (nonce < 2 ^ 64 - 1))

omit [ContainerHeap] in
theorem Account.Ordered.same (h : acc.Ordered) (hsame : acc.Same acc') : acc'.Ordered := by
  obtain ⟨demotions, skips, rfl⟩ := hsame
  exact ⟨h.promoted, h.enqueued, h.bounded, h.length_le, h.resetting⟩

theorem maintained_ordered : Maintained HasSuccessor fun _ acc => acc.Ordered where
  same h hsame := h.same hsame
  new _ nonce maxEnqueued := Account.ordered_new nonce maxEnqueued
  enqueue h hbound hacc := h.enqueue hbound hacc
  promote h hlock := (h.promote hlock).1
  resetPromoted nonce h _ := h.resetPromoted nonce
  resetEnqueued h := h.resetEnqueued
  pop h hlock := h.pop hlock
  drop tx _ hlock := .drop tx hlock
  pruneNonceHoles h := h.pruneNonceHoles

def Account.HousedAt (addr : Address) (acc : Account) : Prop := ∀ tx ∈ acc.queued, tx.sender = addr

omit [ContainerHeap] in
theorem Account.HousedAt.of_perm {left : List Transaction} (h : acc.HousedAt addr)
    (hperm : (acc'.queued ++ left).Perm acc.queued) : acc'.HousedAt addr :=
  fun tx htx => h tx (hperm.subset (List.mem_append_left _ htx))

omit [ContainerHeap] in
theorem Account.HousedAt.promoted (h : acc.HousedAt addr) : ∀ tx ∈ acc.promoted, tx.sender = addr :=
  fun tx htx => h tx (List.mem_append_left _ htx)

theorem maintained_housedAt : Maintained (fun _ => True) Account.HousedAt where
  same h hsame := by
    obtain ⟨demotions, skips, rfl⟩ := hsame
    exact h
  new _ _ _ := by
    intro tx htx
    simp [Account.queued, Account.new] at htx
  enqueue h _ hacc := by
    intro tx htx
    rcases List.mem_cons.mp ((Account.queued_enqueue hacc).subset htx) with rfl | hold
    · rfl
    · exact h tx hold
  promote h _ := h.of_perm (Account.queued_promote _)
  resetPromoted nonce h _ := h.of_perm (Account.queued_resetPromoted _ nonce)
  resetEnqueued h := h.of_perm (Account.queued_resetEnqueued _)
  pop {addr acc} h _ := by
    cases hpeek : Queue.peek acc.promoted with
    | none =>
      simp only [Account.pop, Queue.pop, hpeek]
      exact h
    | some tx =>
      exact fun other hother =>
        h other ((Account.queued_pop hpeek).subset (List.mem_cons_of_mem _ hother))
  drop tx _ _ := by
    intro other hother
    simp [Account.queued, Account.drop] at hother
  pruneNonceHoles h := h.of_perm (Account.queued_pruneNonceHoles _)

def Action.Wakes (addr : Address) (nextNonce : Nat) (a : Action) : Prop :=
  addr ∈ a.promotes ∨ ∃ tx ∈ a.untested, tx.sender = addr ∧ tx.nonce ≤ nextNonce

def Account.Due (acc : Account) : Prop := ∃ tx ∈ acc.enqueued, tx.nonce ≤ acc.nextNonce

def System.Awake (s : System) : Prop :=
  ∀ addr acc, s.pool.accounts.lookup addr = some acc → acc.Due →
    ∃ a ∈ s.pending, a.Wakes addr acc.nextNonce

omit [ContainerHeap] in
theorem Action.Passes.wakes {next : List Action} (h : a.Passes next) {nextNonce : Nat}
    (ha : a.Wakes addr nextNonce) : ∃ b ∈ next, b.Wakes addr nextNonce := by
  obtain hpromotes | ⟨tx, htx, hsender, hnonce⟩ := ha
  · rw [← h.2] at hpromotes
    obtain ⟨b, hb, hmem⟩ := List.mem_flatMap.mp hpromotes
    exact ⟨b, hb, .inl hmem⟩
  · obtain ⟨b, hb, hmem⟩ := List.mem_flatMap.mp ((h.mem_iff .untested).mpr htx)
    exact ⟨b, hb, .inr ⟨tx, hmem, hsender, hnonce⟩⟩

theorem Account.mem_signal_of_due (hhoused : acc.HousedAt addr) {nonce : Nat}
    (hresetting : acc.resetting = some nonce) (hdue : acc.resetEnqueued.2.2.Due) :
    addr ∈ acc.resetEnqueued.2.1.toList := by
  obtain ⟨tx, htx, hle⟩ := hdue
  simp only [resetEnqueued, hresetting] at htx hle ⊢
  obtain ⟨first, hpeek⟩ := Queue.exists_peek htx
  have hfirst := Queue.mem_prune_iff.mp (Queue.mem_of_peek hpeek)
  have hleast := Queue.nonce_le_of_peek hpeek htx
  have hnonce : first.nonce = nonce := by omega
  have hsender : first.sender = addr := hhoused first (List.mem_append_right _ hfirst.1)
  simp [promotionSignal, hpeek, hnonce, hsender]

variable [Keccak] {c : Config}

def Action.Rouses (a : Action) (p : Pool) (next : List Action) (addr : Address) (acc' : Account) :
    Prop :=
  (∃ b ∈ next, b.Wakes addr acc'.nextNonce) ∨
    ∃ acc, p.accounts.lookup addr = some acc ∧ acc.Due ∧ acc.nextNonce = acc'.nextNonce ∧
      (a.Wakes addr acc.nextNonce → ∃ b ∈ next, b.Wakes addr acc.nextNonce)

section Rouses

variable {p p' : Pool} {next : List Action} (hacc : p.accounts.lookup addr = some acc)
  (hdue : acc.Due) (hnonce : acc.nextNonce = acc'.nextNonce)

include hacc hdue hnonce

omit [ContainerHeap] [Keccak] in
theorem Action.Passes.rouses (h : a.Passes next) : a.Rouses p (next ++ []) addr acc' := by
  rw [List.append_nil]
  exact .inr ⟨acc, hacc, hdue, hnonce, h.wakes⟩

omit [ContainerHeap] [Keccak] in
theorem Action.rouses_of_asleep (hpromotes : a.promotes = []) (huntested : a.untested = []) :
    a.Rouses p next addr acc' := by
  refine .inr ⟨acc, hacc, hdue, hnonce, fun hwakes => ?_⟩
  simp [Wakes, hpromotes, huntested] at hwakes

omit [ContainerHeap] [Keccak] in
theorem Action.rouses_of_untested (hpromotes : a.promotes = [])
    (huntested : ∀ tx ∈ a.untested, tx.sender = addr → tx.nonce ≤ acc.nextNonce →
      ∃ b ∈ next, b.Wakes addr acc.nextNonce) : a.Rouses p next addr acc' := by
  refine .inr ⟨acc, hacc, hdue, hnonce, ?_⟩
  rintro (hpromotion | ⟨tx, htx, hsender, hle⟩)
  · simp [hpromotes] at hpromotion
  · exact huntested tx htx hsender hle

end Rouses

theorem Action.Runs.rouses {p p' : Pool} {pick : Nat} {next : List Action} {promotions : List Address}
    (hrun : a.Runs c p pick p' next promotions) (hordered : p.All fun _ acc => acc.Ordered)
    (hhoused : p.All Account.HousedAt) (hacc' : p'.accounts.lookup addr = some acc') (hdue : acc'.Due) :
    a.Rouses p (next ++ promotions.map .promote) addr acc' := by
  cases hrun with
  | skip hnext _ => exact hnext.rouses hacc' hdue rfl
  | recount hnext _ hacc hsame =>
    obtain ⟨rfl, rfl⟩ | ⟨-, hold⟩ := Pool.lookup_setAccount_cases hacc'
    · obtain ⟨demotions, skips, rfl⟩ := hsame
      exact hnext.rouses hacc hdue rfl
    · exact hnext.rouses hold hdue rfl
  | reject ha => obtain rfl | rfl | rfl := ha <;> exact rouses_of_asleep hacc' hdue rfl rfl rfl
  | create _ =>
    obtain ⟨rfl, rfl⟩ | ⟨-, hold⟩ := Pool.lookup_setAccount_cases hacc'
    · simp [Account.Due, Account.new] at hdue
    · exact rouses_of_asleep hold hdue rfl rfl rfl
  | @enqueue tx acc₀ acc₀' hacc henqueue =>
    obtain ⟨rfl, rfl⟩ | ⟨-, hold⟩ := Pool.lookup_setAccount_cases hacc'
    · obtain ⟨-, -, rfl⟩ := Account.enqueue_cases henqueue
      obtain ⟨other, hother, hle⟩ := hdue
      -- the handler of the new transaction has not tested its nonce yet
      rcases List.mem_append.mp hother with hold | hnew
      · exact rouses_of_asleep hacc ⟨other, hold, hle⟩ rfl rfl rfl
      · rw [List.mem_singleton.mp hnew] at hle
        exact .inl ⟨Action.increase tx, by simp, .inr ⟨tx, by simp [untested], rfl, hle⟩⟩
    · exact rouses_of_asleep hold hdue rfl rfl rfl
  | @increase tx =>
    refine rouses_of_untested hacc' hdue rfl rfl fun other hother hsender hle => ?_
    exact ⟨testNonce tx, by simp, .inr ⟨other, hother, hsender, hle⟩⟩
  | testLater hacc hlater =>
    refine rouses_of_untested hacc' hdue rfl rfl fun other hother hsender hle => ?_
    rw [untested, List.mem_singleton] at hother
    rw [hother] at hsender hle
    rw [hsender, hacc', Option.some.injEq] at hacc
    subst hacc
    omega
  | @testNext tx acc₀ hacc hnext =>
    refine rouses_of_untested hacc' hdue rfl rfl fun other hother hsender _ => ?_
    rw [untested, List.mem_singleton] at hother
    rw [hother] at hsender
    exact ⟨Action.promote tx.sender, by simp, .inl (by simp [promotes, hsender])⟩
  | @promote addr₀ acc₀ hacc hlock =>
    obtain ⟨rfl, rfl⟩ | ⟨hne, hold⟩ := Pool.lookup_setAccount_cases hacc'
    · obtain ⟨tx, htx, hle⟩ := hdue
      have hlt := ((hordered _ acc₀ hacc).promote hlock).2 tx htx
      omega
    · refine .inr ⟨acc', hold, hdue, rfl, ?_⟩
      rintro (hpromotes | ⟨other, hother, -⟩)
      · exact absurd (by simpa [promotes] using hpromotes) hne
      · simp [untested] at hother
  | @prune addr₀ acc₀ _ _ _ hacc =>
    have hset : (p.setAccount addr₀ acc₀.pruneNonceHoles.2).accounts.lookup addr = some acc' := hacc'
    obtain ⟨rfl, rfl⟩ | ⟨-, hold⟩ := Pool.lookup_setAccount_cases hset
    · obtain hsame | hcleared := acc₀.pruneNonceHoles_cases
      · rw [hsame] at hdue ⊢
        exact rouses_of_asleep hacc hdue rfl rfl rfl
      · rw [hcleared] at hdue
        simp [Account.Due] at hdue
    · exact rouses_of_asleep hold hdue rfl rfl rfl
  | resetPromoted _ hacc _ _ hsame _ =>
    obtain ⟨rfl, rfl⟩ | ⟨-, hold⟩ := Pool.lookup_setAccount_cases hacc'
    · obtain ⟨demotions, skips, rfl⟩ := hsame
      exact rouses_of_asleep hacc hdue rfl rfl rfl
    · exact rouses_of_asleep hold hdue rfl rfl rfl
  | @resetEnqueued r addr₀ acc₀ acc₀' hacc hsame =>
    obtain ⟨rfl, rfl⟩ | ⟨-, hold⟩ := Pool.lookup_setAccount_cases hacc'
    · obtain ⟨demotions, skips, rfl⟩ := hsame
      cases hresetting : acc₀.resetting with
      | none =>
        simp only [Account.resetEnqueued, hresetting] at hdue ⊢
        exact rouses_of_asleep hacc hdue rfl rfl rfl
      | some nonce =>
        have hsignal := Account.mem_signal_of_due (hhoused _ acc₀ hacc) hresetting hdue
        refine .inl ⟨.promote addr, ?_, .inl List.mem_cons_self⟩
        exact List.mem_append_right _ (List.mem_map_of_mem hsignal)
    · exact rouses_of_asleep hold hdue rfl rfl rfl
  | @drop tx acc₀ hacc hlock =>
    rw [Pool.drop_accounts c hacc] at hacc'
    obtain ⟨rfl, rfl⟩ | ⟨-, hold⟩ := Pool.lookup_setAccount_cases (p := p) hacc'
    · simp [Account.Due, Account.drop] at hdue
    · exact rouses_of_asleep hold hdue rfl rfl rfl
  -- The other actions change no account, and they wake none.
  | _ => exact rouses_of_asleep hacc' hdue rfl rfl rfl

omit [ContainerHeap] [Keccak] in
theorem System.Awake.of_due {s s' : System} (h : s.Awake) (hpending : s.pending ⊆ s'.pending)
    (hdue : ∀ addr acc', s'.pool.accounts.lookup addr = some acc' → acc'.Due →
      ∃ acc, s.pool.accounts.lookup addr = some acc ∧ acc.Due ∧ acc.nextNonce = acc'.nextNonce) :
    s'.Awake := by
  intro addr acc' hacc' hdue'
  obtain ⟨acc, hacc, hdue, hnonce⟩ := hdue addr acc' hacc' hdue'
  obtain ⟨a, ha, hwakes⟩ := h addr acc hacc hdue
  exact ⟨a, hpending ha, hnonce ▸ hwakes⟩

theorem System.Awake.step {s : System} (h : s.Awake) (hordered : s.pool.All fun _ acc => acc.Ordered)
    (hhoused : s.pool.All Account.HousedAt) (e : Event) : (s.step c e).Awake := by
  have hsteps := step_cases c s e
  generalize s.step c e = s' at hsteps
  have hsame : ∀ {addr : Address} {acc' : Account}, acc'.Due →
      (∃ acc, s.pool.accounts.lookup addr = some acc ∧ acc.Same acc') →
      ∃ acc, s.pool.accounts.lookup addr = some acc ∧ acc.Due ∧ acc.nextNonce = acc'.nextNonce := by
    rintro addr acc' hdue ⟨acc, hacc, demotions, skips, rfl⟩
    exact ⟨acc, hacc, hdue, rfl⟩
  have hgrown : s'.pool.accounts = s.pool.accounts → s.pending ⊆ s'.pending → s'.Awake := by
    intro hpool hpending
    exact h.of_due hpending fun addr acc' hacc' hdue => ⟨acc', hpool ▸ hacc', hdue, rfl⟩
  cases hsteps with
  | idle _ hpool hpending => exact hgrown hpool.accounts (hpending ▸ List.Subset.refl _)
  | submit _ hpool hpending => exact hgrown (hpool ▸ rfl) (hpending ▸ List.subset_cons_self _ _)
  | prune hpool hpending => exact hgrown (hpool ▸ rfl) (hpending ▸ List.subset_cons_self _ _)
  | processBlocks hpool hpending => exact hgrown (hpool ▸ rfl) (hpending ▸ List.subset_cons_self _ _)
  | act _ hrun hpool hbefore hafter =>
    intro addr acc' hacc' hdue
    rw [hpool] at hacc'
    obtain ⟨b, hb, hwakes⟩ | ⟨acc, hacc, hdue, hnonce, hpassed⟩ := hrun.rouses hordered hhoused hacc' hdue
    · exact ⟨b, hafter.symm.subset (List.mem_append_left _ hb), hwakes⟩
    · obtain ⟨b, hb, hwakes⟩ := h addr acc hacc hdue
      rw [← hnonce]
      rcases List.mem_cons.mp (hbefore.subset hb) with rfl | hother
      · obtain ⟨b', hb', hwakes'⟩ := hpassed hwakes
        exact ⟨b', hafter.symm.subset (List.mem_append_left _ hb'), hwakes'⟩
      · exact ⟨b, hafter.symm.subset (List.mem_append_right _ hother), hwakes⟩
  | @pop tx acc₀ _ hacc _ hpool hpending =>
    refine h.of_due (hpending ▸ List.Subset.refl _) fun addr acc' hacc' hdue => ?_
    rw [hpool, Pool.pop_accounts c hacc] at hacc'
    obtain ⟨rfl, rfl⟩ | ⟨-, hold⟩ := Pool.lookup_setAccount_cases (p := s.pool) hacc'
    · exact ⟨acc₀, hacc, hdue, rfl⟩
    · exact ⟨acc', hold, hdue, rfl⟩
  | @drop _ tx acc₀ _ _ _ hacc _ hpool hpending =>
    refine h.of_due (hpending ▸ List.Subset.refl _) fun addr acc' hacc' hdue => ?_
    obtain ⟨acc, hlookup, hrecount⟩ := hpool.lookup hacc'
    rw [Pool.drop_accounts c hacc] at hlookup
    obtain ⟨rfl, rfl⟩ | ⟨-, hold⟩ := Pool.lookup_setAccount_cases (p := s.pool) hlookup
    · obtain ⟨demotions, skips, rfl⟩ := hrecount
      simp [Account.Due, Account.drop] at hdue
    · exact hsame hdue ⟨acc, hold, hrecount⟩
  | demote _ hpool hpending =>
    refine h.of_due (hpending ▸ List.Subset.refl _) fun addr acc' hacc' hdue => ?_
    exact hsame hdue (hpool.lookup hacc')

def System.PromotionPending (s : System) (addr : Address) : Prop :=
  .promote addr ∈ s.pending ∨
    ∃ tx, tx.sender = addr ∧ (.increase tx ∈ s.pending ∨ .testNonce tx ∈ s.pending)

omit [ContainerHeap] [Keccak] in
theorem Action.Wakes.cases {nextNonce : Nat} (h : a.Wakes addr nextNonce) :
    a = .promote addr ∨ ∃ tx, tx.sender = addr ∧ (a = .increase tx ∨ a = .testNonce tx) := by
  obtain hpromotes | ⟨tx, htx, hsender, -⟩ := h
  · cases a with
    | promote other =>
      rw [promotes, List.mem_singleton] at hpromotes
      exact .inl (hpromotes ▸ rfl)
    | _ => simp [promotes] at hpromotes
  · cases a with
    | increase other =>
      rw [untested, List.mem_singleton] at htx
      exact .inr ⟨other, htx ▸ hsender, .inl rfl⟩
    | testNonce other =>
      rw [untested, List.mem_singleton] at htx
      exact .inr ⟨other, htx ▸ hsender, .inr rfl⟩
    | _ => simp [untested] at htx

theorem promotion_pending (maxSlots : Nat) (store : Store) (sealing : Bool) (events : List Event)
    (hevents : ∀ tx, .addTx tx ∈ events → tx.nonce < 2 ^ 64 - 1) :
    let s := (System.new maxSlots store sealing).run c events
    (∀ addr acc lowest, s.pool.accounts.lookup addr = some acc →
      Queue.peek acc.enqueued = some lowest → lowest.nonce ≤ acc.nextNonce → s.PromotionPending addr) ∧
    (s.Quiet → ∀ addr acc, s.pool.accounts.lookup addr = some acc →
      ∀ tx ∈ acc.enqueued, tx.nonce ≠ acc.nextNonce) := by
  intro s
  have hbounded : ∀ e ∈ events, ∀ _ : System, e.Bounded HasSuccessor := by
    intro e he _
    cases e with
    | addTx tx => exact hevents tx he
    | _ => trivial
  have hkeep : ∀ (s : System) (e : Event), s.Awake ∧ s.Holds HasSuccessor (fun _ acc => acc.Ordered) ∧
        s.Holds (fun _ => True) Account.HousedAt → e.Bounded HasSuccessor →
      (s.step c e).Awake ∧ (s.step c e).Holds HasSuccessor (fun _ acc => acc.Ordered) ∧
        (s.step c e).Holds (fun _ => True) Account.HousedAt := by
    rintro s e ⟨hawake, hordered, hhoused⟩ he
    refine ⟨hawake.step hordered.accounts hhoused.accounts e, hordered.step maintained_ordered he,
      hhoused.step maintained_housedAt ?_⟩
    cases e <;> trivial
  have hnew : (System.new maxSlots store sealing).Awake := by
    intro addr acc hacc
    simp [System.new, Pool.new] at hacc
  obtain ⟨hawake, -, -⟩ := Runs.inv_foldl hkeep
    ⟨hnew, System.holds_new maxSlots store sealing, System.holds_new maxSlots store sealing⟩
    (Runs.along_of_forall_mem hbounded _)
  constructor
  · intro addr acc lowest hacc hpeek hle
    obtain ⟨a, ha, hwakes⟩ := hawake addr acc hacc ⟨lowest, Queue.mem_of_peek hpeek, hle⟩
    obtain rfl | ⟨tx, hsender, rfl | rfl⟩ := hwakes.cases
    · exact .inl ha
    · exact .inr ⟨tx, hsender, .inl ha⟩
    · exact .inr ⟨tx, hsender, .inr ha⟩
  · intro hquiet addr acc hacc tx htx heq
    obtain ⟨a, ha, -⟩ := hawake addr acc hacc ⟨tx, htx, heq.le⟩
    have hnone : a ∈ ([] : List Action) := hquiet ▸ ha
    exact List.not_mem_nil hnone

end Promotions

section Sample

local instance promotionHeap : ContainerHeap := leftmostHeap
local instance promotionKeccak : Keccak := sampleKeccak

def sampleHandling : List Event := .addTx (sampleTx 0 1) :: goOn 7

theorem promotion_pending_sample : let s := (System.new 10 sampleStore true).run sampleConfig sampleHandling
    (s.pool.accounts.lookup sampleSender).map Account.enqueued =
        some [sampleConfig.computeHash (sampleTx 0 1)] ∧ s.PromotionPending sampleSender := by
  have hacc : ((System.new 10 sampleStore true).run sampleConfig sampleHandling).pool.accounts.lookup
      sampleSender = some ⟨[sampleConfig.computeHash (sampleTx 0 1)], [], 0, 0, 0, 4, none⟩ := by
    decide +kernel
  refine ⟨by rw [hacc]; rfl, (promotion_pending 10 sampleStore true sampleHandling ?_).1 sampleSender _
    (sampleConfig.computeHash (sampleTx 0 1)) hacc rfl le_rfl⟩
  intro tx htx
  simp [sampleHandling, goOn] at htx
  rw [htx]
  decide

end Sample

end Nxchain.Txpool
