import Nxchain.Proof.Promotions
import Nxchain.Proof.SlotAccounting
import Nxchain.Txpool.Following

namespace Nxchain.Txpool

section InStep

variable [ContainerHeap]

namespace Account

structure InStep (nonce : Nat) (addr : Address) (acc : Account) : Prop where
  ordered : acc.Ordered
  housed : acc.HousedAt addr
  promoted : Interval acc.promoted nonce acc.nextNonce
  unlocked : acc.resetting = none

variable {nonce : Nat} {addr : Address} {acc acc' : Account}

omit [ContainerHeap] in
theorem InStep.nextNonce_eq (h : acc.InStep nonce addr) (hnil : acc.promoted = []) : acc.nextNonce = nonce := by
  have hinterval := h.promoted
  rw [hnil] at hinterval
  exact hinterval.eq_of_nil.symm

theorem inStep_new (nonce maxEnqueued : Nat) (addr : Address) : (new nonce maxEnqueued).InStep nonce addr :=
  ⟨ordered_new nonce maxEnqueued, maintained_housedAt.new addr nonce maxEnqueued, .nil nonce, rfl⟩

omit [ContainerHeap] in
theorem InStep.same (h : acc.InStep nonce addr) (hsame : acc.Same acc') : acc'.InStep nonce addr := by
  obtain ⟨demotions, skips, rfl⟩ := hsame
  exact ⟨h.ordered.same ⟨demotions, skips, rfl⟩, h.housed, h.promoted, h.unlocked⟩

theorem InStep.enqueue {tx : Transaction} (h : acc.InStep nonce tx.sender) (htx : HasSuccessor tx.nonce)
    (henqueue : acc.enqueue tx = .ok acc') : acc'.InStep nonce tx.sender := by
  have hordered := h.ordered.enqueue htx henqueue
  have hhoused := maintained_housedAt.enqueue h.housed trivial henqueue
  obtain ⟨-, -, rfl⟩ := enqueue_cases henqueue
  exact ⟨hordered, hhoused, h.promoted, h.unlocked⟩

theorem promote_resetting (acc : Account) : acc.promote.2.resetting = acc.resetting := by
  obtain ⟨heq, -⟩ | ⟨first, p, -, -, -, heq⟩ := acc.promote_cases <;> rw [heq]

theorem InStep.promote (h : acc.InStep nonce addr) : acc.promote.2.InStep nonce addr := by
  obtain ⟨hordered, hpromoted, -⟩ := h.ordered.promote_from h.unlocked h.promoted
  exact ⟨hordered, maintained_housedAt.promote h.housed h.unlocked, hpromoted,
    acc.promote_resetting.trans h.unlocked⟩

theorem InStep.pruneNonceHoles (h : acc.InStep nonce addr) : acc.pruneNonceHoles.2.InStep nonce addr := by
  have hordered := h.ordered.pruneNonceHoles
  have hhoused := maintained_housedAt.pruneNonceHoles h.housed
  obtain heq | heq := acc.pruneNonceHoles_cases
  · rw [heq]
    exact h
  · rw [heq] at hordered hhoused ⊢
    exact ⟨hordered, hhoused, h.promoted, h.unlocked⟩

theorem InStep.drop (h : acc.InStep nonce addr) {tx : Transaction} (htx : tx.nonce = nonce) :
    (acc.drop tx).InStep nonce addr :=
  ⟨.drop tx h.unlocked, maintained_housedAt.drop tx h.housed h.unlocked, htx ▸ .nil tx.nonce, h.unlocked⟩

def reset (acc : Account) (nonce : Nat) : Account :=
  (acc.resetPromoted nonce).2.resetEnqueued.2.2.resetDemotions

theorem InStep.reset (h : acc.InStep nonce addr) {nonce' : Nat} (hle : nonce ≤ nonce') :
    (acc.reset nonce').InStep nonce' addr := by
  have hordered := (h.ordered.resetPromoted nonce').resetEnqueued
  have hhoused := maintained_housedAt.resetEnqueued (maintained_housedAt.resetPromoted nonce' h.housed h.unlocked)
  refine InStep.same ⟨hordered, hhoused, ?_, ?_⟩ ⟨0, _, rfl⟩
  · by_cases hnext : nonce' ≤ acc.nextNonce
    · have hprune := h.promoted.prune nonce'
      rw [max_eq_right hle, min_eq_left hnext] at hprune
      simpa only [resetPromoted, resetEnqueued, hnext, if_true] using hprune
    · have hresetting : (acc.resetPromoted nonce').2.resetting = some nonce' := by
        simp only [resetPromoted, hnext, if_false]
      obtain ⟨hnil, -⟩ := (h.ordered.resetPromoted nonce').resetting nonce' hresetting
      simp only [resetEnqueued, hresetting, hnil]
      exact .nil nonce'
  · unfold resetEnqueued
    split
    next hnone => exact hnone
    next => rfl

end Account

namespace Pool

variable {c : Config} {p p' : Pool} {inv inv' : Address → Account → Prop}

omit [ContainerHeap] in
theorem All.update (h : p.All inv) {addr : Address} {acc : Account} (hacc : inv' addr acc)
    (hothers : ∀ other acc, other ≠ addr → inv other acc → inv' other acc) : (p.setAccount addr acc).All inv' := by
  intro other acc' hlookup
  rw [lookup_setAccount] at hlookup
  split_ifs at hlookup with heq
  · rw [heq, ← Option.some.inj hlookup]
    exact hacc
  · exact hothers other acc' heq (h other acc' hlookup)

omit [ContainerHeap] in
theorem All.imp (h : p.All inv) (himp : ∀ addr acc, inv addr acc → inv' addr acc) : p.All inv' :=
  fun addr acc hacc => himp addr acc (h addr acc hacc)

variable {nonces : Address → Nat}

omit [ContainerHeap] in
theorem addTx_ok [Keccak] {store : Store} {tx tx' : Transaction} (h : p.addTx c store tx = .ok (tx', p')) :
    tx'.nonce = tx.nonce ∧ p' = (p.addIndex tx').createAccountOnce c store tx'.sender := by
  obtain ⟨valid, hvalid, h⟩ := Except.bind_eq_ok_iff.mp h
  obtain ⟨signedBy, -, rfl⟩ := Config.validateTx_ok hvalid
  simp only [Except.ite_throw_bind_eq_ok_iff] at h
  obtain ⟨-, -, -, heq⟩ := h
  obtain ⟨rfl, rfl⟩ := Prod.mk.inj (Except.ok.inj heq)
  exact ⟨rfl, rfl⟩

theorem All.addTx [Keccak] {store : Store} (h : p.All fun addr acc => acc.InStep (store.nonce addr) addr)
    {tx tx' : Transaction} (hadd : p.addTx c store tx = .ok (tx', p')) :
    p'.All fun addr acc => acc.InStep (store.nonce addr) addr := by
  obtain ⟨-, rfl⟩ := addTx_ok hadd
  unfold createAccountOnce initOnce
  split
  · exact h.of_accounts rfl
  · exact All.setAccount (h.of_accounts rfl) (Account.inStep_new _ _ _)

variable (h : p.All fun addr acc => acc.InStep (nonces addr) addr)

include h

theorem All.handleEnqueueRequest {tx : Transaction} (htx : HasSuccessor tx.nonce) :
    (p.handleEnqueueRequest c tx).2.All fun addr acc => acc.InStep (nonces addr) addr := by
  unfold Pool.handleEnqueueRequest
  cases hacc : p.accounts.lookup tx.sender with
  | none => exact h
  | some acc =>
    cases henqueue : acc.enqueue tx with
    | error e =>
      simp only [henqueue]
      exact h.of_accounts rfl
    | ok acc' =>
      simp only [henqueue]
      exact (h.setAccount ((h _ _ hacc).enqueue htx henqueue)).of_accounts rfl

theorem All.handlePromoteRequest (addr : Address) :
    (p.handlePromoteRequest c addr).All fun addr acc => acc.InStep (nonces addr) addr := by
  unfold Pool.handlePromoteRequest
  cases hacc : p.accounts.lookup addr with
  | none => exact h
  | some acc => exact (h.setAccount (h _ _ hacc).promote).of_accounts rfl

theorem All.pruneAccount (addr : Address) :
    (p.pruneAccount c addr).All fun addr acc => acc.InStep (nonces addr) addr := by
  unfold Pool.pruneAccount
  cases hacc : p.accounts.lookup addr with
  | none => exact h
  | some acc => exact (h.setAccount (h _ _ hacc).pruneNonceHoles).of_accounts rfl

theorem All.pruneAccountsWithNonceHoles :
    (p.pruneAccountsWithNonceHoles c).All fun addr acc => acc.InStep (nonces addr) addr := by
  unfold Pool.pruneAccountsWithNonceHoles
  induction p.accounts.keys generalizing p with
  | nil => exact h
  | cons addr rest ih => exact ih (h.pruneAccount addr)

end Pool

def Account.DropsAt (nonce : Nat) (acc : Account) : Prop :=
  maxAccountSkips ≤ acc.incrementSkips.skips → ∀ tx ∈ acc.getLowestTx, tx.nonce = nonce

instance decidableDropsAt (nonce : Nat) (acc : Account) : Decidable (acc.DropsAt nonce) :=
  inferInstanceAs (Decidable (maxAccountSkips ≤ acc.incrementSkips.skips →
    ∀ tx ∈ acc.getLowestTx, tx.nonce = nonce))

theorem Account.HousedAt.sender_getLowestTx {addr : Address} {acc : Account} (h : acc.HousedAt addr)
    {tx : Transaction} (htx : acc.getLowestTx = some tx) : tx.sender = addr := by
  unfold Account.getLowestTx at htx
  split at htx
  next first hpeek =>
    obtain rfl := Option.some.inj htx
    exact h first (List.mem_append_left _ (Queue.mem_of_peek hpeek))
  next => exact h tx (List.mem_append_right _ (Queue.mem_of_peek htx))

namespace Pool

variable {c : Config} {p p' : Pool} {latest : Address → Nat} {active : List Address}

def Resetting (latest : Address → Nat) (active : List Address) (remaining : List (Address × Nat))
    (addr : Address) (acc : Account) : Prop :=
  (∃ nonce ≤ latest addr, acc.InStep nonce addr ∧
    (addr ∉ remaining.map Prod.fst → nonce = latest addr)) ∧
  (addr ∉ active → acc.DropsAt (latest addr))

theorem All.resetAccount {r : Resets} {addr : Address} {rest : List (Address × Nat)}
    (h : r.pool.All (Resetting latest active ((addr, latest addr) :: rest))) (hactive : addr ∈ active) :
    (resetAccount r addr (latest addr)).pool.All (Resetting latest active rest) := by
  have hothers : ∀ other acc, other ≠ addr → Resetting latest active ((addr, latest addr) :: rest) other acc →
      Resetting latest active rest other acc := by
    rintro other acc hne ⟨⟨nonce, hle, hstep, hdone⟩, hdrops⟩
    refine ⟨⟨nonce, hle, hstep, fun hrest => hdone ?_⟩, hdrops⟩
    rw [List.map_cons, List.mem_cons, not_or]
    exact ⟨hne, hrest⟩
  unfold Pool.resetAccount
  cases hacc : r.pool.accounts.lookup addr with
  | none =>
    intro other acc hother
    refine hothers other acc (fun heq => ?_) (h other acc hother)
    rw [heq, hacc] at hother
    cases hother
  | some acc =>
    obtain ⟨⟨nonce, hle, hstep, -⟩, -⟩ := h addr acc hacc
    have hreset : Resetting latest active rest addr (acc.reset (latest addr)) :=
      ⟨⟨latest addr, le_rfl, hstep.reset hle, fun _ => rfl⟩, fun hnot => absurd hactive hnot⟩
    exact h.update hreset hothers

theorem All.resetAccounts {stateNonces : List (Address × Nat)}
    (hnonces : ∀ entry ∈ stateNonces, entry.1 ∈ active ∧ entry.2 = latest entry.1)
    (h : p.All (Resetting latest active stateNonces)) :
    (p.resetAccounts c stateNonces).2.All (Resetting latest active []) := by
  have hfold : ∀ (remaining : List (Address × Nat)) (r : Resets),
      (∀ entry ∈ remaining, entry.1 ∈ active ∧ entry.2 = latest entry.1) →
      r.pool.All (Resetting latest active remaining) →
      (remaining.foldl (fun r entry => Pool.resetAccount r entry.1 entry.2) r).pool.All
        (Resetting latest active []) := by
    intro remaining
    induction remaining with
    | nil => exact fun _ _ hr => hr
    | cons entry rest ih =>
      obtain ⟨addr, nonce⟩ := entry
      intro r hentries hr
      rw [List.forall_mem_cons] at hentries
      obtain ⟨⟨hactive, hnonce⟩, hrest⟩ := hentries
      obtain rfl : nonce = latest addr := hnonce
      exact ih _ hrest (hr.resetAccount hactive)
  exact (hfold stateNonces ⟨p, [], [], []⟩ hnonces h).of_accounts rfl

def Skipping (latest : Address → Nat) (active remaining : List Address) (addr : Address)
    (acc : Account) : Prop :=
  acc.InStep (latest addr) addr ∧ (addr ∈ remaining → addr ∉ active → acc.DropsAt (latest addr))

theorem All.updateAccountSkips {addr : Address} {rest : List Address} (hnew : addr ∉ rest)
    (h : p.All (Skipping latest active (addr :: rest))) :
    (p.updateAccountSkips c active addr).All (Skipping latest active rest) := by
  have hothers : ∀ other acc, Skipping latest active (addr :: rest) other acc →
      Skipping latest active rest other acc :=
    fun other acc hother => ⟨hother.1, fun hmem => hother.2 (List.mem_cons_of_mem _ hmem)⟩
  have hset : ∀ acc, acc.InStep (latest addr) addr → (p.setAccount addr acc).All (Skipping latest active rest) :=
    fun acc hstep => h.update ⟨hstep, fun hmem => absurd hmem hnew⟩ fun other acc _ => hothers other acc
  unfold Pool.updateAccountSkips
  cases hacc : p.accounts.lookup addr with
  | none => exact h.imp hothers
  | some acc =>
    obtain ⟨hstep, hdrops⟩ := h addr acc hacc
    have hincrement : acc.incrementSkips.InStep (latest addr) addr := hstep.same ⟨acc.demotions, _, rfl⟩
    by_cases hactive : addr ∈ active
    · simp only [hactive]
      exact hset _ (hstep.same ⟨acc.demotions, 0, rfl⟩)
    · simp only [hactive]
      cases hlowest : acc.getLowestTx with
      | none => exact h.imp hothers
      | some firstTx =>
        by_cases hskips : acc.incrementSkips.skips < maxAccountSkips
        · simp only [hskips]
          exact hset _ hincrement
        · simp only [hskips]
          have hnonce := hdrops List.mem_cons_self hactive (not_lt.mp hskips) firstTx hlowest
          have hsender := hstep.housed.sender_getLowestTx hlowest
          subst hsender
          have hvisited : (p.setAccount firstTx.sender acc.incrementSkips).accounts.lookup
              firstTx.sender = some acc.incrementSkips := by
            rw [lookup_setAccount, if_pos rfl]
          have hdropped : (((p.setAccount firstTx.sender acc.incrementSkips).drop c
              firstTx)).accounts.lookup firstTx.sender = some (acc.incrementSkips.drop firstTx) := by
            rw [drop_accounts c hvisited, AList.lookup_insert]
          have hlast : (acc.incrementSkips.drop firstTx).resetSkips.InStep (latest firstTx.sender) firstTx.sender :=
            (hincrement.drop hnonce).same ⟨_, 0, rfl⟩
          simp only [modifyAccount, hdropped]
          refine All.update (((hset _ hincrement).setAccount
            ⟨hincrement.drop hnonce, fun hmem => absurd hmem hnew⟩).of_accounts
            (drop_accounts c hvisited)) ⟨hlast, fun hmem => absurd hmem hnew⟩ fun _ _ _ => id

theorem All.updateAccountSkipsCounts
    (h : p.All fun addr acc => acc.InStep (latest addr) addr ∧ (addr ∉ active → acc.DropsAt (latest addr))) :
    (p.updateAccountSkipsCounts c active).All fun addr acc => acc.InStep (latest addr) addr := by
  have hfold : ∀ (remaining : List Address) (p : Pool), remaining.Nodup → p.All (Skipping latest active remaining) →
      (remaining.foldl (fun p addr => p.updateAccountSkips c active addr) p).All (Skipping latest active []) := by
    intro remaining
    induction remaining with
    | nil => exact fun _ _ hp => hp
    | cons addr rest ih =>
      intro p hnodup hp
      obtain ⟨hnew, hrest⟩ := List.nodup_cons.mp hnodup
      exact ih _ hrest (hp.updateAccountSkips hnew)
  have hstart : p.All (Skipping latest active p.accounts.keys) :=
    h.imp fun addr acc hacc => ⟨hacc.1, fun _ => hacc.2⟩
  exact (hfold p.accounts.keys p p.accounts.keys_nodup hstart).imp fun addr acc hacc => hacc.1

end Pool

def Config.activeAccounts (c : Config) (latest : Address → Nat) (blocks : List (List Transaction)) :
    List Address :=
  (blocks.foldl (c.addStateNonces latest) []).map Prod.fst

omit [ContainerHeap] in
theorem Config.addStateNonces_latest (c : Config) {latest : Address → Nat} {stateNonces : List (Address × Nat)}
    (txs : List Transaction) (h : ∀ entry ∈ stateNonces, entry.2 = latest entry.1) :
    ∀ entry ∈ c.addStateNonces latest stateNonces txs, entry.2 = latest entry.1 := by
  induction txs generalizing stateNonces with
  | nil => exact h
  | cons tx txs ih =>
    refine ih ?_
    dsimp only
    split
    · exact h
    · split_ifs
      · exact h
      · rw [List.forall_mem_append, List.forall_mem_singleton]
        exact ⟨h, rfl⟩

omit [ContainerHeap] in
theorem Config.stateNonces_latest (c : Config) (latest : Address → Nat) (blocks : List (List Transaction)) :
    ∀ entry ∈ blocks.foldl (c.addStateNonces latest) [], entry.2 = latest entry.1 := by
  have hfold : ∀ (blocks : List (List Transaction)) (stateNonces : List (Address × Nat)),
      (∀ entry ∈ stateNonces, entry.2 = latest entry.1) →
      ∀ entry ∈ blocks.foldl (c.addStateNonces latest) stateNonces, entry.2 = latest entry.1 := by
    intro blocks
    induction blocks with
    | nil => exact fun _ h => h
    | cons txs blocks ih => exact fun _ h => ih _ (c.addStateNonces_latest txs h)
  exact hfold blocks [] nofun

omit [ContainerHeap] in
theorem Pool.foldl_removeIndex_accounts (p : Pool) (blocks : List (List Transaction)) :
    (blocks.foldl removeIndex p).accounts = p.accounts := by
  induction blocks generalizing p with
  | nil => rfl
  | cons txs blocks ih => exact ih (p.removeIndex txs)

theorem Pool.All.processEvent {c : Config} {p : Pool} {nonces latest : Address → Nat}
    {blocks : List (List Transaction)}
    (h : p.All fun addr acc => acc.InStep (nonces addr) addr)
    (hnonces : p.All fun addr _ => nonces addr ≤ latest addr ∧
      (addr ∉ c.activeAccounts latest blocks → latest addr = nonces addr))
    (hdrops : p.All fun addr acc =>
      addr ∉ c.activeAccounts latest blocks → acc.DropsAt (nonces addr)) :
    (p.processEvent c false latest blocks).2.All fun addr acc => acc.InStep (latest addr) addr := by
  have hstart : (blocks.foldl removeIndex p).All (Resetting latest (c.activeAccounts latest blocks)
      (blocks.foldl (c.addStateNonces latest) [])) := by
    intro addr acc hacc
    rw [p.foldl_removeIndex_accounts] at hacc
    obtain ⟨hle, hidle⟩ := hnonces addr acc hacc
    refine ⟨⟨nonces addr, hle, h addr acc hacc, fun hnot => (hidle hnot).symm⟩, fun hnot => ?_⟩
    rw [hidle hnot]
    exact hdrops addr acc hacc hnot
  have hreset := hstart.resetAccounts (c := c) fun entry hentry =>
    ⟨List.mem_map_of_mem hentry, c.stateNonces_latest latest blocks entry hentry⟩
  have hready := hreset.imp fun addr acc hacc => by
    obtain ⟨⟨nonce, -, hstep, hdone⟩, hdrops⟩ := hacc
    have hin : acc.InStep (latest addr) addr := hdone List.not_mem_nil ▸ hstep
    exact And.intro hin hdrops
  exact hready.updateAccountSkipsCounts

namespace Follower

variable [Keccak] {c : Config}

def Advances (c : Config) (f : Follower) : FollowerEvent → Prop
  | .insertBlocks blocks store => ∀ entry ∈ f.pool.accounts.entries,
      f.store.nonce entry.1 ≤ store.nonce entry.1 ∧
        (entry.1 ∉ c.activeAccounts store.nonce blocks →
          store.nonce entry.1 = f.store.nonce entry.1)
  | _ => True

def DropsInStep (c : Config) (f : Follower) : FollowerEvent → Prop
  | .addTx tx => HasSuccessor tx.nonce
  | .insertBlocks blocks store => ∀ entry ∈ f.pool.accounts.entries,
      entry.1 ∉ c.activeAccounts store.nonce blocks → entry.2.DropsAt (f.store.nonce entry.1)
  | _ => True

instance (f : Follower) : DecidablePred (f.Advances c) := fun e =>
  match e with
  | .insertBlocks blocks store => inferInstanceAs (Decidable (∀ entry ∈ f.pool.accounts.entries,
      f.store.nonce entry.1 ≤ store.nonce entry.1 ∧
        (entry.1 ∉ c.activeAccounts store.nonce blocks →
          store.nonce entry.1 = f.store.nonce entry.1)))
  | .addTx _ | .enqueue _ | .promote _ | .pruneAccounts => .isTrue trivial

instance (f : Follower) : DecidablePred (f.DropsInStep c) := fun e =>
  match e with
  | .addTx tx => inferInstanceAs (Decidable (HasSuccessor tx.nonce))
  | .insertBlocks blocks store => inferInstanceAs (Decidable (∀ entry ∈ f.pool.accounts.entries,
      entry.1 ∉ c.activeAccounts store.nonce blocks → entry.2.DropsAt (f.store.nonce entry.1)))
  | .enqueue _ | .promote _ | .pruneAccounts => .isTrue trivial

structure InStep (f : Follower) : Prop where
  accounts : f.pool.All fun addr acc => acc.InStep (f.store.nonce addr) addr
  requests : ∀ tx ∈ f.enqueueRequests, HasSuccessor tx.nonce

theorem InStep.step {f : Follower} (h : f.InStep) {e : FollowerEvent} (hadvances : f.Advances c e)
    (hdrops : f.DropsInStep c e) : (f.step c e).InStep := by
  cases e with
  | addTx tx =>
    rw [Follower.step]
    split
    · exact h
    next tx' pool hadd =>
      refine ⟨h.accounts.addTx hadd, ?_⟩
      rw [List.forall_mem_append, List.forall_mem_singleton, (Pool.addTx_ok hadd).1]
      exact ⟨h.requests, hdrops⟩
  | enqueue pick =>
    rw [Follower.step]
    split
    · exact h
    next tx hpick =>
      have htx := h.requests tx (List.mem_of_getElem? hpick)
      exact ⟨h.accounts.handleEnqueueRequest htx,
        fun other hother => h.requests other (List.eraseIdx_subset hother)⟩
  | promote pick =>
    rw [Follower.step]
    split
    · exact h
    next addr hpick => exact ⟨h.accounts.handlePromoteRequest addr, h.requests⟩
  | insertBlocks blocks store =>
    refine ⟨h.accounts.processEvent (fun addr acc hacc => ?_) fun addr acc hacc => ?_, h.requests⟩
    · exact hadvances ⟨addr, acc⟩ (AList.mem_lookup_iff.mp hacc)
    · exact hdrops ⟨addr, acc⟩ (AList.mem_lookup_iff.mp hacc)
  | pruneAccounts => exact ⟨h.accounts.pruneAccountsWithNonceHoles, h.requests⟩

end Follower

theorem sender_not_locked_out [Keccak] (c : Config) (maxSlots : Nat) (store : Store) (events : List FollowerEvent)
    (hchain : Runs.Along (Follower.step c) (Follower.Advances c) (.new maxSlots store) events)
    (hdrops : Runs.Along (Follower.step c) (Follower.DropsInStep c) (.new maxSlots store) events) :
    let f := (Follower.new maxSlots store).run c events
    ∀ addr acc, f.pool.accounts.lookup addr = some acc → acc.promoted = [] →
      acc.nextNonce = f.store.nonce addr ∧
        ∀ tx, tx.nonce = f.store.nonce addr → acc.enqueue tx ≠ .error .nonceTooLow := by
  intro f addr acc hacc hnil
  have hnew : (Follower.new maxSlots store).InStep :=
    ⟨fun addr acc hacc => by simp [Follower.new, Pool.new] at hacc, nofun⟩
  have hf : f.InStep := Runs.inv_foldl (fun f e h he => h.step he.1 he.2) hnew (Runs.along_and.mpr ⟨hchain, hdrops⟩)
  have hnext := (hf.accounts addr acc hacc).nextNonce_eq hnil
  refine ⟨hnext, fun tx htx henqueue => ?_⟩
  unfold Account.enqueue at henqueue
  split_ifs at henqueue with hlength hlow
  · cases henqueue
  · rw [hnext, htx] at hlow
    exact lt_irrefl _ hlow

end InStep

section Sample

local instance lockoutHeap : ContainerHeap := leftmostHeap
local instance lockoutKeccak : Keccak := sampleKeccak

def skippedBlocks (n : Nat) : List FollowerEvent :=
  List.replicate n (.insertBlocks [[]] sampleStore)

def sampleSkips : List FollowerEvent :=
  [.addTx (sampleTx 0 1), .enqueue 0, .promote 0] ++ skippedBlocks 10

theorem sender_not_locked_out_sample : let f := (Follower.new 10 sampleStore).run sampleConfig sampleSkips
    f.pool.accounts.lookup sampleSender = some ⟨[], [], 0, 0, 0, 4, none⟩ ∧
      (⟨[], [], 0, 0, 0, 4, none⟩ : Account).nextNonce = f.store.nonce sampleSender := by
  have hacc : ((Follower.new 10 sampleStore).run sampleConfig sampleSkips).pool.accounts.lookup
      sampleSender = some ⟨[], [], 0, 0, 0, 4, none⟩ := by decide +kernel
  exact ⟨hacc, (sender_not_locked_out sampleConfig 10 sampleStore sampleSkips (by decide +kernel)
    (by decide +kernel) sampleSender _ hacc rfl).1⟩

def sampleWait : List FollowerEvent := [.addTx (sampleTx 5 1), .enqueue 0] ++ skippedBlocks 10

theorem sender_locked_out : let f := (Follower.new 10 sampleStore).run sampleConfig sampleWait
    f.Quiet ∧ Runs.Along (Follower.step sampleConfig) (Follower.Advances sampleConfig)
        (.new 10 sampleStore) sampleWait ∧
      f.store.nonce sampleSender = 0 ∧
      f.pool.accounts.lookup sampleSender = some ⟨[], [], 5, 0, 0, 4, none⟩ ∧
      (⟨[], [], 5, 0, 0, 4, none⟩ : Account).enqueue (sampleTx 0 1) = .error .nonceTooLow := by
  refine ⟨?_, ?_, ?_, ?_, ?_⟩
  all_goals decide +kernel

end Sample

end Nxchain.Txpool
