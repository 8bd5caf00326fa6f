import Nxchain.Lib.Ledger
import Nxchain.Proof.Overlay
import Nxchain.Proof.PoolSteps

namespace Nxchain.Txpool

namespace Pool

variable {p : Pool} {addr : Address} {acc : Account}

def queued (p : Pool) : List Transaction := p.accounts.entries.flatMap fun entry => entry.2.queued

theorem entries_perm (hacc : p.accounts.lookup addr = some acc) :
    p.accounts.entries.Perm (⟨addr, acc⟩ :: p.accounts.entries.kerase addr) := by
  have hmem : (⟨addr, acc⟩ : Sigma fun _ : Address => Account) ∈ p.accounts.entries := AList.mem_lookup_iff.mp hacc
  obtain ⟨acc', before, after, -, hentries, herase⟩ := List.exists_of_kerase (List.mem_keys_of_mem hmem)
  have hmem' : (⟨addr, acc'⟩ : Sigma fun _ : Address => Account) ∈ p.accounts.entries := by
    rw [hentries]
    exact List.mem_append_right _ List.mem_cons_self
  have heq : acc' = acc := Option.some.inj ((AList.mem_lookup_iff.mpr hmem').symm.trans hacc)
  rw [herase, hentries, heq]
  exact List.perm_middle

theorem queued_setAccount (hacc : p.accounts.lookup addr = some acc) :
    ∃ others : Multiset Transaction, (p.queued : Multiset Transaction) = acc.queued + others ∧
      ∀ acc', ((p.setAccount addr acc').queued : Multiset Transaction) = acc'.queued + others := by
  refine ⟨(p.accounts.entries.kerase addr).flatMap fun entry => entry.2.queued, ?_, ?_⟩
  · rw [Multiset.coe_add, Multiset.coe_eq_coe]
    exact (entries_perm hacc).flatMap_right _
  · intro acc'
    rw [Multiset.coe_add, queued, setAccount, AList.entries_insert, List.flatMap_cons]

theorem queued_setAccount_new (hacc : p.accounts.lookup addr = none) (nonce maxEnqueued : Nat) :
    (p.setAccount addr (.new nonce maxEnqueued)).queued = p.queued := by
  rw [queued, setAccount, AList.entries_insert_of_notMem (AList.lookup_eq_none.mp hacc)]
  rfl

theorem queued_setAccount_same {acc' : Account} (hacc : p.accounts.lookup addr = some acc) (hsame : acc.Same acc') :
    ((p.setAccount addr acc').queued : Multiset Transaction) = p.queued := by
  obtain ⟨others, hbefore, hafter⟩ := queued_setAccount hacc
  obtain ⟨demotions, skips, rfl⟩ := hsame
  rw [hafter, hbefore]
  rfl

end Pool

namespace Config

variable (c : Config)

def slots (tx : Transaction) : Nat := (c.size tx + txSlotSize - 1) % 2 ^ 64 / txSlotSize

theorem slotsRequired_eq (txs : List Transaction) : c.slotsRequired txs = (txs.map c.slots).sum % 2 ^ 64 := by
  have hfold : ∀ start, txs.foldl (fun slots tx => (slots + c.slots tx) % 2 ^ 64) (start % 2 ^ 64) =
      (start + (txs.map c.slots).sum) % 2 ^ 64 := by
    induction txs with
    | nil => simp
    | cons tx txs ih =>
      intro start
      rw [List.foldl_cons, Nat.mod_add_mod, ih, List.map_cons, List.sum_cons, Nat.add_assoc]
  have hzero := hfold 0
  rwa [Nat.zero_mod, Nat.zero_add] at hzero

theorem slotsRequired_singleton (tx : Transaction) : c.slotsRequired [tx] = c.slots tx := by
  have hlt : c.slots tx < 2 ^ 64 := (Nat.div_le_self _ _).trans_lt (Nat.mod_lt _ (by norm_num))
  rw [slotsRequired_eq, List.map_singleton, List.sum_singleton, Nat.mod_eq_of_lt hlt]

def weight (tx : Transaction) : ZMod (2 ^ 64) := (c.slots tx : ZMod (2 ^ 64))

theorem cast_slotsRequired (txs : List Transaction) :
    (c.slotsRequired txs : ZMod (2 ^ 64)) = ((txs : Multiset Transaction).map c.weight).sum := by
  rw [slotsRequired_eq, ZMod.natCast_mod, Multiset.map_coe]
  induction txs with
  | nil => simp
  | cons tx txs ih => simp [ih, weight]

end Config

namespace SlotGauge

theorem height_increase_lt (g : SlotGauge) (n : Nat) : (g.increase n).height < 2 ^ 64 :=
  Nat.mod_lt _ (by norm_num)

theorem height_decrease_lt (g : SlotGauge) (n : Nat) : (g.decrease n).height < 2 ^ 64 :=
  Nat.mod_lt _ (by norm_num)

theorem cast_increase (g : SlotGauge) (n : Nat) : ((g.increase n).height : ZMod (2 ^ 64)) = g.height + n := by
  rw [increase, ZMod.natCast_mod, Nat.cast_add]

theorem cast_decrease (g : SlotGauge) {n : Nat} (hn : n ≤ 2 ^ 64) :
    ((g.decrease n).height : ZMod (2 ^ 64)) = g.height - n := by
  rw [decrease, ZMod.natCast_mod, Nat.cast_add, Nat.cast_sub hn, ZMod.natCast_self, zero_sub, sub_eq_add_neg]

end SlotGauge

namespace Pool

theorem queued_increase (c : Config) (p : Pool) (txs : List Transaction) :
    (p.increase c txs).queued = p.queued := rfl

theorem queued_decrease (c : Config) (p : Pool) (txs : List Transaction) :
    (p.decrease c txs).queued = p.queued := rfl

theorem cast_increase (c : Config) (p : Pool) (txs : List Transaction) :
    ((p.increase c txs).gauge.height : ZMod (2 ^ 64)) =
      p.gauge.height + ((txs : Multiset Transaction).map c.weight).sum := by
  rw [increase, SlotGauge.cast_increase, c.cast_slotsRequired]

theorem cast_decrease (c : Config) (p : Pool) (txs : List Transaction) :
    ((p.decrease c txs).gauge.height : ZMod (2 ^ 64)) =
      p.gauge.height - ((txs : Multiset Transaction).map c.weight).sum := by
  have hle : c.slotsRequired txs ≤ 2 ^ 64 := by
    rw [c.slotsRequired_eq]
    exact (Nat.mod_lt _ (by norm_num)).le
  rw [decrease, SlotGauge.cast_decrease _ hle, c.cast_slotsRequired]

end Pool

def ledger (p : Pool) (pending : List Action) : Ledger.State Transaction (ZMod (2 ^ 64)) where
  incoming := pending.flatMap Action.incoming
  held := p.queued
  uncounted := pending.flatMap Action.uncounted
  owed := pending.flatMap Action.owed
  level := p.gauge.height

theorem ledger_perm (p : Pool) {pending pending' : List Action} (h : pending.Perm pending') :
    ledger p pending = ledger p pending' := by
  simp only [ledger, Ledger.State.mk.injEq, Multiset.coe_eq_coe, true_and, and_true]
  exact ⟨h.flatMap_right _, h.flatMap_right _, h.flatMap_right _⟩

theorem ledger_append_promotions (p : Pool) (next others : List Action) (promotions : List Address) :
    ledger p (next ++ promotions.map .promote ++ others) = ledger p (next ++ others) := by
  have hnone : ∀ f : Action → List Transaction, (∀ addr, f (.promote addr) = []) →
      (promotions.map Action.promote).flatMap f = [] := by
    intro f hf
    rw [List.flatMap_eq_nil_iff]
    intro a ha
    obtain ⟨addr, -, rfl⟩ := List.mem_map.mp ha
    exact hf addr
  simp only [ledger, List.flatMap_append, hnone Action.incoming fun _ => rfl,
    hnone Action.uncounted fun _ => rfl, hnone Action.owed fun _ => rfl, List.append_nil]

theorem ledger_passes (p : Pool) {a : Action} {next : List Action} (h : a.Passes next) (others : List Action) :
    ledger p (next ++ others) = ledger p (a :: others) := by
  have hincoming : next.flatMap Action.incoming = a.incoming := h.1 .incoming
  have huncounted : next.flatMap Action.uncounted = a.uncounted := h.1 .uncounted
  have howed : next.flatMap Action.owed = a.owed := h.1 .owed
  simp only [ledger, List.flatMap_append, List.flatMap_cons, hincoming, huncounted, howed]

theorem ledger_queued {p p' : Pool} (hqueued : (p'.queued : Multiset Transaction) = p.queued)
    (hgauge : p'.gauge = p.gauge) (pending : List Action) : ledger p' pending = ledger p pending := by
  simp only [ledger, hqueued, hgauge]

section Ledger

variable {weight : Transaction → ZMod (2 ^ 64)} {admits : Transaction → Prop} {p p' : Pool}

theorem move_arrive {tx : Transaction} (hqueued : (p'.queued : Multiset Transaction) = tx ::ₘ p.queued)
    (hgauge : p'.gauge = p.gauge) (others : List Action) :
    Ledger.Move weight admits (ledger p (.enqueue tx :: others)) 0 0
      (ledger p' (.increase tx :: others)) := by
  have hafter : ledger p' (.increase tx :: others) = { ledger p others with
        held := tx ::ₘ (ledger p others).held
        uncounted := tx ::ₘ (ledger p others).uncounted } := by
    simp only [ledger, hqueued, hgauge]
    rfl
  rw [hafter]
  exact .arrive (ledger p others) tx

theorem move_count {tx : Transaction} (hqueued : p'.queued = p.queued)
    (hlevel : (p'.gauge.height : ZMod (2 ^ 64)) = (p.gauge.height : ZMod (2 ^ 64)) + weight tx)
    (others : List Action) :
    Ledger.Move weight admits (ledger p (.increase tx :: others)) 0 0
      (ledger p' (.testNonce tx :: others)) := by
  have hafter : ledger p' (.testNonce tx :: others) =
      { ledger p others with level := (ledger p others).level + weight tx } := by
    simp only [ledger, hqueued, hlevel]
    rfl
  rw [hafter]
  exact .count (ledger p others) tx

theorem move_settle {txs : List Transaction} (hqueued : p'.queued = p.queued)
    (hlevel : (p'.gauge.height : ZMod (2 ^ 64)) =
      (p.gauge.height : ZMod (2 ^ 64)) - ((txs : Multiset Transaction).map weight).sum)
    (others : List Action) :
    Ledger.Move weight admits (ledger p (.decrease txs :: others)) 0 txs (ledger p' others) := by
  have hafter : ledger p' others = { ledger p others with
        level := (ledger p others).level - ((txs : Multiset Transaction).map weight).sum } := by
    simp only [ledger, hqueued, hlevel]
  rw [hafter]
  exact .settle (ledger p others) txs

theorem move_leave {a : Action} {next : List Action} {pruned : List Transaction}
    (hqueued : (p.queued : Multiset Transaction) = pruned + p'.queued) (hgauge : p'.gauge = p.gauge)
    (hincoming : next.flatMap Action.incoming = a.incoming)
    (huncounted : next.flatMap Action.uncounted = a.uncounted)
    (howed : (next.flatMap Action.owed : Multiset Transaction) = pruned + a.owed) (others : List Action) :
    Ledger.Move weight admits (ledger p (a :: others)) pruned 0 (ledger p' (next ++ others)) := by
  have hbefore : ledger p (a :: others) =
      { ledger p' (a :: others) with held := pruned + (ledger p' (a :: others)).held } := by
    simp only [ledger, hqueued, hgauge]
  have hafter : ledger p' (next ++ others) =
      { ledger p' (a :: others) with owed := pruned + (ledger p' (a :: others)).owed } := by
    simp only [ledger, List.flatMap_append, List.flatMap_cons, hincoming, huncounted,
      ← Multiset.coe_add, howed, add_assoc]
  rw [hbefore, hafter]
  exact .leave (ledger p' (a :: others)) pruned

theorem move_expel {removed : List Transaction}
    (hqueued : (p.queued : Multiset Transaction) = removed + p'.queued)
    (hlevel : (p'.gauge.height : ZMod (2 ^ 64)) =
      (p.gauge.height : ZMod (2 ^ 64)) - ((removed : Multiset Transaction).map weight).sum)
    (pending : List Action) :
    Ledger.Move weight admits (ledger p pending) removed removed (ledger p' pending) := by
  have hbefore : ledger p pending = { ledger p' pending with
        held := removed + (ledger p' pending).held
        level := (p.gauge.height : ZMod (2 ^ 64)) } := by
    simp only [ledger, hqueued]
  have hafter : ledger p' pending = { ledger p' pending with
        level := (p.gauge.height : ZMod (2 ^ 64)) -
          ((removed : Multiset Transaction).map weight).sum } := by
    simp only [ledger, hlevel]
  rw [hbefore, hafter]
  exact .expel { ledger p' pending with level := (p.gauge.height : ZMod (2 ^ 64)) } removed

end Ledger

namespace Pool

variable {p : Pool} {acc : Account} {tx : Transaction}

theorem queued_eq_add {addr : Address} {acc' : Account} {removed : List Transaction}
    (hacc : p.accounts.lookup addr = some acc) (hperm : (acc'.queued ++ removed).Perm acc.queued) :
    (p.queued : Multiset Transaction) = removed + (p.setAccount addr acc').queued := by
  obtain ⟨others, hbefore, hafter⟩ := queued_setAccount hacc
  rw [hbefore, hafter, ← Multiset.coe_eq_coe.mpr hperm, ← Multiset.coe_add, add_assoc, add_left_comm]

theorem queued_enqueue {acc' : Account} (hacc : p.accounts.lookup tx.sender = some acc)
    (henqueue : acc.enqueue tx = .ok acc') :
    ((p.setAccount tx.sender acc').queued : Multiset Transaction) = tx ::ₘ p.queued := by
  obtain ⟨others, hbefore, hafter⟩ := queued_setAccount hacc
  rw [hafter, hbefore, Multiset.coe_eq_coe.mpr (Account.queued_enqueue henqueue), ← Multiset.cons_coe,
    Multiset.cons_add]

theorem queued_drop (c : Config) (hacc : p.accounts.lookup tx.sender = some acc) :
    (p.queued : Multiset Transaction) = acc.queued + (p.drop c tx).queued := by
  have hdrop : (p.drop c tx).queued = (p.setAccount tx.sender (acc.drop tx)).queued := by
    rw [queued, drop_accounts c hacc, queued, setAccount]
  rw [hdrop]
  exact queued_eq_add hacc (.refl _)

theorem queued_pop [ContainerHeap] (p : Pool) (c : Config) (hacc : p.accounts.lookup tx.sender = some acc)
    (hpeek : Queue.peek acc.promoted = some tx) :
    (p.queued : Multiset Transaction) = [tx] + (p.pop c tx).queued := by
  have hperm : (acc.pop.queued ++ [tx]).Perm acc.queued :=
    (List.perm_append_singleton _ _).trans (Account.queued_pop hpeek)
  rw [queued_eq_add hacc hperm, queued, queued, pop_accounts c hacc, setAccount]

theorem cast_drop (c : Config) (hacc : p.accounts.lookup tx.sender = some acc) :
    ((p.drop c tx).gauge.height : ZMod (2 ^ 64)) =
      p.gauge.height - ((acc.queued : Multiset Transaction).map c.weight).sum := by
  simp only [drop, hacc]
  rw [cast_decrease, show (removeIndex _ _).gauge = (decrease _ _ _).gauge from rfl, cast_decrease,
    Account.queued, ← Multiset.coe_add, Multiset.map_add, Multiset.sum_add, sub_sub]
  rfl

end Pool

section Moves

variable [ContainerHeap] [Keccak] {c : Config}

variable {p p' : Pool} {maxSlots : Nat}

def Admits (c : Config) (p : Pool) (a : Action) (tx : Transaction) : Prop :=
  ∃ tx', a = .checkOverflow tx' ∧ p.overflows c tx' = false ∧ tx = c.computeHash tx'

def Action.leaving (p : Pool) (pick : Nat) : Action → List Transaction
  | promote addr =>
    match p.accounts.lookup addr with
    | none => []
    | some acc => if acc.resetting.isSome then [] else acc.promote.1.2
  | reset r =>
    match r.remaining[pick]? with
    | none => []
    | some (addr, nonce) =>
      match p.accounts.lookup addr with
      | none => []
      | some acc => if acc.resetting.isSome then [] else (acc.resetPromoted nonce).1
  | resetEnqueued addr _ =>
    match p.accounts.lookup addr with
    | none => []
    | some acc => acc.resetEnqueued.1
  | decrease _ => []
  -- these release the slots in the same step
  | a => a.releases p pick

theorem Action.Runs.move {pick : Nat} {a : Action} {next : List Action} {promotions : List Address}
    (hrun : a.Runs c p pick p' next promotions) (others : List Action) :
    ∃ left : Multiset Transaction, (∀ tx ∈ left, tx ∈ a.leaving p pick) ∧
      Ledger.Move c.weight (Admits c p a) (ledger p (a :: others)) left (a.releases p pick)
        (ledger p' (next ++ promotions.map .promote ++ others)) := by
  have hnone : ∀ tx ∈ (0 : Multiset Transaction), tx ∈ a.leaving p pick := by simp
  rw [ledger_append_promotions]
  cases hrun with
  | skip hnext hreleases =>
    rw [ledger_passes p hnext, hreleases]
    exact ⟨0, hnone, .idle _⟩
  | recount hnext hreleases hacc hsame =>
    rw [ledger_passes _ hnext, hreleases, ledger_queued (Pool.queued_setAccount_same hacc hsame) rfl]
    exact ⟨0, hnone, .idle _⟩
  | @reject a tx ha =>
    obtain rfl | rfl | rfl := ha
    · exact ⟨0, hnone, .idle _⟩
    · exact ⟨0, hnone, .idle _⟩
    · exact ⟨0, hnone, .abandon (ledger p others) tx⟩
  | accept hfits => exact ⟨0, hnone, .accept (ledger p others) _ ⟨_, rfl, hfits, rfl⟩⟩
  | create hnew =>
    refine ⟨0, hnone, ?_⟩
    rw [ledger_queued (congrArg _ (Pool.queued_setAccount_new hnew _ _)) rfl]
    exact .idle _
  | refuse hacc henqueue => exact ⟨0, hnone, .abandon (ledger p others) _⟩
  | enqueue hacc henqueue => exact ⟨0, hnone, move_arrive (Pool.queued_enqueue hacc henqueue) rfl others⟩
  | @increase tx =>
    have hlevel := p.cast_increase c [tx]
    rw [Multiset.coe_singleton, Multiset.map_singleton, Multiset.sum_singleton] at hlevel
    exact ⟨0, hnone, move_count (p.queued_increase c [tx]) hlevel others⟩
  | @promote addr acc hacc hlock =>
    have hqueued := Pool.queued_eq_add hacc acc.queued_promote
    refine ⟨_, fun tx htx => ?_, move_leave hqueued rfl rfl rfl ?_ others⟩
    · simpa [leaving, hacc, hlock] using htx
    · simp [owed]
  | @decrease txs =>
    exact ⟨0, hnone, move_settle (p.queued_decrease c txs) (p.cast_decrease c txs) others⟩
  | @prune addr acc remaining rest hpick hacc =>
    have hreleases : (Action.prune remaining).releases p pick = acc.pruneNonceHoles.1 := by
      simp [releases, hpick, hacc]
    have hqueued : (p.queued : Multiset Transaction) = acc.pruneNonceHoles.1 +
        (((p.setAccount addr acc.pruneNonceHoles.2).removeIndex acc.pruneNonceHoles.1).decrease c
          acc.pruneNonceHoles.1).queued := Pool.queued_eq_add hacc acc.queued_pruneNonceHoles
    have hleaving : (Action.prune remaining).leaving p pick = acc.pruneNonceHoles.1 := hreleases
    rw [hreleases, hleaving]
    exact ⟨_, fun tx htx => htx, move_expel hqueued (Pool.cast_decrease c _ _) (Action.prune remaining :: others)⟩
  | @resetPromoted r addr nonce acc acc' next remaining hacc hlock hpick hsame hnext =>
    have hqueued := Pool.queued_eq_add hacc (acc.queued_resetPromoted nonce)
    obtain ⟨demotions, skips, rfl⟩ := hsame
    have hincoming : next.flatMap Action.incoming = (Action.reset r).incoming := hnext.1 .incoming
    have huncounted : next.flatMap Action.uncounted = (Action.reset r).uncounted := hnext.1 .uncounted
    have howed : next.flatMap Action.owed =
        r.prunedPromoted ++ (acc.resetPromoted nonce).1 ++ r.prunedEnqueued := hnext.1 .owed
    refine ⟨_, fun tx htx => ?_, move_leave hqueued rfl hincoming huncounted ?_ others⟩
    · simpa [leaving, hpick, hacc, hlock] using htx
    · rw [howed, owed]
      simp only [← Multiset.coe_add]
      abel
  | @resetEnqueued r addr acc acc' hacc hsame =>
    have hqueued := Pool.queued_eq_add hacc acc.queued_resetEnqueued
    obtain ⟨demotions, skips, rfl⟩ := hsame
    refine ⟨_, fun tx htx => ?_, move_leave hqueued rfl rfl rfl ?_ others⟩
    · simpa [leaving, hacc] using htx
    · simp only [List.flatMap_singleton, owed, ← Multiset.coe_add]
      abel
  | @drop tx acc hacc hlock =>
    have hreleases : (Action.drop tx).releases p pick = acc.queued := by
      simp [releases, hacc, hlock]
    have hleaving : (Action.drop tx).leaving p pick = acc.queued := hreleases
    rw [hreleases, hleaving]
    exact ⟨_, fun tx htx => htx, move_expel (Pool.queued_drop c hacc) (Pool.cast_drop c hacc) (Action.drop tx :: others)⟩
  -- The other actions change neither the queues nor the gauge.
  | _ => exact ⟨0, hnone, .idle _⟩

def Event.popped : Event → Option Transaction
  | .pop tx => some tx
  | _ => none

namespace System

def PopsHead (s : System) (e : Event) : Prop :=
  ∀ tx ∈ e.popped, ∀ acc ∈ s.pool.accounts.lookup tx.sender, Queue.peek acc.promoted = some tx

instance (s : System) (e : Event) : Decidable (s.PopsHead e) :=
  inferInstanceAs (Decidable (∀ tx ∈ e.popped, ∀ acc ∈ s.pool.accounts.lookup tx.sender,
    Queue.peek acc.promoted = some tx))

def testing (s : System) : Event → Option Transaction
  | .run goroutine _ =>
    match s.goroutines[goroutine]? with
    | some (.checkOverflow tx :: _) => some tx
    | _ => none
  | _ => none

def Admits (c : Config) (s : System) (e : Event) (tx : Transaction) : Prop :=
  ∃ tx' ∈ s.testing e, s.pool.overflows c tx' = false ∧ tx = c.computeHash tx'

omit [ContainerHeap] [Keccak] in
theorem ledger_recounts {p p' : Pool} (h : p.Recounts p') (pending : List Action) :
    ledger p' pending = ledger p pending := by
  obtain rfl | ⟨addr, acc, acc', hacc, hsame, rfl⟩ := h
  · rfl
  · exact ledger_queued (Pool.queued_setAccount_same hacc hsame) rfl pending

def leaving (s : System) : Event → List Transaction
  | .run goroutine pick =>
    match s.goroutines[goroutine]? with
    | some (a :: _) => a.leaving s.pool pick
    | _ => []
  | e => s.releases e

theorem step_move (s : System) (e : Event) (hpop : s.PopsHead e) :
    ∃ left : Multiset Transaction, (∀ tx ∈ left, tx ∈ s.leaving e) ∧
      Ledger.Move c.weight (s.Admits c e) (ledger s.pool s.pending) left (s.releases e)
        (ledger (s.step c e).pool (s.step c e).pending) := by
  have hnone : ∀ tx ∈ (0 : Multiset Transaction), tx ∈ s.leaving e := by simp
  have hsteps := step_cases c s e
  generalize s.step c e = s' at hsteps
  cases hsteps with
  | idle hreleases hpool hpending =>
    have hqueued : (s'.pool.queued : Multiset Transaction) = s.pool.queued := by
      rw [Pool.queued, hpool.accounts, Pool.queued]
    rw [hreleases, hpending, ledger_queued hqueued hpool.gauge]
    exact ⟨0, hnone, .idle _⟩
  | submit hvalid hpool hpending =>
    rw [hpool, hpending]
    exact ⟨0, hnone, .idle _⟩
  | prune hpool hpending =>
    rw [hpool, hpending]
    exact ⟨0, hnone, .idle _⟩
  | processBlocks hpool hpending =>
    rw [hpool, hpending]
    exact ⟨0, hnone, .idle _⟩
  | act hgoroutine hrun hpool hbefore hafter =>
    rw [ledger_perm _ hbefore, hpool, ledger_perm _ hafter]
    simp only [releases, hgoroutine]
    obtain ⟨left, hleft, hmove⟩ := hrun.move _
    refine ⟨left, by simpa [leaving, hgoroutine] using hleft, hmove.mono ?_⟩
    rintro tx ⟨tx', rfl, hfits, heq⟩
    exact ⟨tx', by simp [testing, hgoroutine], hfits, heq⟩
  | @pop tx acc _ hacc hlock hpool hpending =>
    have hpeek : Queue.peek acc.promoted = some tx := hpop tx rfl acc hacc
    have hreleases : s.releases (.pop tx) = [tx] := by
      simp [releases, unlocked, hacc, hlock]
    have hqueued := s.pool.queued_pop c hacc hpeek
    have hlevel : ((s.pool.pop c tx).gauge.height : ZMod (2 ^ 64)) =
        s.pool.gauge.height - (([tx] : Multiset Transaction).map c.weight).sum := by
      rw [Pool.pop_eq c hacc]
      exact Pool.cast_decrease c _ [tx]
    have hleaving : s.leaving (.pop tx) = [tx] := hreleases
    rw [hpool, hpending, hreleases, hleaving]
    exact ⟨_, fun tx htx => htx, move_expel hqueued hlevel s.pending⟩
  | @drop e tx acc s' he hreleases hacc hlock hpool hpending =>
    have hleaving : s.leaving e = acc.queued := by
      obtain rfl | rfl := he <;> exact hreleases
    rw [hreleases, hpending, ledger_recounts hpool, hleaving]
    exact ⟨_, fun tx htx => htx, move_expel (Pool.queued_drop c hacc) (Pool.cast_drop c hacc) s.pending⟩
  | demote hreleases hpool hpending =>
    rw [hreleases, hpending, ledger_recounts hpool]
    exact ⟨0, hnone, .idle _⟩

end System

structure Pool.GaugeFits (maxSlots : Nat) (p : Pool) : Prop where
  height_lt : p.gauge.height < 2 ^ 64
  max_eq : p.gauge.max = maxSlots

omit [ContainerHeap] [Keccak] in
theorem Pool.GaugeFits.increase (h : p.GaugeFits maxSlots) (txs : List Transaction) :
    (p.increase c txs).GaugeFits maxSlots :=
  ⟨SlotGauge.height_increase_lt _ _, h.max_eq⟩

omit [ContainerHeap] [Keccak] in
theorem Pool.GaugeFits.decrease (h : p.GaugeFits maxSlots) (txs : List Transaction) :
    (p.decrease c txs).GaugeFits maxSlots :=
  ⟨SlotGauge.height_decrease_lt _ _, h.max_eq⟩

omit [ContainerHeap] [Keccak] in
theorem Pool.GaugeFits.of_gauge (h : p.GaugeFits maxSlots) (hgauge : p'.gauge = p.gauge) : p'.GaugeFits maxSlots :=
  ⟨hgauge ▸ h.height_lt, hgauge ▸ h.max_eq⟩

omit [ContainerHeap] [Keccak] in
theorem Pool.GaugeFits.drop (h : p.GaugeFits maxSlots) (tx : Transaction) : (p.drop c tx).GaugeFits maxSlots := by
  unfold Pool.drop
  split
  · exact h
  · exact ⟨SlotGauge.height_decrease_lt _ _, h.max_eq⟩

theorem Pool.GaugeFits.runs (h : p.GaugeFits maxSlots) {pick : Nat} {a : Action} {next : List Action}
    {promotions : List Address} (hrun : a.Runs c p pick p' next promotions) : p'.GaugeFits maxSlots := by
  cases hrun with
  | increase => exact h.increase _
  | decrease => exact h.decrease _
  | prune _ _ => exact ⟨SlotGauge.height_decrease_lt _ _, h.max_eq⟩
  | drop _ _ => exact h.drop _
  | _ => exact h.of_gauge rfl

theorem System.gaugeFits_step {s : System} (h : s.pool.GaugeFits maxSlots) (e : Event) :
    (s.step c e).pool.GaugeFits maxSlots := by
  have hsteps := step_cases c s e
  generalize s.step c e = s' at hsteps
  have hrecounts : ∀ {p : Pool}, p.GaugeFits maxSlots → p.Recounts s'.pool → s'.pool.GaugeFits maxSlots := by
    rintro p hp (heq | ⟨addr, acc, acc', -, -, heq⟩)
    · exact heq ▸ hp
    · exact hp.of_gauge (heq ▸ rfl)
  cases hsteps with
  | idle _ hpool _ => exact h.of_gauge hpool.gauge
  | submit _ hpool _ => exact hpool ▸ h
  | prune hpool _ => exact hpool ▸ h
  | processBlocks hpool _ => exact hpool ▸ h
  | act _ hrun hpool _ _ => exact hpool ▸ h.runs hrun
  | @pop tx acc _ hacc _ hpool _ =>
    have hset : (s.pool.setAccount tx.sender acc.pop).GaugeFits maxSlots := h.of_gauge rfl
    rw [hpool, Pool.pop_eq c hacc]
    exact (hset.decrease _).of_gauge rfl
  | drop _ _ _ _ hpool _ => exact hrecounts (h.drop _) hpool
  | demote _ hpool _ => exact hrecounts h hpool

structure System.Accounted (c : Config) (maxSlots : Nat) (s : System) : Prop where
  balanced : Ledger.Balanced c.weight (ledger s.pool s.pending)
  fits : s.pool.GaugeFits maxSlots

theorem System.Accounted.step {s : System} (h : s.Accounted c maxSlots) (e : Event) (hpop : s.PopsHead e) :
    (s.step c e).Accounted c maxSlots := by
  obtain ⟨left, -, hmove⟩ := s.step_move (c := c) e hpop
  exact ⟨hmove.balanced h.balanced, gaugeFits_step h.fits e⟩

omit [ContainerHeap] [Keccak] in
theorem System.accounted_new (maxSlots : Nat) (store : Store) (sealing : Bool) :
    (new maxSlots store sealing).Accounted c maxSlots where
  balanced := by simp [Ledger.Balanced, ledger, new, pending, Pool.new, Pool.queued]
  fits := ⟨by simp [new, Pool.new], rfl⟩

theorem gauge_height_eq (maxSlots : Nat) (store : Store) (sealing : Bool) (events : List Event)
    (hpops : Runs.Along (System.step c) System.PopsHead (.new maxSlots store sealing) events) :
    let s := (System.new maxSlots store sealing).run c events
    s.Quiet →
      s.pool.gauge.height =
        (s.pool.queued.map fun tx => c.slotsRequired [tx]).sum % 2 ^ 64 := by
  intro s hquiet
  have hs : s.Accounted c maxSlots :=
    Runs.inv_foldl (fun s e h hpop => h.step e hpop) (System.accounted_new _ _ _) hpops
  have hbalanced : (s.pool.gauge.height : ZMod (2 ^ 64)) = c.slotsRequired s.pool.queued := by
    have hbalanced := hs.balanced
    rw [show s.pending = [] from hquiet] at hbalanced
    simpa [Ledger.Balanced, ledger, c.cast_slotsRequired] using hbalanced
  rw [ZMod.natCast_eq_natCast_iff', Nat.mod_eq_of_lt hs.fits.height_lt, c.slotsRequired_eq,
    Nat.mod_mod] at hbalanced
  have hslots : (fun tx => c.slotsRequired [tx]) = c.slots := by
    funext tx
    rw [c.slotsRequired_singleton]
  rw [hslots]
  exact hbalanced

namespace System

variable {maxSlots : Nat} {s : System}

def admittedSlots (c : Config) (s : System) : Nat :=
  s.pool.gauge.height + ((s.pending.flatMap Action.uncounted).map c.slots).sum +
    ((s.pending.flatMap Action.incoming).map c.slots).sum

def InTurn (c : Config) (s : System) (e : Event) : Prop :=
  (∀ tx ∈ s.testing e, s.pool.overflows c tx = false →
    s.admittedSlots c + c.slots tx ≤ s.pool.gauge.max) ∧
  (∀ tx ∈ s.leaving e, tx ∉ s.pending.flatMap Action.uncounted) ∧
  s.PopsHead e

instance (s : System) (e : Event) : Decidable (s.InTurn c e) :=
  inferInstanceAs (Decidable (_ ∧ _ ∧ _))

structure WithinCapacity (c : Config) (maxSlots : Nat) (s : System) : Prop
    extends s.Accounted c maxSlots where
  uncounted_le : (ledger s.pool s.pending).uncounted ≤ (ledger s.pool s.pending).held
  committed_le : Ledger.committed c.slots (ledger s.pool s.pending) ≤ maxSlots

omit [ContainerHeap] [Keccak] in
theorem WithinCapacity.height_add (h : s.WithinCapacity c maxSlots) (hmax : maxSlots < 2 ^ 64) :
    s.pool.gauge.height + ((s.pending.flatMap Action.uncounted).map c.slots).sum =
      (s.pool.queued.map c.slots).sum + ((s.pending.flatMap Action.owed).map c.slots).sum :=
  Ledger.level_add_uncounted rfl h.fits.height_lt hmax h.balanced h.uncounted_le h.committed_le

omit [ContainerHeap] [Keccak] in
theorem WithinCapacity.height_le (h : s.WithinCapacity c maxSlots) (hmax : maxSlots < 2 ^ 64) :
    s.pool.gauge.height ≤ maxSlots := by
  have hadd := h.height_add hmax
  have hcommitted : ((s.pending.flatMap Action.incoming).map c.slots).sum +
      (s.pool.queued.map c.slots).sum + ((s.pending.flatMap Action.owed).map c.slots).sum ≤
        maxSlots := h.committed_le
  omega

theorem WithinCapacity.step (h : s.WithinCapacity c maxSlots) (hmax : maxSlots < 2 ^ 64) {e : Event}
    (hturn : s.InTurn c e) : (s.step c e).WithinCapacity c maxSlots := by
  obtain ⟨hadmits, hcounted, hpop⟩ := hturn
  obtain ⟨left, hleft, hmove⟩ := s.step_move (c := c) e hpop
  refine ⟨h.toAccounted.step e hpop, hmove.uncounted_le h.uncounted_le ?_, hmove.committed_le h.committed_le ?_⟩
  · exact fun tx htx => hcounted tx (hleft tx htx)
  · rintro tx ⟨tx', htesting, hfits, rfl⟩
    have hroom := hadmits tx' htesting hfits
    have hadd := h.height_add hmax
    rw [h.fits.max_eq, admittedSlots] at hroom
    change ((s.pending.flatMap Action.incoming).map c.slots).sum +
      (s.pool.queued.map c.slots).sum + ((s.pending.flatMap Action.owed).map c.slots).sum + c.slots tx' ≤ maxSlots
    omega

end System

theorem gauge_height_le (maxSlots : Nat) (hmax : maxSlots < 2 ^ 64) (store : Store) (sealing : Bool)
    (events : List Event)
    (hevents : Runs.Along (System.step c) (System.InTurn c) (.new maxSlots store sealing) events) :
    ((System.new maxSlots store sealing).run c events).pool.gauge.height ≤ maxSlots := by
  have hnew : (System.new maxSlots store sealing).WithinCapacity c maxSlots :=
    ⟨System.accounted_new maxSlots store sealing, le_rfl, Nat.zero_le _⟩
  have hrun := Runs.inv_foldl (fun s e h hturn => h.step hmax hturn) hnew hevents
  exact hrun.height_le hmax

end Moves

section Sample

local instance slotHeap : ContainerHeap := leftmostHeap
local instance slotKeccak : Keccak := sampleKeccak

def samplePooled (nonce : Nat) : Transaction := sampleConfig.computeHash (sampleTx nonce 1)

def sampleRound : List Event :=
  addFirst (sampleTx 0 1) ++ .addTx (sampleTx 2 1) :: goOn 7 ++ [.pop (samplePooled 0)]

theorem gauge_height_eq_sample : let s := (System.new 10 sampleStore true).run sampleConfig sampleRound
    s.pool.queued = [samplePooled 2] ∧
      s.pool.gauge.height = (s.pool.queued.map fun tx => sampleConfig.slotsRequired [tx]).sum % 2 ^ 64 :=
  ⟨by decide +kernel,
    gauge_height_eq 10 sampleStore true sampleRound (by decide +kernel) (by decide +kernel)⟩

theorem gauge_height_le_sample :
    Runs.Along (System.step sampleConfig) (System.InTurn sampleConfig)
        (.new 2 sampleStore true) sampleRound ∧
      ((System.new 2 sampleStore true).run sampleConfig sampleRound).pool.gauge.height ≤ 2 :=
  ⟨by decide +kernel, gauge_height_le 2 (by norm_num) sampleStore true sampleRound (by decide +kernel)⟩

def sampleRace : List Event :=
  .addTx (sampleTx 0 1) :: goOn 2 ++ .addTx (sampleTx 1 1) :: goOn 8 ++ .run 1 0 :: goOn 3

def sampleHaste : List Event := .addTx (sampleTx 0 1) :: goOn 7 ++ [.drop (samplePooled 0)]

theorem gauge_exceeds_capacity :
    ((System.new 1 sampleStore true).run sampleConfig sampleRace).pool.gauge = ⟨2, 1⟩ ∧
      ((System.new 1 sampleStore true).run sampleConfig sampleHaste).pool.gauge =
        ⟨2 ^ 64 - 1, 1⟩ :=
  ⟨by decide +kernel, by decide +kernel⟩

end Sample

end Nxchain.Txpool
