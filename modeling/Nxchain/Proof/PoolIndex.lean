import Nxchain.Proof.BuildingRounds

namespace Nxchain.Txpool

section Index

variable {p p' : Pool} {tx : Transaction}

namespace Pool

theorem removeIndex_ne_none_iff {txs : List Transaction} {hash : Hash} :
    (p.removeIndex txs).index hash ≠ none ↔
      (∀ tx ∈ txs, tx.hash ≠ hash) ∧ p.index hash ≠ none := by
  simp only [removeIndex]
  split_ifs with hmem
  · obtain ⟨tx, htx, heq⟩ := List.mem_map.mp hmem
    exact ⟨fun h => absurd rfl h, fun h => absurd heq (h.1 tx htx)⟩
  · have hne : ∀ tx ∈ txs, tx.hash ≠ hash := fun tx htx heq => hmem (heq ▸ List.mem_map_of_mem htx)
    exact ⟨fun h => ⟨hne, h⟩, fun h => h.2⟩

theorem drop_ne_none {c : Config} {acc : Account} (hacc : p.accounts.lookup tx.sender = some acc) {hash : Hash}
    (h : (p.drop c tx).index hash ≠ none) : (∀ other ∈ acc.queued, other.hash ≠ hash) ∧ p.index hash ≠ none := by
  simp only [drop, hacc] at h
  obtain ⟨henqueued, h⟩ := removeIndex_ne_none_iff.mp h
  obtain ⟨hpromoted, h⟩ := removeIndex_ne_none_iff.mp h
  exact ⟨List.forall_mem_append.mpr ⟨hpromoted, henqueued⟩, h⟩

theorem exists_of_mem_queued (hhoused : p.All Account.HousedAt) (htx : tx ∈ p.queued) :
    ∃ acc, p.accounts.lookup tx.sender = some acc ∧ tx ∈ acc.queued := by
  obtain ⟨⟨addr, acc⟩, hentry, hmem⟩ := List.mem_flatMap.mp htx
  have hacc : p.accounts.lookup addr = some acc := AList.mem_lookup_iff.mpr hentry
  exact ⟨acc, hhoused addr acc hacc tx hmem ▸ hacc, hmem⟩

theorem mem_queued_iff {removed : List Transaction} (h : (p.queued : Multiset Transaction) = removed + p'.queued) :
    tx ∈ p.queued ↔ tx ∈ removed ∨ tx ∈ p'.queued := by
  rw [← Multiset.mem_coe, h, Multiset.mem_add, Multiset.mem_coe, Multiset.mem_coe]

theorem Recounts.mem_queued (h : p.Recounts p') : tx ∈ p'.queued ↔ tx ∈ p.queued := by
  obtain rfl | ⟨addr, acc, acc', hacc, hsame, rfl⟩ := h
  · rfl
  · rw [← Multiset.mem_coe, queued_setAccount_same hacc hsame, Multiset.mem_coe]

theorem Recounts.index (h : p.Recounts p') : p'.index = p.index := by
  obtain rfl | ⟨addr, acc, acc', hacc, hsame, rfl⟩ := h <;> rfl

end Pool

def InProgress (pending : List Action) (tx : Transaction) : Prop :=
  tx ∈ pending.flatMap Action.indexed ∨ tx ∈ pending.flatMap Action.stale

def AccountsFor (p : Pool) (pending : List Action) (tx : Transaction) : Prop :=
  tx ∈ p.queued ∨ InProgress pending tx

theorem InProgress.mono {pending pending' : List Action} (hpending : pending ⊆ pending')
    (h : InProgress pending tx) : InProgress pending' tx := by
  simp only [InProgress, List.mem_flatMap] at h ⊢
  obtain ⟨a, ha, htx⟩ | ⟨a, ha, htx⟩ := h
  · exact .inl ⟨a, hpending ha, htx⟩
  · exact .inr ⟨a, hpending ha, htx⟩

theorem inProgress_cons {a : Action} {others : List Action} :
    InProgress (a :: others) tx ↔ InProgress [a] tx ∨ InProgress others tx := by
  simp only [InProgress, List.flatMap_cons, List.mem_append]
  tauto

variable [ContainerHeap] [Keccak] {c : Config}

theorem Action.Runs.index {pick : Nat} {a : Action} {next : List Action} {promotions : List Address}
    (hrun : a.Runs c p pick p' next promotions) {hash : Hash} (hindex : p'.index hash ≠ none) :
    (p.index hash ≠ none ∧ ∀ tx, tx.hash = hash → AccountsFor p [a] tx → AccountsFor p' next tx) ∨
      ∃ tx ∈ next.flatMap Action.indexed, tx.hash = hash := by
  simp only [AccountsFor, InProgress, List.flatMap_singleton]
  have hpasses : ∀ {b : Action}, b.Passes next → ∀ tx, tx ∈ b.indexed ∨ tx ∈ b.stale →
      tx ∈ next.flatMap Action.indexed ∨ tx ∈ next.flatMap Action.stale :=
    fun hnext tx => Or.imp (hnext.mem_iff .indexed).mpr (hnext.mem_iff .stale).mpr
  cases hrun with
  | skip hnext _ => exact .inl ⟨hindex, fun tx _ => Or.imp_right (hpasses hnext tx)⟩
  | recount hnext _ hacc hsame =>
    refine .inl ⟨hindex, fun tx _ => Or.imp (fun hold => ?_) (hpasses hnext tx)⟩
    rwa [← Multiset.mem_coe, Pool.queued_setAccount_same hacc hsame]
  | reject ha =>
    refine .inl ⟨hindex, fun tx _ htx => ?_⟩
    obtain rfl | rfl | rfl := ha <;> simpa [indexed, stale] using htx
  | @addIndex tx _ =>
    by_cases heq : hash = tx.hash
    · exact .inr ⟨tx, by simp [indexed], heq.symm⟩
    · refine .inl ⟨by simpa [Pool.addIndex, heq] using hindex, fun other _ hother => ?_⟩
      exact .inl (by simpa [indexed, stale, Pool.queued, Pool.addIndex] using hother)
  | create hnew =>
    refine .inl ⟨hindex, fun tx _ htx => ?_⟩
    rw [Pool.queued_setAccount_new hnew]
    simpa [indexed, stale] using htx
  | enqueue hacc henqueue =>
    refine .inl ⟨hindex, fun other _ hother => .inl ?_⟩
    rw [← Multiset.mem_coe, Pool.queued_enqueue hacc henqueue, Multiset.mem_cons, Multiset.mem_coe]
    simpa [indexed, stale, or_comm] using hother
  | increase | decrease =>
    refine .inl ⟨hindex, fun tx _ htx => ?_⟩
    simp only [Pool.queued_increase, Pool.queued_decrease]
    simpa [indexed, stale] using htx
  | @promote addr acc hacc _ =>
    refine .inl ⟨hindex, fun tx _ htx => ?_⟩
    rw [Pool.mem_queued_iff (Pool.queued_eq_add hacc acc.queued_promote)] at htx
    simpa [indexed, stale, or_comm] using htx
  | removeIndex =>
    obtain ⟨hne, hold⟩ := Pool.removeIndex_ne_none_iff.mp hindex
    refine .inl ⟨hold, fun tx heq htx => .inl (htx.resolve_right ?_)⟩
    rintro (hindexed | hstale)
    · simp [indexed] at hindexed
    · exact hne tx hstale heq
  | @prune addr acc remaining rest hpick hacc =>
    obtain ⟨hne, hold⟩ := Pool.removeIndex_ne_none_iff.mp hindex
    refine .inl ⟨hold, fun tx heq htx => .inl ?_⟩
    rw [Pool.mem_queued_iff (Pool.queued_eq_add hacc acc.queued_pruneNonceHoles)] at htx
    simp only [indexed, stale, List.not_mem_nil, or_self, or_false] at htx
    exact htx.resolve_left fun hin => hne tx hin heq
  | removeBlock =>
    obtain ⟨hne, hold⟩ := Pool.removeIndex_ne_none_iff.mp hindex
    refine .inl ⟨hold, fun tx heq htx => ?_⟩
    obtain hqueued | hindexed | hstale := htx
    · exact .inl hqueued
    · simp [indexed] at hindexed
    · rw [stale, List.flatten_cons, List.mem_append] at hstale
      refine .inr (.inr ?_)
      rw [List.flatMap_singleton, stale]
      exact hstale.resolve_left fun hin => hne tx hin heq
  | @resetPromoted r addr nonce acc acc' next remaining hacc hlock hpick hsame hnext =>
    obtain ⟨demotions, skips, rfl⟩ := hsame
    refine .inl ⟨hindex, fun tx _ htx => ?_⟩
    rw [Pool.mem_queued_iff (Pool.queued_eq_add hacc (acc.queued_resetPromoted nonce))] at htx
    have hstale : tx ∈ next.flatMap Action.stale ↔
        tx ∈ r.prunedPromoted ++ (acc.resetPromoted nonce).1 ++ r.prunedEnqueued := hnext.mem_iff .stale
    simp only [hstale, indexed, stale, List.mem_append, List.not_mem_nil, false_or] at htx ⊢
    tauto
  | @resetEnqueued r addr acc acc' hacc hsame =>
    obtain ⟨demotions, skips, rfl⟩ := hsame
    refine .inl ⟨hindex, fun tx _ htx => ?_⟩
    rw [Pool.mem_queued_iff (Pool.queued_eq_add hacc acc.queued_resetEnqueued)] at htx
    simp only [List.flatMap_singleton, indexed, stale, List.mem_append, List.not_mem_nil, false_or] at htx ⊢
    tauto
  | @drop tx acc hacc _ =>
    obtain ⟨hne, hold⟩ := Pool.drop_ne_none hacc hindex
    refine .inl ⟨hold, fun other heq hother => .inl ?_⟩
    rw [Pool.mem_queued_iff (Pool.queued_drop c hacc)] at hother
    simp only [indexed, stale, List.not_mem_nil, or_self, or_false] at hother
    exact hother.resolve_left fun hin => hne other hin heq
  | _ => exact .inl ⟨hindex, fun tx _ htx => by simpa [indexed, stale] using htx⟩

def System.Traces (s : System) (popped : Transaction → Prop) : Prop :=
  ∀ hash, s.pool.index hash ≠ none →
    ∃ tx, tx.hash = hash ∧ (AccountsFor s.pool s.pending tx ∨ popped tx)

omit [ContainerHeap] [Keccak] in
theorem System.Traces.mono {s s' : System} {popped popped' : Transaction → Prop} (h : s.Traces popped)
    (hindex : ∀ hash, s'.pool.index hash ≠ none → s.pool.index hash ≠ none ∧
      ∀ tx, tx.hash = hash → tx ∈ s.pool.queued → tx ∈ s'.pool.queued ∨ popped' tx)
    (hpending : s.pending ⊆ s'.pending) (hpopped : ∀ tx, popped tx → popped' tx) : s'.Traces popped' := by
  intro hash hhash
  obtain ⟨hold, hqueued⟩ := hindex hash hhash
  obtain ⟨tx, heq, (hin | hprogress) | hin⟩ := h hash hold
  · exact ⟨tx, heq, (hqueued tx heq hin).imp_left .inl⟩
  · exact ⟨tx, heq, .inl (.inr (hprogress.mono hpending))⟩
  · exact ⟨tx, heq, .inr (hpopped tx hin)⟩

omit [ContainerHeap] [Keccak] in
theorem System.Traces.settle {s : System} {popped popped' : Transaction → Prop} (h : s.Traces popped)
    (hpopped : ∀ tx, popped tx → popped' tx ∨ ∃ other, other.hash = tx.hash ∧ AccountsFor s.pool s.pending other) :
    s.Traces popped' := by
  intro hash hhash
  obtain ⟨tx, rfl, hin | hin⟩ := h hash hhash
  · exact ⟨tx, rfl, .inl hin⟩
  · obtain hin | ⟨other, heq, hother⟩ := hpopped tx hin
    · exact ⟨tx, rfl, .inr hin⟩
    · exact ⟨other, heq, .inl hother⟩

theorem System.Traces.step {s : System} {popped : Transaction → Prop} (h : s.Traces popped) {e : Event}
    (hpop : s.PopsHead e) : (s.step c e).Traces fun tx => popped tx ∨ tx ∈ e.popped := by
  have hsteps := step_cases c s e
  generalize s.step c e = s' at hsteps
  have hpopped : ∀ tx, popped tx → popped tx ∨ tx ∈ e.popped := fun tx => .inl
  -- the steps that leave the queues and the index as they are
  have hsame : s'.pool.index = s.pool.index → (∀ tx, tx ∈ s'.pool.queued ↔ tx ∈ s.pool.queued) →
      s.pending ⊆ s'.pending → s'.Traces fun tx => popped tx ∨ tx ∈ e.popped := by
    intro hindex hqueued hpending
    exact h.mono (fun hash hhash => ⟨hindex ▸ hhash, fun tx _ hin => .inl ((hqueued tx).mpr hin)⟩)
      hpending hpopped
  cases hsteps with
  | idle _ hpool hpending =>
    refine hsame hpool.index (fun tx => ?_) (hpending ▸ List.Subset.refl _)
    rw [Pool.queued, hpool.accounts, Pool.queued]
  | submit _ hpool hpending =>
    exact hsame (by rw [hpool]) (by simp [hpool]) (hpending ▸ List.subset_cons_self _ _)
  | prune hpool hpending =>
    exact hsame (by rw [hpool]) (by simp [hpool]) (hpending ▸ List.subset_cons_self _ _)
  | processBlocks hpool hpending =>
    exact hsame (by rw [hpool]) (by simp [hpool]) (hpending ▸ List.subset_cons_self _ _)
  | @act goroutine pick a rest others p' next promotions _ _ hrun hpool hbefore hafter =>
    intro hash hhash
    have hnext : ∀ tx, AccountsFor p' next tx → AccountsFor s'.pool s'.pending tx := by
      intro tx
      rw [hpool]
      exact Or.imp_right (InProgress.mono fun b hb => hafter.symm.subset (by simp [hb]))
    obtain ⟨hold, hkeeps⟩ | ⟨tx, htx, heq⟩ := hrun.index (hpool ▸ hhash)
    · obtain ⟨tx, heq, (hqueued | hprogress) | hin⟩ := h hash hold
      · exact ⟨tx, heq, .inl (hnext tx (hkeeps tx heq (.inl hqueued)))⟩
      · obtain hmine | hother := inProgress_cons.mp (hprogress.mono hbefore.subset)
        · exact ⟨tx, heq, .inl (hnext tx (hkeeps tx heq (.inr hmine)))⟩
        · exact ⟨tx, heq, .inl (.inr (hother.mono fun b hb => hafter.symm.subset (by simp [hb])))⟩
      · exact ⟨tx, heq, .inr (hpopped tx hin)⟩
    · exact ⟨tx, heq, .inl (hnext tx (.inr (.inl htx)))⟩
  | @pop tx acc _ hacc hlock hpool hpending =>
    have hpeek : Queue.peek acc.promoted = some tx := hpop tx rfl acc hacc
    refine h.mono (fun hash hhash => ⟨?_, fun other _ hother => ?_⟩) (hpending ▸ List.Subset.refl _) hpopped
    · rw [hpool, Pool.pop_eq c hacc] at hhash
      exact hhash
    · rw [Pool.mem_queued_iff (s.pool.queued_pop c hacc hpeek)] at hother
      rw [hpool]
      exact hother.symm.imp_right fun hin => .inr (Option.mem_some_iff.mpr (List.mem_singleton.mp hin).symm)
  | drop _ _ hacc _ hpool hpending =>
    refine h.mono (fun hash hhash => ?_) (hpending ▸ List.Subset.refl _) hpopped
    rw [hpool.index] at hhash
    obtain ⟨hne, hold⟩ := Pool.drop_ne_none hacc hhash
    refine ⟨hold, fun other heq hother => .inl ?_⟩
    rw [Pool.mem_queued_iff (Pool.queued_drop c hacc)] at hother
    rw [hpool.mem_queued]
    exact hother.resolve_left fun hin => hne other hin heq
  | demote _ hpool hpending =>
    exact hsame hpool.index (fun tx => hpool.mem_queued) (hpending ▸ List.Subset.refl _)

namespace Node

def pops (n : Node) (e : NodeEvent) : Option Transaction := (n.call e).bind Event.popped

variable (c) in
def Unsettled (start : Node) (done : List NodeEvent) (tx : Transaction) : Prop :=
  ∃ before after, done = before ++ .pop :: after ∧ (∀ inserted, .finish inserted ∉ after) ∧
    (start.run c before).pops .pop = some tx ∧
    (∀ other ∈ (start.run c before).system.pending.flatMap Action.stale, other.hash ≠ tx.hash) ∧
    ∀ blocks, .other (.resetWithHeaders blocks) ∈ after →
      ∀ other ∈ blocks.flatten, other.hash ≠ tx.hash

variable (c) in
def Settles (start : Node) (events : List NodeEvent) : Prop :=
  ∀ done, done ++ [.finish false] <+: events → ∀ tx, ¬ start.Unsettled c done tx

def Building (n : Node) : Prop := n.phase = .selecting ∨ ∃ tx, n.phase = .executing tx

omit [ContainerHeap] [Keccak] in
theorem pops_eq_some {n : Node} {e : NodeEvent} {tx : Transaction} (h : n.pops e = some tx) :
    e = .pop ∧ n.call e = some (.pop tx) := by
  obtain ⟨call, hcall, hpopped⟩ := Option.bind_eq_some_iff.mp h
  cases call with
  | pop other =>
    obtain rfl := Option.some.inj hpopped
    exact ⟨(call_eq_pop hcall).1, hcall⟩
  | _ => cases hpopped

theorem building_step {n : Node} {tx : Transaction} (h : n.Building ∧ tx ∈ n.popped) {e : NodeEvent}
    (he : ∀ inserted, e ≠ .finish inserted) : (n.step c e).Building ∧ tx ∈ (n.step c e).popped := by
  obtain ⟨hphase, htx⟩ := h
  cases e with
  | finish inserted => exact absurd rfl (he inserted)
  | drop | demote =>
    simp only [Building, Node.step, progress]
    split_ifs
    · exact ⟨.inl rfl, htx⟩
    · exact ⟨hphase, htx⟩
  | pop =>
    obtain hselecting | ⟨tx', hexecuting⟩ := hphase
    · simp [Building, Node.step, progress, hselecting, htx]
    · cases hcall : n.call .pop <;> simp [Building, Node.step, progress, hexecuting, hcall, htx]
  | peek =>
    obtain hselecting | ⟨tx', hexecuting⟩ := hphase
    · cases hpeek : n.system.pool.peek.1 <;> simp [Building, Node.step, progress, hselecting, hpeek, htx]
    · simp [Building, Node.step, progress, hexecuting, htx]
  | other | prepare | collect =>
    obtain hselecting | ⟨tx', hexecuting⟩ := hphase
    · simp [Building, Node.step, progress, hselecting, htx]
    · simp [Building, Node.step, progress, hexecuting, htx]

theorem Unsettled.building {start : Node} {done : List NodeEvent} {tx : Transaction}
    (h : start.Unsettled c done tx) : (start.run c done).Building ∧ tx ∈ (start.run c done).popped := by
  obtain ⟨before, after, rfl, hfinish, hpops, -, -⟩ := h
  have hcall := (pops_eq_some hpops).2
  obtain ⟨-, hphase, -⟩ := call_eq_pop hcall
  have hpopped : ((start.run c before).step c .pop).Building ∧ tx ∈ ((start.run c before).step c .pop).popped := by
    simp [Building, Node.step, progress, hphase, hcall]
  have hkeep : ∀ (n : Node) (e : NodeEvent), n.Building ∧ tx ∈ n.popped →
      (∀ inserted, e ≠ .finish inserted) → (n.step c e).Building ∧ tx ∈ (n.step c e).popped :=
    fun n e h he => building_step h he
  have hrun : start.run c (before ++ .pop :: after) =
      after.foldl (step c) ((start.run c before).step c .pop) := List.foldl_append
  rw [hrun]
  refine Runs.inv_foldl hkeep hpopped (Runs.along_of_forall_mem (fun e he _ inserted => ?_) _)
  rintro rfl
  exact hfinish inserted he

theorem Unsettled.step {start : Node} {done : List NodeEvent} {tx : Transaction} {e : NodeEvent}
    (h : start.Unsettled c done tx) (hfinish : e ≠ .finish false) :
    start.Unsettled c (done ++ [e]) tx ∨
      ∃ other, other.hash = tx.hash ∧
        other ∈ (start.run c (done ++ [e])).system.pending.flatMap Action.stale := by
  have hrun : start.run c (done ++ [e]) = (start.run c done).step c e := List.foldl_concat ..
  obtain ⟨hbuilding, hpopped⟩ := h.building
  -- the blocks that the event brings
  have hstale : ∀ blocks other, (start.run c done).call e = some (.resetWithHeaders blocks) →
      other ∈ blocks.flatten →
      other ∈ (start.run c (done ++ [e])).system.pending.flatMap Action.stale := by
    intro blocks other hcall hother
    simp only [hrun, Node.step, hcall, System.step, System.go, System.pending, List.flatten_cons,
      List.singleton_append, List.flatMap_cons, Action.stale]
    exact List.mem_append_left _ hother
  by_cases hend : ∃ inserted, e = .finish inserted
  · obtain ⟨_ | _, rfl⟩ := hend
    · exact absurd rfl hfinish
    refine .inr ⟨tx, rfl, hstale [(start.run c done).popped] tx ?_ (by simpa using hpopped)⟩
    obtain hselecting | ⟨tx', hexecuting⟩ := hbuilding
    · simp [call, hselecting]
    · simp [call, hexecuting]
  by_cases hbrings : ∃ blocks, e = .other (.resetWithHeaders blocks) ∧
      ∃ other ∈ blocks.flatten, other.hash = tx.hash
  · obtain ⟨blocks, rfl, other, hother, heq⟩ := hbrings
    exact .inr ⟨other, heq, hstale blocks other rfl hother⟩
  obtain ⟨before, after, rfl, hafter, hpops, hfree, hblocks⟩ := h
  refine .inl ⟨before, after ++ [e], by simp, fun inserted hin => ?_, hpops, hfree, ?_⟩
  · obtain hin | hin := List.mem_append.mp hin
    · exact hafter inserted hin
    · exact hend ⟨inserted, (List.mem_singleton.mp hin).symm⟩
  · intro blocks hin other hother heq
    obtain hin | hin := List.mem_append.mp hin
    · exact hblocks blocks hin other hother heq
    · exact hbrings ⟨blocks, (List.mem_singleton.mp hin).symm, other, hother, heq⟩

theorem traces_step {start : Node} {done : List NodeEvent} {e : NodeEvent}
    (h : (start.run c done).system.Traces (start.Unsettled c done)) (hselected : (start.run c done).Selected)
    (hsettles : e = .finish false → ∀ tx, ¬ start.Unsettled c done tx) :
    (start.run c (done ++ [e])).system.Traces (start.Unsettled c (done ++ [e])) := by
  have hrun : start.run c (done ++ [e]) = (start.run c done).step c e := List.foldl_concat ..
  have htraces : (start.run c (done ++ [e])).system.Traces fun tx =>
      start.Unsettled c done tx ∨ tx ∈ (start.run c done).pops e := by
    rw [hrun]
    unfold Node.step pops
    cases hcall : (start.run c done).call e with
    | none => simpa using h
    | some call => exact h.step (hselected.popsHead hcall)
  refine htraces.settle fun tx htx => ?_
  obtain hunsettled | hpops := htx
  · by_cases hfinish : e = .finish false
    · exact absurd hunsettled (hsettles hfinish tx)
    · exact (hunsettled.step hfinish).imp_right fun ⟨other, heq, hother⟩ => ⟨other, heq, .inr (.inr hother)⟩
  · obtain ⟨rfl, hcall⟩ := pops_eq_some hpops
    by_cases hfree : ∃ other ∈ (start.run c done).system.pending.flatMap Action.stale, other.hash = tx.hash
    · obtain ⟨other, hother, heq⟩ := hfree
      have hpending : (start.run c (done ++ [.pop])).system.pending = (start.run c done).system.pending := by
        simp only [hrun, Node.step, hcall, System.step]
        split_ifs <;> rfl
      exact .inr ⟨other, heq, .inr (.inr (hpending ▸ hother))⟩
    · refine .inl ⟨done, [], rfl, fun _ => List.not_mem_nil, hpops, fun other hother heq => ?_, ?_⟩
      · exact hfree ⟨other, hother, heq⟩
      · exact fun blocks hin => absurd hin List.not_mem_nil

end Node

theorem indexed_in_queue (maxSlots : Nat) (store : Store) (sealing : Bool) (events : List NodeEvent)
    (hevents : Runs.Along (Node.step c) Node.Calm (.new maxSlots store sealing) events)
    (hsettles : (Node.new maxSlots store sealing).Settles c events) :
    let n := (Node.new maxSlots store sealing).run c events
    n.system.Quiet → n.phase = .idle →
      (∀ hash, n.system.pool.index hash ≠ none →
        ∃ tx acc, tx.hash = hash ∧ n.system.pool.accounts.lookup tx.sender = some acc ∧
          (tx ∈ acc.promoted ∨ tx ∈ acc.enqueued)) ∧
      ∀ tx pick, (Action.addIndex tx).run c n.system.store n.system.sealing n.system.pool pick =
          .rejected .alreadyKnown →
        ∃ known acc, known.hash = tx.hash ∧
          n.system.pool.accounts.lookup known.sender = some acc ∧
          (known ∈ acc.promoted ∨ known ∈ acc.enqueued) := by
  intro n hquiet hphase
  let start := Node.new maxSlots store sealing
  have hn : n.Sound ∧ n.system.Traces (start.Unsettled c events) := by
    refine Runs.inv_history (fun done => (start.run c done).Sound ∧
      (start.run c done).system.Traces (start.Unsettled c done)) ?_ ?_ hevents
    · exact ⟨Node.sound_new _ _ _, fun hash hhash => absurd rfl hhash⟩
    · intro done e hle hcalm ⟨hsound, htraces⟩
      refine ⟨?_, Node.traces_step htraces hsound.toSelected fun hfinish => hsettles done (hfinish ▸ hle)⟩
      rw [Node.run, List.foldl_concat]
      exact hsound.step hcalm
  have hindex : ∀ hash, n.system.pool.index hash ≠ none →
      ∃ tx acc, tx.hash = hash ∧ n.system.pool.accounts.lookup tx.sender = some acc ∧
        (tx ∈ acc.promoted ∨ tx ∈ acc.enqueued) := by
    intro hash hhash
    obtain ⟨tx, heq, (hqueued | hprogress) | hunsettled⟩ := hn.2 hash hhash
    · obtain ⟨acc, hacc, hmem⟩ := Pool.exists_of_mem_queued hn.1.housed.accounts hqueued
      exact ⟨tx, acc, heq, hacc, List.mem_append.mp hmem⟩
    · rw [show n.system.pending = [] from hquiet] at hprogress
      simp [InProgress] at hprogress
    · have hbuilding : n.Building := hunsettled.building.1
      simp [Node.Building, hphase] at hbuilding
  refine ⟨hindex, fun tx pick hrun => hindex tx.hash ?_⟩
  simp only [Action.run] at hrun
  split_ifs at hrun with hknown
  exact Option.isSome_iff_ne_none.mp hknown

end Index

section Sample

local instance indexHeap : ContainerHeap := leftmostHeap
local instance indexKeccak : Keccak := sampleKeccak

def sampleInsertion : List NodeEvent :=
  sampleSelection ++ .pop :: [.other (.setHead { sampleStore with nonce := fun _ => 1 }),
    .other (.resetWithHeaders [[samplePooled 0]])]

def sampleOvertaken : List NodeEvent := sampleInsertion ++ .finish false :: (goOn 9).map .other

theorem settles_sampleOvertaken :
    (Node.new 10 sampleStore true).Settles sampleConfig sampleOvertaken := by
  rintro done ⟨rest, hrest⟩ tx ⟨before, after, rfl, -, hpops, -, hblocks⟩
  have hfinish : .finish false ∉ sampleInsertion ∧ .finish false ∉ (goOn 9).map NodeEvent.other := by
    simp [sampleInsertion, sampleSelection, addFirst, addNext, goOn]
  have hpop : .pop ∉ sampleSelection := by
    simp [sampleSelection, addFirst, addNext, goOn]
  rw [List.append_assoc, List.singleton_append, eq_comm, sampleOvertaken,
    List.append_cons_inj_of_notMem hfinish.1 hfinish.2] at hrest
  obtain ⟨rfl, -, rfl⟩ := (List.append_cons_inj_of_notMem hpop (by simp)).mp hrest.1
  have hhash : (((Node.new 10 sampleStore true).run sampleConfig sampleSelection).pops .pop).map
      Transaction.hash = some (samplePooled 0).hash := by decide +kernel
  rw [hpops] at hhash
  exact hblocks [[samplePooled 0]] (by simp) (samplePooled 0) (by simp) (Option.some.inj hhash).symm

theorem indexed_in_queue_sample : let n := (Node.new 10 sampleStore true).run sampleConfig sampleOvertaken
    n.system.pool.index (samplePooled 1).hash ≠ none ∧
      ∃ tx acc, tx.hash = (samplePooled 1).hash ∧
        n.system.pool.accounts.lookup tx.sender = some acc ∧
        (tx ∈ acc.promoted ∨ tx ∈ acc.enqueued) := by
  have hindex : ((Node.new 10 sampleStore true).run sampleConfig
      sampleOvertaken).system.pool.index (samplePooled 1).hash ≠ none := by decide +kernel
  exact ⟨hindex, (indexed_in_queue 10 sampleStore true _ (by decide +kernel) settles_sampleOvertaken
    (by decide +kernel) (by decide +kernel)).1 _ hindex⟩

def sampleFailure : List NodeEvent := sampleSelection ++ [.pop, .finish false]

theorem popped_stays_indexed : let n := (Node.new 10 sampleStore true).run sampleConfig sampleFailure
    n.system.Quiet ∧ n.phase = .idle ∧ n.system.pool.queued = [samplePooled 1] ∧
      (n.system.pool.index (samplePooled 0).hash).isSome ∧
      (n.system.pool.addTx sampleConfig sampleStore (sampleTx 0 1)).map Prod.fst =
        .error .alreadyKnown := by
  refine ⟨?_, ?_, ?_, ?_, ?_⟩
  all_goals decide +kernel

end Sample

end Nxchain.Txpool
