import Nxchain.Proof.FilterTimeouts

namespace Nxchain.Jsonrpc

namespace Core

variable {c c' : Core} {a : Action} {gives : List Header} {k : Nat}

def undelivered (c : Core) (k : Nat) : List Header := c.stream.behind k ++ c.inFlight

theorem Remove.stream_eq (hremove : Relation.ReflTransGen Remove c c') :
    c'.stream = c.stream ∧ c'.inFlight = c.inFlight ∧ c'.kinds = c.kinds ∧ c'.allocated = c.allocated := by
  induction hremove with
  | refl => exact ⟨rfl, rfl, rfl, rfl⟩
  | tail _ hlast ih =>
    cases hlast
    exact ih

theorem undelivered_step (hlinked : c.stream.Linked) (hk : k < c.stream.elems.length) (hstep : Step a c gives c') :
    c'.stream.Linked ∧ k < c'.stream.elems.length ∧ c'.undelivered k = c.undelivered k ++ gives := by
  cases hstep with
  | push => exact ⟨hlinked, hk, (List.append_assoc _ _ _).symm⟩
  | @deliver header headers kinds hflight =>
    refine ⟨hlinked.push header, by rw [BlockStream.length_push]; omega, ?_⟩
    simp [undelivered, BlockStream.behind_push hk, hflight]
  | remove hremove =>
    obtain ⟨hstream, hflight, _⟩ := Remove.stream_eq hremove
    rw [undelivered, hstream, hflight, List.append_nil]
    exact ⟨hlinked, hk, rfl⟩
  | _ => exact ⟨hlinked, hk, (List.append_nil _).symm⟩

theorem placed_step (hlinked : c.stream.Linked) (hplaced : c.stream.Placed c.kinds) (hstep : Step a c gives c') :
    c'.stream.Placed c'.kinds := by
  cases hstep with
  | deliver hflight hkinds =>
    intro r elem hr
    have helem := hplaced r elem ((hkinds r elem).mp hr)
    rw [BlockStream.length_push]
    omega
  | flush _ hplaces => exact hplaces hlinked hplaced
  | create hfresh hkind =>
    intro r elem hr
    dsimp only at hr ⊢
    by_cases hnew : r = c.allocated
    · subst hnew
      rw [Function.update_self] at hr
      have hhead := hlinked.head
      have helem := hkind elem hr
      omega
    · rw [Function.update_of_ne hnew] at hr
      exact hplaced r elem hr
  | poll _ _ hplaces => exact hplaces hlinked hplaced
  | remove hremove =>
    obtain ⟨hstream, _, hkinds, _⟩ := Remove.stream_eq hremove
    rw [hstream, hkinds]
    exact hplaced
  | _ => exact hplaced

structure Waits (c : Core) (id : FilterId) (r : Ref) (k : Nat) : Prop where
  lt : r < c.allocated
  id_eq : (c.timeouts.bases r).id = id
  ws_eq : (c.timeouts.bases r).ws = none
  kind : c.kinds r = .block k

theorem Waits.remove {id : FilterId} {r : Ref} (hw : c.Waits id r k) (hc : c.Inv) (hremove : Remove c c') :
    c'.Waits id r k := by
  obtain ⟨_, hremove⟩ := hremove
  obtain ⟨_, _, hid, hws⟩ := TimeHeap.removeFilter_spec hc.indexed hremove
  exact ⟨hw.lt, (hid r).trans hw.id_eq, (hws r).trans hw.ws_eq, hw.kind⟩

theorem Waits.step {id : FilterId} {r : Ref} (hw : c.Waits id r k) (hc : c.Inv) (hstep : Step a c gives c')
    (ha : a ≠ .getFilterAndChanges id) : c'.Waits id r k := by
  cases hstep with
  | same => exact hw
  | push => exact ⟨hw.lt, hw.id_eq, hw.ws_eq, hw.kind⟩
  | deliver hflight hkinds => exact ⟨hw.lt, hw.id_eq, hw.ws_eq, (hkinds r k).mpr hw.kind⟩
  | flush hkinds => exact ⟨hw.lt, hw.id_eq, hw.ws_eq, (hkinds r hw.ws_eq).trans hw.kind⟩
  | create hfresh hkind =>
    have hne : r ≠ c.allocated := hw.lt.ne
    refine ⟨Nat.lt_succ_of_lt hw.lt, ?_, ?_, ?_⟩
    · simpa [hne] using hw.id_eq
    · simpa [hne] using hw.ws_eq
    · simpa [hne] using hw.kind
  | addWs => exact ⟨hw.lt, hw.id_eq, hw.ws_eq, hw.kind⟩
  | @add x expiresAt hx =>
    have hadds := TimeHeap.addFilter_setExpiry_adds hc.indexed (hc.created_lt x hx).2.1 expiresAt
    exact ⟨hw.lt, (hadds.id_eq r).trans hw.id_eq, (hadds.ws_eq r).trans hw.ws_eq, hw.kind⟩
  | @poll id' x kind hpoll hx =>
    have hne : r ≠ x := by
      rintro rfl
      rw [← (hc.filters_lt id' r hx).2, hw.id_eq] at hpoll
      exact ha hpoll
    exact ⟨hw.lt, hw.id_eq, hw.ws_eq, (Function.update_of_ne hne _ _).trans hw.kind⟩
  | @refresh x now expiresAt timeouts removed _ _ hremove =>
    obtain ⟨_, _, hid, hws⟩ := TimeHeap.refresh_spec hc.indexed hremove expiresAt
    exact ⟨hw.lt, (hid r).trans hw.id_eq, (hws r).trans hw.ws_eq, hw.kind⟩
  | remove hremove =>
    have hboth : c'.Waits id r k ∧ c'.Inv := by
      induction hremove with
      | refl => exact ⟨hw, hc⟩
      | tail _ hlast ih => exact ⟨ih.1.remove ih.2 hlast, ih.2.remove hlast⟩
    exact hboth.1

end Core

namespace FilterManager

variable {m : FilterManager}

theorem removeFilterByID_ok (hm : m.timeouts.Indexed) (id : FilterId) :
    ∃ m' found, m.removeFilterByID id = .ok (m', found) ∧ m'.timeouts.Indexed := by
  cases hr : m.filters id with
  | none => exact ⟨m, false, by rw [removeFilterByID, hr], hm⟩
  | some r =>
    obtain ⟨u, hremove, _⟩ := TimeHeap.removeFilter_removes hm r
    obtain ⟨m', hok⟩ : ∃ m', m.removeFilterByID id = .ok (m', true) := by
      rw [removeFilterByID, hr]
      exact ⟨_, Except.bind_eq_ok hremove rfl⟩
    refine ⟨m', true, hok, ?_⟩
    obtain ⟨_, rfl, _⟩ | ⟨x, timeouts, removed, worker, _, htimeouts, _, _, rfl⟩ := removeFilterByID_eq_ok hok
    · exact hm
    · exact (TimeHeap.removeFilter_spec hm htimeouts).1

theorem removeClosedFilters_ok (hm : m.timeouts.Indexed) (ids : List FilterId) :
    ∃ m', m.removeClosedFilters ids = .ok m' := by
  induction ids generalizing m with
  | nil => exact ⟨m, rfl⟩
  | cons id ids ih =>
    obtain ⟨next, found, hremove, hnext⟩ := removeFilterByID_ok hm id
    obtain ⟨m', hrest⟩ := ih hnext
    exact ⟨m', Except.bind_eq_ok (Except.map_eq_ok_iff.mpr ⟨_, hremove, rfl⟩) hrest⟩

end FilterManager

namespace System

variable {s : System} {timeout : Nat} {header : Header}

variable {actions : List Action} {k : Nat}

theorem removeFilter_panicked (hs : s.core.Inv) (id : FilterId) : (s.removeFilter id).panicked = s.panicked := by
  obtain ⟨m', found, hremove, _⟩ := FilterManager.removeFilterByID_ok hs.indexed id
  rw [removeFilter, hremove]
  rfl

theorem step_panicked (hs : s.core.Inv) (hrunning : s.panicked = none) {a : Action}
    (hpanic : (s.step a).panicked ≠ none) : (s.step a).manager.worker.headers ≠ [] := by
  unfold step at hpanic ⊢
  rw [if_neg (by simp [hrunning])] at hpanic ⊢
  cases a with
  | push event => exact absurd hrunning hpanic
  | processHeader store =>
    dsimp only [work, settle] at hpanic ⊢
    split at hpanic
    · rename_i header headers hworker
      split at hpanic
      · rename_i p hprocess
        simp [hworker, Worker.headers]
      · exact absurd hrunning hpanic
    · exact absurd hrunning hpanic
  | removeClosedFilters =>
    dsimp only [work] at hpanic
    split at hpanic
    · rename_i ids hworker
      obtain ⟨m', hremove⟩ := FilterManager.removeClosedFilters_ok
        (m := { s.manager with worker := .peeking }) hs.indexed ids
      rw [hremove] at hpanic
      exact absurd hrunning hpanic
    · exact absurd hrunning hpanic
  | timeoutFires =>
    dsimp only [work] at hpanic
    split at hpanic
    · rename_i filterID hworker
      split at hpanic
      · have hpeeking : ({ s with manager := { s.manager with worker := .peeking } } : System).core.Inv := by
          rw [core_worker (by rw [hworker]; rfl)]
          exact hs
        exact absurd ((removeFilter_panicked hpeeking filterID).trans hrunning) hpanic
      · exact absurd hrunning hpanic
    · exact absurd hrunning hpanic
  | refreshFilterTimeout r now =>
    dsimp only at hpanic
    split at hpanic
    · obtain ⟨u, hremove, _⟩ := TimeHeap.removeFilter_removes hs.indexed r
      have hrefresh : s.manager.refreshFilterTimeout r now =
          .ok ({ s.manager with timeouts := u }.addFilterTimeout r now) := Except.bind_eq_ok hremove rfl
      rw [hrefresh] at hpanic
      exact absurd hrunning hpanic
    · exact absurd hrunning hpanic
  | uninstall id => exact absurd ((removeFilter_panicked hs id).trans hrunning) hpanic
  | removeFilterByWs conn => exact absurd ((removeFilter_panicked hs _).trans hrunning) hpanic
  | _ =>
    dsimp only [work, create] at hpanic
    split at hpanic <;> exact absurd hrunning hpanic

theorem step_of_panicked (hpanic : s.panicked ≠ none) (a : Action) : s.step a = s := by
  unfold step
  rw [if_pos (Option.isSome_iff_ne_none.mpr hpanic)]

theorem run_of_panicked (hpanic : s.panicked ≠ none) (actions : List Action) : actions.foldl step s = s := by
  induction actions with
  | nil => rfl
  | cons a actions ih => rw [List.foldl_cons, step_of_panicked hpanic, ih]

theorem panicked_run (hs : s.core.Inv) (hrunning : s.panicked = none)
    (hheaders : (actions.foldl step s).manager.worker.headers = []) : (actions.foldl step s).panicked = none := by
  induction actions generalizing s with
  | nil => exact hrunning
  | cons a actions ih =>
    have hnext : (s.step a).panicked = none := by
      by_contra hpanic
      rw [List.foldl_cons, run_of_panicked hpanic] at hheaders
      exact step_panicked hs hrunning hpanic hheaders
    exact ih (inv_step hs a) hnext hheaders

def HasRoom (s : System) : Action → Prop
  | .push _ => s.channel.length < subscriptionCapacity
  | _ => True

instance (s : System) (a : Action) : Decidable (s.HasRoom a) := by
  unfold HasRoom
  split <;> infer_instance

def pushed : Action → List Header
  | .push event => event.newChain
  | _ => []

theorem collect_accepts (hroom : Runs.Along step HasRoom s actions)
    (hrunning : (actions.foldl step s).panicked = none) :
    Runs.collect step accepts s actions = actions.flatMap pushed := by
  induction actions generalizing s with
  | nil => rfl
  | cons a actions ih =>
    have hs : s.panicked = none := by
      by_contra hpanic
      rw [run_of_panicked hpanic] at hrunning
      exact hpanic hrunning
    have haccepts : s.accepts a = pushed a := by
      cases a with
      | push event => exact if_pos ⟨hs, hroom.1⟩
      | _ => rfl
    rw [Runs.collect, haccepts, ih hroom.2 hrunning, List.flatMap_cons]

theorem undelivered_run (hlinked : s.core.stream.Linked) (hk : k < s.core.stream.elems.length)
    (actions : List Action) :
    (actions.foldl step s).core.stream.Linked ∧ k < (actions.foldl step s).core.stream.elems.length ∧
      (actions.foldl step s).core.undelivered k =
        s.core.undelivered k ++ Runs.collect step accepts s actions := by
  induction actions generalizing s with
  | nil => exact ⟨hlinked, hk, (List.append_nil _).symm⟩
  | cons a actions ih =>
    obtain ⟨hlinked', hk', heq⟩ := Core.undelivered_step hlinked hk (s.step_core a)
    obtain ⟨hlinked'', hk'', heq'⟩ := ih hlinked' hk'
    refine ⟨hlinked'', hk'', heq'.trans ?_⟩
    rw [heq, Runs.collect, List.append_assoc]

theorem waits_run {id : FilterId} {r : Ref} (hs : s.core.Inv) (hw : s.core.Waits id r k)
    (hunpolled : .getFilterAndChanges id ∉ actions) : (actions.foldl step s).core.Waits id r k := by
  induction actions generalizing s with
  | nil => exact hw
  | cons a actions ih =>
    rw [List.mem_cons, not_or] at hunpolled
    exact ih (inv_step hs a) (hw.step hs (s.step_core a) (Ne.symm hunpolled.1)) hunpolled.2

theorem Drained.inFlight_eq (hdrained : s.Drained) : s.core.inFlight = [] := by
  simp [core, hdrained.1, hdrained.2.1, hdrained.2.2]

theorem collect_quiet (hquiet : ∀ event, .push event ∉ actions) : Runs.collect step accepts s actions = [] := by
  induction actions generalizing s with
  | nil => rfl
  | cons a actions ih =>
    have haccepts : s.accepts a = [] := by
      cases a with
      | push event => exact absurd List.mem_cons_self (hquiet event)
      | _ => rfl
    rw [Runs.collect, haccepts]
    exact ih fun event hevent => hquiet event (List.mem_cons_of_mem a hevent)

theorem placed_run (hlinked : s.core.stream.Linked) (hplaced : s.core.stream.Placed s.core.kinds)
    (actions : List Action) : (actions.foldl step s).core.stream.Placed (actions.foldl step s).core.kinds := by
  induction actions generalizing s with
  | nil => exact hplaced
  | cons a actions ih =>
    have hstep := s.step_core a
    have hpos : 0 < s.core.stream.elems.length := by
      have hhead := hlinked.head
      omega
    exact ih (Core.undelivered_step hlinked hpos hstep).1 (Core.placed_step hlinked hplaced hstep)

theorem headers_eq_nil (hflight : s.core.inFlight = []) : s.manager.worker.headers = [] :=
  (List.append_eq_nil_iff.mp (List.append_eq_nil_iff.mp hflight).1).1

theorem getFilterAndChanges_block {id : FilterId} {r : Ref} {headers : List Header}
    (hfilter : s.manager.filters id = some r) (hw : s.core.Waits id r k) (hlinked : s.core.stream.Linked)
    (hk : k < s.core.stream.elems.length) (hbehind : s.manager.blockStream.behind k = headers) :
    ∃ m, s.manager.getFilterAndChanges id = .ok (m, r, .hashes (headers.map (·.hash))) := by
  have hkind : s.manager.kinds r = .block k := hw.kind
  have hws : (s.manager.base r).hasWSConn = false := by
    rw [FilterBase.hasWSConn, show (s.manager.base r).ws = none from hw.ws_eq]
    rfl
  have hupdates : s.manager.blockStream.getUpdates s.manager.blockStream.elems.length k =
      (headers, s.manager.blockStream.elems.length - 1) :=
    hbehind ▸ BlockStream.getUpdates_eq hlinked hk (Nat.le_add_left _ _)
  simp [FilterManager.getFilterAndChanges, hfilter, hws, FilterManager.getUpdates, hkind, hupdates]

theorem no_block_event_is_missed (timeout : Nat) (header : Header) {before after : List Action} {id : FilterId}
    {r : Ref} {elem : Nat} (hquiet : ∀ event, .push event ∉ before)
    (hfilter : (before.foldl step (new timeout header)).manager.filters id = some r)
    (hkind : (before.foldl step (new timeout header)).manager.kinds r = .block elem)
    (hws : ((before.foldl step (new timeout header)).manager.base r).ws = none)
    (hroom : Runs.Along step HasRoom (before.foldl step (new timeout header)) after)
    (hunpolled : .getFilterAndChanges id ∉ after)
    (hdrained : ((before ++ after).foldl step (new timeout header)).Drained)
    (hinstalled : ((before ++ after).foldl step (new timeout header)).manager.filters id ≠ none) :
    ∃ m, ((before ++ after).foldl step (new timeout header)).manager.getFilterAndChanges id =
      .ok (m, r, .hashes ((after.flatMap pushed).map (·.hash))) := by
  rw [List.foldl_append] at hdrained hinstalled ⊢
  have hlinked₀ : (new timeout header).core.stream.Linked := BlockStream.linked_new header
  have hplaced₀ : (new timeout header).core.stream.Placed (new timeout header).core.kinds := by
    intro r elem hr
    obtain rfl : 0 = elem := FilterKind.block.inj hr
    exact Nat.zero_lt_one
  -- Before the first push the stream has one element, so the filter is there.
  obtain ⟨hlinked₁, hpos₁, hundelivered₁⟩ := undelivered_run hlinked₀ Nat.zero_lt_one before
  have hplaced₁ := placed_run hlinked₀ hplaced₀ before
  have hinv₁ := inv_run (inv_new timeout header) before
  obtain ⟨hbehind₁, hflight₁⟩ := List.append_eq_nil_iff.mp (hundelivered₁.trans (congrArg _ (collect_quiet hquiet)))
  have hrunning₁ := panicked_run (inv_new timeout header) rfl (headers_eq_nil hflight₁)
  generalize before.foldl step (new timeout header) = s₁ at *
  have helem : elem = 0 := by
    have hlt := hplaced₁ r elem hkind
    have hlength := List.drop_eq_nil_iff.mp (List.map_eq_nil_iff.mp hbehind₁)
    omega
  subst helem
  obtain ⟨hlt, hid⟩ := hinv₁.filters_lt id r hfilter
  have hw₁ : s₁.core.Waits id r 0 := ⟨hlt, hid, hws, hkind⟩
  -- From then on it waits for what is pushed.
  obtain ⟨hlinked₂, hpos₂, hundelivered₂⟩ := undelivered_run hlinked₁ hpos₁ after
  have hinv₂ := inv_run hinv₁ after
  have hw₂ := waits_run hinv₁ hw₁ hunpolled
  rw [collect_accepts hroom (panicked_run hinv₁ hrunning₁ hdrained.2.2)] at hundelivered₂
  generalize after.foldl step s₁ = s₂ at *
  have hbehind₂ : s₂.manager.blockStream.behind 0 = after.flatMap pushed := by
    have hempty : s₁.core.undelivered 0 = [] := List.append_eq_nil_iff.mpr ⟨hbehind₁, hflight₁⟩
    rw [Core.undelivered, hdrained.inFlight_eq, List.append_nil, hempty, List.nil_append] at hundelivered₂
    exact hundelivered₂
  have hfilter₂ : s₂.manager.filters id = some r := by
    obtain ⟨x, hx⟩ := Option.ne_none_iff_exists'.mp hinstalled
    obtain ⟨hxlt, hxid⟩ := hinv₂.filters_lt id x hx
    rw [hx, hinv₂.id_inj x hxlt r hw₂.lt (hxid.trans hw₂.id_eq.symm)]
  exact getFilterAndChanges_block hfilter₂ hw₂ hlinked₂ hpos₂ hbehind₂

def newHead (number : Nat) : Action := .push { newChain := [numberedHeader number] }

def emptyStore : Store where
  header := none
  getReceiptsByHash := fun _ => .ok []
  getBlockByHash := fun _ => none
  getBlockByNumber := fun _ => none
  readTxLookup := fun _ => none

def handleEvent : List Action :=
  [.nextTimeoutFilter, .getEvent, .dispatchEvent, .processHeader emptyStore,
    .flushWsFilters fun _ => .sent, .removeClosedFilters]

def installFilter : List Action := [.newBlockFilter "filter" none, .addFilter 0 0]

theorem no_block_event_is_missed_sample :
    ∃ m, ((installFilter ++ (newHead 1 :: handleEvent ++ newHead 2 :: handleEvent)).foldl step
        (new 60 (numberedHeader 0))).manager.getFilterAndChanges "filter" =
      .ok (m, 0, .hashes [(numberedHeader 1).hash, (numberedHeader 2).hash]) :=
  no_block_event_is_missed 60 (numberedHeader 0) (by simp [installFilter]) rfl rfl rfl (by decide +kernel)
    (by simp [newHead, handleEvent]) (by decide +kernel) (by decide +kernel)

theorem second_event_is_dropped :
    let s := (installFilter ++ newHead 1 :: newHead 2 :: handleEvent ++ handleEvent).foldl step
      (new 60 (numberedHeader 0))
    s.Drained ∧ (s.manager.getFilterAndChanges "filter").map (·.2.2) =
      .ok (.hashes [(numberedHeader 1).hash]) := by
  decide +kernel

end System

end Nxchain.Jsonrpc
