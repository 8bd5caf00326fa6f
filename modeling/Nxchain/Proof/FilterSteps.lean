import Nxchain.Jsonrpc.EventLoop
import Nxchain.Lib.Except

namespace Nxchain.Jsonrpc

namespace BlockStream

variable {b : BlockStream} {k : Nat} {header : Header}

structure Linked (b : BlockStream) : Prop where
  head : b.head + 1 = b.elems.length
  next : ∀ i elem, b.elems[i]? = some elem →
    elem.next = if i + 1 < b.elems.length then some (i + 1) else none

def behind (b : BlockStream) (k : Nat) : List Header := (b.elems.drop (k + 1)).map (·.header)

theorem linked_new (header : Header) : (new header).Linked := by
  refine ⟨rfl, fun i elem h => ?_⟩
  obtain ⟨rfl, rfl⟩ : i = 0 ∧ elem = ⟨header, none⟩ := by
    cases i <;> simp_all [new]
  rfl

theorem length_push (b : BlockStream) (header : Header) : (b.push header).elems.length = b.elems.length + 1 := by
  simp [push]

theorem Linked.push (hb : b.Linked) (header : Header) : (b.push header).Linked := by
  refine ⟨by rw [length_push]; rfl, fun i elem helem => ?_⟩
  have hhead := hb.head
  have hnext := hb.next i
  simp only [BlockStream.push, List.getElem?_append, List.length_modify, List.getElem?_modify,
    List.length_append, List.length_singleton] at helem ⊢
  grind

theorem behind_push (hk : k < b.elems.length) (header : Header) :
    (b.push header).behind k = b.behind k ++ [header] := by
  have hdrop : k + 1 ≤ (b.elems.modify b.head fun elem => { elem with next := some b.elems.length }).length := by
    rw [List.length_modify]
    exact hk
  have hheaders : ∀ (elems : List HeadElem) (i : Nat) (next : Option Nat),
      (elems.modify i fun elem => { elem with next }).map (·.header) = elems.map (·.header) := by
    intro elems i next
    apply List.ext_getElem?
    intro j
    simp only [List.getElem?_map, List.getElem?_modify]
    cases elems[j]? <;> grind
  simp only [behind, push, List.drop_append_of_le_length hdrop, List.map_append, List.map_drop, hheaders,
    List.map_singleton]

theorem getUpdates_eq (hb : b.Linked) {rounds : Nat} (hk : k < b.elems.length)
    (hrounds : b.elems.length ≤ k + rounds) : b.getUpdates rounds k = (b.behind k, b.elems.length - 1) := by
  induction rounds generalizing k with
  | zero => omega
  | succ rounds ih =>
    have hnext := hb.next k _ (List.getElem?_eq_getElem hk)
    by_cases hmore : k + 1 < b.elems.length
    · have hbehind : b.behind k = b.elems[k + 1].header :: b.behind (k + 1) := by
        rw [behind, List.drop_eq_getElem_cons hmore, List.map_cons, behind]
      have hrest := ih hmore (by omega)
      simp [getUpdates, hk, hnext, hmore, hrest, hbehind]
    · have hbehind : b.behind k = [] := by simp [behind, List.drop_eq_nil_of_le (not_lt.mp hmore)]
      simp only [getUpdates, List.getElem?_eq_getElem hk, Option.bind_some, hnext, if_neg hmore, hbehind]
      rw [show k = b.elems.length - 1 by omega]

def Placed (b : BlockStream) (kinds : Ref → FilterKind) : Prop :=
  ∀ r elem, kinds r = .block elem → elem < b.elems.length

end BlockStream

namespace FilterManager

variable {m m' : FilterManager} {r : Ref}

theorem emitSignalToUpdateCh_eq (m : FilterManager) :
    ∃ worker, m.emitSignalToUpdateCh = { m with worker } ∧ worker.headers = m.worker.headers := by
  unfold emitSignalToUpdateCh
  split
  · rename_i hworker
    exact ⟨.peeking, rfl, by rw [hworker]; rfl⟩
  · exact ⟨m.worker, rfl, rfl⟩

theorem getUpdates_eq (m : FilterManager) (r : Ref) :
    ∃ kind, (m.getUpdates r).1 = { m with kinds := Function.update m.kinds r kind } ∧
      (m.blockStream.Linked → m.blockStream.Placed m.kinds →
        m.blockStream.Placed (Function.update m.kinds r kind)) := by
  unfold getUpdates
  split
  · rename_i k hkind
    refine ⟨_, rfl, fun hlinked hplaced x elem hx => ?_⟩
    have hk := hplaced r k hkind
    rw [BlockStream.getUpdates_eq hlinked hk (Nat.le_add_left _ _)] at hx
    by_cases hxr : x = r
    · subst hxr
      rw [Function.update_self] at hx
      have helem := FilterKind.block.inj hx
      omega
    · rw [Function.update_of_ne hxr] at hx
      exact hplaced x elem hx
  · refine ⟨_, rfl, fun _ hplaced x elem hx => ?_⟩
    by_cases hxr : x = r
    · subst hxr
      rw [Function.update_self] at hx
      cases hx
    · rw [Function.update_of_ne hxr] at hx
      exact hplaced x elem hx

def Collects (m m' : FilterManager) : Prop :=
  ∃ kinds, m' = { m with kinds } ∧ ∀ r elem, kinds r = .block elem ↔ m.kinds r = .block elem

theorem Collects.refl (m : FilterManager) : Collects m m := ⟨m.kinds, rfl, fun _ _ => Iff.rfl⟩

theorem Collects.trans {m'' : FilterManager} (h : Collects m m') (h' : Collects m' m'') : Collects m m'' := by
  obtain ⟨kinds, rfl, hkinds⟩ := h
  obtain ⟨kinds', rfl, hkinds'⟩ := h'
  exact ⟨kinds', rfl, fun r elem => (hkinds' r elem).trans (hkinds r elem)⟩

theorem appendLog_collects (m : FilterManager) (log : Log) (object : LogObject) (r : Ref) :
    Collects m (m.appendLog log object r) := by
  unfold appendLog
  split
  · exact .refl m
  · rename_i query logs hkind
    split
    · refine ⟨_, rfl, fun x elem => ?_⟩
      by_cases hx : x = r
      · subst hx
        simp [hkind]
      · rw [Function.update_of_ne hx]
    · exact .refl m

theorem foldl_collects {α : Type} {f : FilterManager → α → FilterManager} (hf : ∀ m a, Collects m (f m a))
    (m : FilterManager) (as : List α) : Collects m (as.foldl f m) :=
  List.foldlRecOn as f (.refl m) fun m' h a _ => h.trans (hf m' a)

theorem appendLogsToFilters_collects {store : Store} {header : Header}
    (happend : m.appendLogsToFilters store header = .ok m') : Collects m m' := by
  unfold appendLogsToFilters at happend
  split at happend
  · cases happend
    exact .refl m
  · dsimp only at happend
    split at happend
    · cases happend
      exact .refl m
    · split at happend
      · cases happend
        exact .refl m
      · refine Except.foldlM_inv (p := Collects m) ?_ (.refl m) happend
        rintro m₁ ⟨receipt, indx⟩ m₂ hcollects hstep
        obtain ⟨txHash, _, hstep⟩ := Except.bind_eq_ok_iff.mp hstep
        cases hstep
        exact hcollects.trans (foldl_collects (fun m₃ log =>
          foldl_collects (fun m₄ r => appendLog_collects m₄ log _ r) m₃ _) m₁ _)

theorem flushWsFilters_eq (m : FilterManager) (delivery : Ref → Delivery) :
    ∃ kinds, (m.flushWsFilters delivery).1 = { m with kinds } ∧
      (∀ r, (m.base r).ws = none → kinds r = m.kinds r) ∧
      (m.blockStream.Linked → m.blockStream.Placed m.kinds → m.blockStream.Placed kinds) := by
  have hws : ∀ r ∈ m.wsFilters, (m.base r).ws ≠ none := by
    intro r hr
    have hconn := (List.mem_filter.mp hr).2
    exact Option.isSome_iff_ne_none.mp hconn
  refine List.foldlRecOn (motive := fun m' => ∃ kinds, m' = { m with kinds } ∧
    (∀ r, (m.base r).ws = none → kinds r = m.kinds r) ∧
    (m.blockStream.Linked → m.blockStream.Placed m.kinds → m.blockStream.Placed kinds))
    m.wsFilters _ ⟨m.kinds, rfl, fun _ _ => rfl, fun _ hplaced => hplaced⟩ ?_
  rintro m' ⟨kinds, rfl, hkinds, hplaces⟩ x hx
  obtain ⟨kind, heq, hmoves⟩ := getUpdates_eq { m with kinds } x
  refine ⟨_, heq, fun r hr => ?_, fun hlinked hplaced => hmoves hlinked (hplaces hlinked hplaced)⟩
  have hne : r ≠ x := by
    rintro rfl
    exact hws r hx hr
  exact (Function.update_of_ne hne _ _).trans (hkinds r hr)

theorem addFilterTimeout_eq (m : FilterManager) (r : Ref) (now : Nat) :
    ∃ worker, m.addFilterTimeout r now = { m with
      timeouts := (m.timeouts.setExpiry r (now + m.timeout)).addFilter r, worker } ∧
      worker.headers = m.worker.headers :=
  emitSignalToUpdateCh_eq _

theorem getFilterAndChanges_eq_ok {id : FilterId} {updates : Updates}
    (hchanges : m.getFilterAndChanges id = .ok (m', r, updates)) :
    m.filters id = some r ∧ (m.base r).ws = none ∧ (m', updates) = m.getUpdates r := by
  unfold getFilterAndChanges at hchanges
  split at hchanges
  · cases hchanges
  · rename_i x hx
    split at hchanges
    · cases hchanges
    · rename_i hws
      obtain ⟨rfl, rfl, rfl⟩ : _ = m' ∧ x = r ∧ _ = updates := by simpa using hchanges
      exact ⟨hx, by simpa [FilterBase.hasWSConn] using hws, rfl⟩

theorem removeFilterByID_eq_ok {id : FilterId} {found : Bool} (hremove : m.removeFilterByID id = .ok (m', found)) :
    (m.filters id = none ∧ m' = m ∧ found = false) ∨
      ∃ r timeouts removed worker, m.filters id = some r ∧
        m.timeouts.removeFilter r = .ok (timeouts, removed) ∧ found = true ∧
        worker.headers = m.worker.headers ∧
        m' = { m with filters := Function.update m.filters id none, timeouts, worker } := by
  unfold removeFilterByID at hremove
  cases hr : m.filters id with
  | none =>
    rw [hr] at hremove
    cases hremove
    exact .inl ⟨rfl, rfl, rfl⟩
  | some r =>
    rw [hr] at hremove
    obtain ⟨⟨timeouts, removed⟩, htimeouts, hremove⟩ := Except.bind_eq_ok_iff.mp hremove
    cases hremove
    cases removed with
    | false => exact .inr ⟨r, timeouts, false, m.worker, rfl, htimeouts, rfl, rfl, rfl⟩
    | true =>
      obtain ⟨worker, heq, hheaders⟩ := emitSignalToUpdateCh_eq
        { m with filters := Function.update m.filters id none, timeouts }
      exact .inr ⟨r, timeouts, true, worker, rfl, htimeouts, rfl, hheaders, heq⟩

end FilterManager

structure Core where
  timeouts : TimeHeap
  allocated : Nat
  filters : FilterId → Option Ref
  created : List Ref
  polled : List Ref
  kinds : Ref → FilterKind
  stream : BlockStream
  inFlight : List Header

def System.core (s : System) : Core where
  timeouts := s.manager.timeouts
  allocated := s.manager.allocated
  filters := s.manager.filters
  created := s.created
  polled := s.polled
  kinds := s.manager.kinds
  stream := s.manager.blockStream
  inFlight := s.manager.worker.headers ++ (s.watched.map Event.newChain).getD [] ++
    s.channel.flatMap Event.newChain

namespace Core

inductive Remove : Core → Core → Prop
  | intro {c : Core} {id : FilterId} {r : Ref} {timeouts : TimeHeap} {removed : Bool}
      (hr : c.filters id = some r) (hremove : c.timeouts.removeFilter r = .ok (timeouts, removed)) :
      Remove c { c with filters := Function.update c.filters id none, timeouts }

inductive Step (a : Action) : Core → List Header → Core → Prop
  | same {c : Core} : Step a c [] c
  | push {c : Core} {headers : List Header} : Step a c headers { c with inFlight := c.inFlight ++ headers }
  | deliver {c : Core} {header : Header} {headers : List Header} {kinds : Ref → FilterKind}
      (hflight : c.inFlight = header :: headers)
      (hkinds : ∀ r elem, kinds r = .block elem ↔ c.kinds r = .block elem) :
      Step a c [] { c with kinds, stream := c.stream.push header, inFlight := headers }
  | flush {c : Core} {kinds : Ref → FilterKind}
      (hkinds : ∀ r, (c.timeouts.bases r).ws = none → kinds r = c.kinds r)
      (hplaces : c.stream.Linked → c.stream.Placed c.kinds → c.stream.Placed kinds) :
      Step a c [] { c with kinds }
  | create {c : Core} {id : FilterId} {ws : Option ConnId} {kind : FilterKind}
      (hfresh : ∀ r < c.allocated, (c.timeouts.bases r).id ≠ id)
      (hkind : ∀ elem, kind = .block elem → elem = c.stream.head) :
      Step a c [] { c with
        timeouts := { c.timeouts with
          bases := Function.update c.timeouts.bases c.allocated ⟨id, none, 0, ws⟩ }
        kinds := Function.update c.kinds c.allocated kind
        allocated := c.allocated + 1
        created := c.created ++ [c.allocated] }
  | addWs {c : Core} {r : Ref} (hr : r ∈ c.created) (hws : (c.timeouts.bases r).ws ≠ none) :
      Step a c [] { c with
        filters := Function.update c.filters (c.timeouts.bases r).id (some r)
        created := c.created.erase r }
  | add {c : Core} {r : Ref} {expiresAt : Nat} (hr : r ∈ c.created) :
      Step a c [] { c with
        timeouts := (c.timeouts.setExpiry r expiresAt).addFilter r
        filters := Function.update c.filters (c.timeouts.bases r).id (some r)
        created := c.created.erase r }
  | poll {c : Core} {id : FilterId} {r : Ref} {kind : FilterKind} (ha : a = .getFilterAndChanges id)
      (hr : c.filters id = some r)
      (hplaces : c.stream.Linked → c.stream.Placed c.kinds →
        c.stream.Placed (Function.update c.kinds r kind)) :
      Step a c [] { c with polled := r :: c.polled, kinds := Function.update c.kinds r kind }
  | refresh {c : Core} {r : Ref} {now expiresAt : Nat} {timeouts : TimeHeap} {removed : Bool}
      (ha : a = .refreshFilterTimeout r now) (hr : r ∈ c.polled)
      (hremove : c.timeouts.removeFilter r = .ok (timeouts, removed)) :
      Step a c [] { c with
        timeouts := (timeouts.setExpiry r expiresAt).addFilter r
        polled := c.polled.erase r }
  | remove {c c' : Core} (hremove : Relation.ReflTransGen Remove c c') : Step a c [] c'

end Core

namespace System

variable {s : System}

variable {manager : FilterManager} {r : Ref}

def accepts (s : System) : Action → List Header
  | .push event =>
    if s.panicked = none ∧ s.channel.length < subscriptionCapacity then event.newChain else []
  | _ => []

theorem core_worker {worker : Worker} (hheaders : worker.headers = s.manager.worker.headers) :
    { s with manager := { s.manager with worker } }.core = s.core := by
  simp only [core, hheaders]

theorem removeFilterByID_core {id : FilterId} {found : Bool}
    (hremove : s.manager.removeFilterByID id = .ok (manager, found)) :
    Relation.ReflTransGen Core.Remove s.core { s with manager }.core := by
  obtain ⟨_, rfl, _⟩ | ⟨r, timeouts, removed, worker, hr, htimeouts, _, hheaders, rfl⟩ :=
    FilterManager.removeFilterByID_eq_ok hremove
  · exact .refl
  · have hcore : ({ s with manager := { s.manager with
        filters := Function.update s.manager.filters id none, timeouts, worker } } : System).core =
        { s.core with filters := Function.update s.core.filters id none, timeouts } := by
      simp only [core, hheaders]
    rw [hcore]
    exact .single (.intro hr htimeouts)

theorem removeFilter_core (s : System) (id : FilterId) :
    Relation.ReflTransGen Core.Remove s.core (s.removeFilter id).core := by
  unfold removeFilter settle
  cases hremove : s.manager.removeFilterByID id with
  | error p => exact .refl
  | ok result =>
    exact removeFilterByID_core hremove

theorem removeClosedFilters_core {ids : List FilterId} (hremove : s.manager.removeClosedFilters ids = .ok manager) :
    Relation.ReflTransGen Core.Remove s.core { s with manager }.core := by
  refine Except.foldlM_inv
    (p := fun manager => Relation.ReflTransGen Core.Remove s.core { s with manager }.core) ?_ .refl hremove
  intro m id m' hm hstep
  obtain ⟨⟨_, found⟩, hremove, rfl⟩ := Except.map_eq_ok_iff.mp hstep
  have hnext : Relation.ReflTransGen Core.Remove ({ s with manager := m } : System).core _ :=
    removeFilterByID_core hremove
  exact hm.trans hnext

theorem offer_core (hpanic : s.panicked = none) (event : Event) :
    Core.Step (.push event) s.core (s.accepts (.push event)) { s with channel := offer s.channel event }.core := by
  dsimp only [accepts, offer]
  by_cases hroom : s.channel.length < subscriptionCapacity
  · have hcore : { s with channel := s.channel ++ [event] }.core =
        { s.core with inFlight := s.core.inFlight ++ event.newChain } := by
      simp [core]
    rw [if_pos ⟨hpanic, hroom⟩, if_pos hroom, hcore]
    exact .push
  · rw [if_neg fun h => hroom h.2, if_neg hroom]
    exact .same

theorem processHeader_core (s : System) (store : Store) :
    Core.Step (.processHeader store) s.core [] (s.work (.processHeader store)).core := by
  dsimp only [work]
  split
  · rename_i header headers hworker
    unfold settle
    split
    · exact .same
    · rename_i manager hprocess
      obtain ⟨kinds, rfl, hkinds⟩ := FilterManager.appendLogsToFilters_collects hprocess
      have hflight : s.core.inFlight = header :: (headers ++ (s.watched.map Event.newChain).getD [] ++
          s.channel.flatMap Event.newChain) := by
        simp [core, hworker, Worker.headers]
      exact .deliver hflight hkinds
  · exact .same

theorem flush_core (s : System) (delivery : Ref → FilterManager.Delivery) :
    Core.Step (.flushWsFilters delivery) s.core [] (s.work (.flushWsFilters delivery)).core := by
  dsimp only [work]
  split
  · rename_i hworker
    obtain ⟨kinds, heq, hkinds, hplaces⟩ := s.manager.flushWsFilters_eq delivery
    have hcore : { s with
        manager := { (s.manager.flushWsFilters delivery).1 with
          worker := .flushing (s.manager.flushWsFilters delivery).2 } }.core = { s.core with kinds } := by
      simp [heq, core, hworker, Worker.headers]
    exact hcore ▸ .flush hkinds hplaces
  · exact .same

theorem expiry_core {a : Action} (ha : a = .removeClosedFilters ∨ a = .timeoutFires) :
    Core.Step a s.core [] (s.work a).core := by
  rcases ha with rfl | rfl
  · dsimp only [work]
    split
    · rename_i ids hworker
      unfold settle
      split
      · exact .same
      · rename_i manager hremove
        have hcore : { s with manager := { s.manager with worker := .peeking } }.core = s.core :=
          core_worker (by rw [hworker]; rfl)
        have hremoved : Relation.ReflTransGen Core.Remove
            ({ s with manager := { s.manager with worker := .peeking } } : System).core _ :=
          removeClosedFilters_core hremove
        exact .remove (hcore ▸ hremoved)
    · exact .same
  · dsimp only [work]
    split
    · rename_i filterID hworker
      split
      · have hcore : { s with manager := { s.manager with worker := .peeking } }.core = s.core :=
          core_worker (by rw [hworker]; rfl)
        exact .remove (hcore ▸ removeFilter_core _ filterID)
      · exact .same
    · exact .same

theorem work_core {a : Action} (ha : a = .dispatchEvent ∨ a = .nextTimeoutFilter ∨ a = .close) :
    (s.work a).core = s.core := by
  rcases ha with rfl | rfl | rfl
  · dsimp only [work]
    split
    · rename_i filterID event hworker hwatched
      simp [core, Worker.headers, hworker, hwatched]
    · rfl
  · dsimp only [work]
    split
    · rename_i hworker
      simp [core, hworker, Worker.headers]
    · rfl
  · dsimp only [work]
    split
    · rename_i hworker
      exact core_worker (by rw [hworker]; rfl)
    · rfl

theorem addFilter_core {now : Nat} (hr : r ∈ s.created) :
    Core.Step (.addFilter r now) s.core []
      { s with manager := s.manager.addFilter r now, created := s.created.erase r }.core := by
  unfold FilterManager.addFilter
  dsimp only
  split
  · rename_i hws
    exact .addWs hr (Option.isSome_iff_ne_none.mp hws)
  · obtain ⟨worker, heq, hheaders⟩ := FilterManager.addFilterTimeout_eq { s.manager with
        filters := Function.update s.manager.filters (s.manager.base r).id (some r) } r now
    have hadd : Core.Step (.addFilter r now) s.core [] { s.core with
        timeouts := (s.manager.timeouts.setExpiry r (now + s.manager.timeout)).addFilter r
        filters := Function.update s.manager.filters (s.manager.base r).id (some r)
        created := s.created.erase r } := .add hr
    simp only [core, heq, hheaders] at hadd ⊢
    exact hadd

theorem poll_core {id : FilterId} {updates : Updates}
    (hchanges : s.manager.getFilterAndChanges id = .ok (manager, r, updates)) :
    Core.Step (.getFilterAndChanges id) s.core [] { s with manager, polled := r :: s.polled }.core := by
  obtain ⟨hr, _, hupdates⟩ := FilterManager.getFilterAndChanges_eq_ok hchanges
  obtain ⟨kind, heq, hplaces⟩ := s.manager.getUpdates_eq r
  obtain rfl : manager = _ := (congrArg Prod.fst hupdates).trans heq
  exact .poll rfl hr hplaces

theorem refresh_core {now : Nat} (hr : r ∈ s.polled)
    (hrefresh : s.manager.refreshFilterTimeout r now = .ok manager) :
    Core.Step (.refreshFilterTimeout r now) s.core []
      { s with manager, polled := s.polled.erase r }.core := by
  obtain ⟨⟨timeouts, removed⟩, hremove, hrefresh⟩ := Except.bind_eq_ok_iff.mp hrefresh
  obtain ⟨worker, heq, hheaders⟩ := FilterManager.addFilterTimeout_eq { s.manager with timeouts } r now
  obtain rfl : _ = manager := heq.symm.trans (Except.ok.inj hrefresh)
  have hrefreshed : Core.Step (.refreshFilterTimeout r now) s.core [] { s.core with
      timeouts := (timeouts.setExpiry r (now + s.manager.timeout)).addFilter r
      polled := s.polled.erase r } := .refresh rfl hr hremove
  simp only [core, hheaders] at hrefreshed ⊢
  exact hrefreshed

theorem step_core (s : System) (a : Action) : Core.Step a s.core (s.accepts a) (s.step a).core := by
  unfold step
  by_cases hpanic : s.panicked.isSome = true
  · have hnone : s.accepts a = [] := by
      cases a <;> simp [accepts, Option.isSome_iff_ne_none.mp hpanic]
    rw [if_pos hpanic, hnone]
    exact .same
  rw [if_neg hpanic]
  cases a with
  | push event => exact offer_core (by simpa using hpanic) event
  | getEvent =>
    dsimp only
    split
    · rename_i event channel hwatched hchannel
      have hcore : { s with watched := some event, channel }.core = s.core := by
        simp [core, hwatched, hchannel]
      rw [hcore]
      exact .same
    · exact .same
  | dispatchEvent => exact work_core (.inl rfl) ▸ .same
  | processHeader store => exact s.processHeader_core store
  | flushWsFilters delivery => exact s.flush_core delivery
  | removeClosedFilters => exact expiry_core (.inl rfl)
  | nextTimeoutFilter => exact work_core (.inr (.inl rfl)) ▸ .same
  | timeoutFires => exact expiry_core (.inr rfl)
  | close => exact work_core (.inr (.inr rfl)) ▸ .same
  | newBlockFilter id ws =>
    dsimp only
    split
    · rename_i hfresh
      exact .create hfresh fun elem helem => (FilterKind.block.inj helem).symm
    · exact .same
  | newLogFilter id query ws =>
    dsimp only
    split
    · rename_i hfresh
      exact .create hfresh fun elem helem => by cases helem
    · exact .same
  | addFilter r now =>
    dsimp only
    split
    · rename_i hr
      exact addFilter_core hr
    · exact .same
  | getFilterAndChanges id =>
    dsimp only
    split
    · exact .same
    · rename_i manager r updates hchanges
      exact poll_core hchanges
  | refreshFilterTimeout r now =>
    dsimp only
    split
    · rename_i hr
      split
      · exact .same
      · rename_i manager hrefresh
        exact refresh_core hr hrefresh
    · exact .same
  | uninstall id => exact .remove (s.removeFilter_core id)
  | removeFilterByWs conn => exact .remove (s.removeFilter_core _)

end System

end Nxchain.Jsonrpc
