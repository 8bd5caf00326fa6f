import Nxchain.Lib.IndexedHeap
import Nxchain.Proof.FilterSteps

namespace Nxchain.Jsonrpc

namespace TimeHeap

variable {t : TimeHeap} {r : Ref}

def Indexed (t : TimeHeap) : Prop := ∀ r i, (t.bases r).heapIndex = some i ↔ t.entries[i]? = some r

def indexField : IndexField FilterBase :=
  ⟨FilterBase.heapIndex, fun b heapIndex => { b with heapIndex }, fun _ _ => rfl, fun _ _ _ => rfl⟩

def pointers (t : TimeHeap) : Pointers Ref FilterBase := ⟨t.entries, t.bases⟩

theorem pointers_swap (i j : Nat) : (t.swap i j).pointers = t.pointers.swap indexField i j := by
  unfold swap Pointers.swap pointers
  cases t.entries[i]? <;> cases t.entries[j]? <;> rfl

theorem shows_pointers : Pointers.Shows indexField interface pointers :=
  ⟨fun _ => rfl, fun _ => pointers_swap⟩

theorem pointers_pop : t.pop.pointers = t.pointers.pop indexField := by
  unfold pop Pointers.pop pointers
  cases t.entries.getLast? <;> rfl

theorem Indexed.pointers (ht : t.Indexed) : Pointers.Indexed indexField t.pointers := ht

theorem Indexed.nodup (ht : t.Indexed) : t.entries.Nodup := ht.pointers.nodup

structure Changes (t u : TimeHeap) (xs : List Ref) : Prop where
  indexed : u.Indexed
  perm : u.entries.Perm xs
  id_eq : ∀ r, (u.bases r).id = (t.bases r).id
  ws_eq : ∀ r, (u.bases r).ws = (t.bases r).ws

theorem Changes.of_pointers {u : TimeHeap} {xs : List Ref}
    (h : Pointers.Changes indexField t.pointers u.pointers xs) : Changes t u xs :=
  ⟨h.indexed, h.perm, fun x => (congrArg FilterBase.id (h.same x) :),
    fun x => (congrArg FilterBase.ws (h.same x) :)⟩

variable (ht : t.Indexed)

include ht

theorem addFilter_setExpiry_adds (hr : r ∉ t.entries) (expiresAt : Nat) :
    Changes t ((t.setExpiry r expiresAt).addFilter r) (r :: t.entries) := by
  let due := t.setExpiry r expiresAt
  have hne : ∀ x ≠ r, due.bases x = t.bases x := fun x hx => Function.update_of_ne hx ..
  have hpush : Pointers.Changes indexField due.pointers (due.push r).pointers (r :: t.entries) := by
    refine Pointers.push_changes (fun x hx i => ?_) hr
    rw [show due.pointers.cell x = t.bases x from hne x hx]
    exact ht x i
  have hlen : 0 < interface.len (due.push r) := by simp [interface, push, setIndex]
  have hadds := Changes.of_pointers (shows_pointers.raiseLast hpush hlen)
  have hsame : ∀ x, (due.bases x).id = (t.bases x).id ∧ (due.bases x).ws = (t.bases x).ws := by
    intro x
    rcases eq_or_ne x r with rfl | hx
    · simp [due, setExpiry]
    · simp [hne x hx]
  exact ⟨hadds.indexed, hadds.perm, fun x => (hadds.id_eq x).trans (hsame x).1,
    fun x => (hadds.ws_eq x).trans (hsame x).2⟩

theorem removeFilter_removes (r : Ref) :
    ∃ u, t.removeFilter r = .ok (u, decide (r ∈ t.entries)) ∧ Changes t u (t.entries.erase r) := by
  unfold removeFilter
  cases hindex : (t.bases r).heapIndex with
  | none =>
    have hr : r ∉ t.entries := fun hr => ht.pointers.mem_iff.mp hr hindex
    exact ⟨t, by simp [hr], ht, by rw [List.erase_of_not_mem hr], fun _ => rfl, fun _ => rfl⟩
  | some i =>
    have hi : t.entries[i]? = some r := (ht r i).mp hindex
    obtain ⟨hlt, _⟩ := List.getElem?_eq_some_iff.mp hi
    have hpop := (shows_pointers.sink ht.pointers hi).pop
    rw [← pointers_pop] at hpop
    exact ⟨_, by simp [hlt, List.mem_of_getElem? hi], .of_pointers hpop⟩

theorem removeFilter_spec {u : TimeHeap} {removed : Bool} (hremove : t.removeFilter r = .ok (u, removed)) :
    u.Indexed ∧ (∀ x, x ∈ u.entries ↔ x ≠ r ∧ x ∈ t.entries) ∧
      (∀ x, (u.bases x).id = (t.bases x).id) ∧ ∀ x, (u.bases x).ws = (t.bases x).ws := by
  obtain ⟨_, heq, hremoves⟩ := removeFilter_removes ht r
  obtain rfl : _ = u := congrArg Prod.fst (Except.ok.inj (heq.symm.trans hremove))
  exact ⟨hremoves.indexed, fun x => hremoves.perm.mem_iff.trans ht.nodup.mem_erase_iff, hremoves.id_eq,
    hremoves.ws_eq⟩

theorem refresh_spec {u : TimeHeap} {removed : Bool} (hremove : t.removeFilter r = .ok (u, removed))
    (expiresAt : Nat) :
    ((u.setExpiry r expiresAt).addFilter r).Indexed ∧
      (∀ x, x ∈ ((u.setExpiry r expiresAt).addFilter r).entries ↔ x = r ∨ x ∈ t.entries) ∧
      (∀ x, (((u.setExpiry r expiresAt).addFilter r).bases x).id = (t.bases x).id) ∧
      ∀ x, (((u.setExpiry r expiresAt).addFilter r).bases x).ws = (t.bases x).ws := by
  obtain ⟨hu, hmem, hid, hws⟩ := removeFilter_spec ht hremove
  have hr : r ∉ u.entries := fun hr => ((hmem r).mp hr).1 rfl
  have hadds := addFilter_setExpiry_adds hu hr expiresAt
  refine ⟨hadds.indexed, fun x => ?_, fun x => (hadds.id_eq x).trans (hid x),
    fun x => (hadds.ws_eq x).trans (hws x)⟩
  rw [hadds.perm.mem_iff, List.mem_cons, hmem x]
  tauto

end TimeHeap

namespace Core

variable {c c' : Core} {a : Action} {gives : List Header}

structure Inv (c : Core) : Prop where
  indexed : c.timeouts.Indexed
  entries_lt : ∀ r ∈ c.timeouts.entries, r < c.allocated
  id_inj : ∀ r < c.allocated, ∀ x < c.allocated, (c.timeouts.bases r).id = (c.timeouts.bases x).id → r = x
  filters_lt : ∀ id r, c.filters id = some r → r < c.allocated ∧ (c.timeouts.bases r).id = id
  filters_mem : ∀ id r, c.filters id = some r → (c.timeouts.bases r).ws = none → r ∈ c.timeouts.entries
  created_lt : ∀ r ∈ c.created, r < c.allocated ∧ r ∉ c.timeouts.entries ∧ r ∉ c.polled
  created_ne : ∀ r ∈ c.created, ∀ id, c.filters id ≠ some r
  created_nodup : c.created.Nodup
  polled_lt : ∀ r ∈ c.polled, r < c.allocated

section

variable (hc : c.Inv)

include hc

theorem Inv.create {id : FilterId} {ws : Option ConnId} {kinds : Ref → FilterKind}
    (hfresh : ∀ r < c.allocated, (c.timeouts.bases r).id ≠ id) :
    Inv { c with
      timeouts := { c.timeouts with
        bases := Function.update c.timeouts.bases c.allocated ⟨id, none, 0, ws⟩ }
      kinds
      allocated := c.allocated + 1
      created := c.created ++ [c.allocated] } := by
  obtain ⟨hindexed, hentries, hid, hfilters, hmem, hcreated, hne, hnodup, hpolled⟩ := hc
  refine ⟨fun r i => ?_, fun r hr => ?_, fun r hr x hx => ?_, fun id' r hr => ?_, fun id' r hr => ?_,
    fun r hr => ?_, fun r hr id' => ?_, ?_, fun r hr => ?_⟩
  · have hr := hindexed r i
    grind
  all_goals grind

theorem Inv.add {r : Ref} {expiresAt : Nat} (hr : r ∈ c.created) :
    Inv { c with
      timeouts := (c.timeouts.setExpiry r expiresAt).addFilter r
      filters := Function.update c.filters (c.timeouts.bases r).id (some r)
      created := c.created.erase r } := by
  obtain ⟨hindexed, hentries, hid, hfilters, hmem, hcreated, hne, hnodup, hpolled⟩ := hc
  obtain ⟨hindexed', hperm, hid_eq, hws_eq⟩ :=
    TimeHeap.addFilter_setExpiry_adds hindexed (hcreated r hr).2.1 expiresAt
  refine ⟨hindexed', fun x hx => ?_, fun x hx y hy => ?_, fun id x hx => ?_, fun id x hx => ?_,
    fun x hx => ?_, fun x hx id => ?_, hnodup.erase r, hpolled⟩
  all_goals grind

theorem Inv.addWs {r : Ref} (hr : r ∈ c.created) (hws : (c.timeouts.bases r).ws ≠ none) :
    Inv { c with
      filters := Function.update c.filters (c.timeouts.bases r).id (some r)
      created := c.created.erase r } := by
  obtain ⟨hindexed, hentries, hid, hfilters, hmem, hcreated, hne, hnodup, hpolled⟩ := hc
  refine ⟨hindexed, hentries, hid, fun id x hx => ?_, fun id x hx => ?_, fun x hx => ?_,
    fun x hx id => ?_, hnodup.erase r, hpolled⟩
  all_goals grind

theorem Inv.poll {id : FilterId} {r : Ref} {kinds : Ref → FilterKind} (hr : c.filters id = some r) :
    Inv { c with polled := r :: c.polled, kinds } := by
  obtain ⟨hindexed, hentries, hid, hfilters, hmem, hcreated, hne, hnodup, hpolled⟩ := hc
  refine ⟨hindexed, hentries, hid, hfilters, hmem, fun x hx => ?_, hne, hnodup, fun x hx => ?_⟩
  all_goals grind

theorem Inv.refresh {r : Ref} {expiresAt : Nat} {timeouts : TimeHeap} {removed : Bool} (hr : r ∈ c.polled)
    (hremove : c.timeouts.removeFilter r = .ok (timeouts, removed)) :
    Inv { c with
      timeouts := (timeouts.setExpiry r expiresAt).addFilter r
      polled := c.polled.erase r } := by
  obtain ⟨hindexed, hentries, hid, hfilters, hmem, hcreated, hne, hnodup, hpolled⟩ := hc
  obtain ⟨hindexed', hmem_iff, hid_eq, hws_eq⟩ := TimeHeap.refresh_spec hindexed hremove expiresAt
  have hsub : ∀ x ∈ c.polled.erase r, x ∈ c.polled := fun x hx => List.mem_of_mem_erase hx
  refine ⟨hindexed', fun x hx => ?_, fun x hx y hy => ?_, fun id x hx => ?_, fun id x hx => ?_,
    fun x hx => ?_, hne, hnodup, fun x hx => hpolled x (hsub x hx)⟩
  all_goals grind

theorem Inv.remove (hremove : Remove c c') : c'.Inv := by
  obtain ⟨hindexed, hentries, hid, hfilters, hmem, hcreated, hne, hnodup, hpolled⟩ := hc
  obtain ⟨hr, hremove⟩ := hremove
  obtain ⟨hindexed', hmem_iff, hid_eq, hws_eq⟩ := TimeHeap.removeFilter_spec hindexed hremove
  refine ⟨hindexed', fun x hx => ?_, fun x hx y hy => ?_, fun id x hx => ?_, fun id x hx => ?_,
    fun x hx => ?_, fun x hx id => ?_, hnodup, hpolled⟩
  all_goals grind

theorem Inv.step (hstep : Step a c gives c') : c'.Inv := by
  cases hstep with
  | same => exact hc
  | push => exact ⟨hc.1, hc.2, hc.3, hc.4, hc.5, hc.6, hc.7, hc.8, hc.9⟩
  | deliver => exact ⟨hc.1, hc.2, hc.3, hc.4, hc.5, hc.6, hc.7, hc.8, hc.9⟩
  | flush => exact ⟨hc.1, hc.2, hc.3, hc.4, hc.5, hc.6, hc.7, hc.8, hc.9⟩
  | create hfresh => exact hc.create hfresh
  | addWs hr hws => exact hc.addWs hr hws
  | add hr => exact hc.add hr
  | poll _ hr _ => exact hc.poll hr
  | refresh _ hr hremove => exact hc.refresh hr hremove
  | remove hremove =>
    induction hremove with
    | refl => exact hc
    | tail _ hlast ih => exact ih.remove hlast

end

def Live (c : Core) : Prop := ∀ r ∈ c.timeouts.entries, c.filters (c.timeouts.bases r).id = some r

theorem Live.remove (hlive : c.Live) (hc : c.Inv) (hremove : Remove c c') : c'.Live := by
  obtain ⟨hr, hremove⟩ := hremove
  obtain ⟨hindexed', hmem_iff, hid_eq, hws_eq⟩ := TimeHeap.removeFilter_spec hc.indexed hremove
  intro x hx
  have hx' := hlive x
  grind

theorem Live.step (hlive : c.Live) (hc : c.Inv) (hstep : Step a c gives c')
    (ha : ∀ r now, a = .refreshFilterTimeout r now → c.filters (c.timeouts.bases r).id = some r) : c'.Live := by
  cases hstep with
  | same => exact hlive
  | push => exact hlive
  | deliver => exact hlive
  | flush => exact hlive
  | create hfresh =>
    intro r hr
    have hne : r ≠ c.allocated := (hc.entries_lt r hr).ne
    simpa [hne] using hlive r hr
  | addWs hr =>
    intro x hx
    have hx' := hlive x hx
    have hcreated := hc.created_lt _ hr
    have hlt := hc.entries_lt x hx
    have hid := hc.id_inj
    grind
  | @add r expiresAt hr =>
    obtain ⟨hlt, hnotin, _⟩ := hc.created_lt r hr
    obtain ⟨hindexed', hperm, hid_eq, hws_eq⟩ := TimeHeap.addFilter_setExpiry_adds hc.indexed hnotin expiresAt
    intro x hx
    have hx' := hlive x
    have hxlt := hc.entries_lt x
    have hid := hc.id_inj
    grind
  | poll => exact hlive
  | @refresh r now expiresAt timeouts removed hrefresh hr hremove =>
    obtain ⟨hindexed', hmem_iff, hid_eq, hws_eq⟩ := TimeHeap.refresh_spec hc.indexed hremove expiresAt
    intro x hx
    have hx' := hlive x
    grind
  | remove hremove =>
    have hboth : c'.Live ∧ c'.Inv := by
      induction hremove with
      | refl => exact ⟨hlive, hc⟩
      | tail _ hlast ih => exact ⟨ih.1.remove ih.2 hlast, ih.2.remove hlast⟩
    exact hboth.1

end Core

namespace System

variable {s : System} {timeout : Nat} {header : Header} {actions : List Action}

theorem inv_new (timeout : Nat) (header : Header) : (new timeout header).core.Inv := by
  constructor <;> simp [new, core, FilterManager.new, TimeHeap.Indexed]

theorem inv_step (hs : s.core.Inv) (a : Action) : (s.step a).core.Inv := hs.step (s.step_core a)

theorem inv_run (hs : s.core.Inv) (actions : List Action) : (actions.foldl step s).core.Inv :=
  List.foldlRecOn (motive := fun s => s.core.Inv) actions step hs fun _ hs a _ => inv_step hs a

theorem removeFilterByID_shrinks (hs : s.core.Inv) {id : FilterId} {r : Ref}
    (hfilter : s.manager.filters id = some r) (hr : r ∈ s.manager.timeouts.entries) :
    ∃ m, s.manager.removeFilterByID id = .ok (m, true) ∧
      m.timeouts.entries.length + 1 = s.manager.timeouts.entries.length := by
  obtain ⟨u, hremove, hremoves⟩ := TimeHeap.removeFilter_removes hs.indexed r
  have hlength : u.entries.length + 1 = s.manager.timeouts.entries.length := by
    rw [hremoves.perm.length_eq]
    exact List.length_erase_add_one hr
  obtain ⟨m, hok⟩ : ∃ m, s.manager.removeFilterByID id = .ok (m, true) := by
    rw [FilterManager.removeFilterByID, hfilter]
    exact ⟨_, Except.bind_eq_ok hremove rfl⟩
  refine ⟨m, hok, ?_⟩
  obtain ⟨hnone, _⟩ | ⟨x, timeouts, removed, worker, hx, htimeouts, _, _, rfl⟩ :=
    FilterManager.removeFilterByID_eq_ok hok
  · rw [hfilter] at hnone
    cases hnone
  · obtain rfl : r = x := Option.some.inj (hfilter.symm.trans hx)
    obtain rfl : u = timeouts := congrArg Prod.fst (Except.ok.inj (hremove.symm.trans htimeouts))
    exact hlength

def RefreshesInstalled (s : System) : Action → Prop
  | .refreshFilterTimeout r _ => s.manager.filters (s.manager.base r).id = some r
  | _ => True

instance (s : System) (a : Action) : Decidable (s.RefreshesInstalled a) := by
  unfold RefreshesInstalled
  split <;> infer_instance

theorem live_run (hs : s.core.Inv) (hlive : s.core.Live) (hrun : Runs.Along step RefreshesInstalled s actions) :
    (actions.foldl step s).core.Live := by
  induction actions generalizing s with
  | nil => exact hlive
  | cons a actions ih =>
    refine ih (inv_step hs a) (hlive.step hs (s.step_core a) ?_) hrun.2
    rintro r now rfl
    exact hrun.1

theorem live_new (timeout : Nat) (header : Header) : (new timeout header).core.Live := by
  simp [Core.Live, new, core, FilterManager.new]

theorem filter_timeouts_stay_consistent (timeout : Nat) (header : Header)
    (hrun : Runs.Along step RefreshesInstalled (new timeout header) actions) :
    let m := (actions.foldl step (new timeout header)).manager
    (∀ r ∈ m.timeouts.entries, m.filters (m.base r).id = some r) ∧
      m.timeouts.entries.Nodup ∧
      (∀ i r, m.timeouts.entries[i]? = some r → (m.base r).heapIndex = some i) ∧
      (∀ id r, m.filters id = some r → (m.base r).ws = none → ∃ m', m.removeFilterByID id = .ok (m', true) ∧
          m'.timeouts.entries.length + 1 = m.timeouts.entries.length) ∧
      (m.timeouts.entries ≠ [] → ∃ m', m.removeFilterByID m.nextTimeoutFilter = .ok (m', true) ∧
          m'.timeouts.entries.length + 1 = m.timeouts.entries.length) := by
  intro m
  have hinv := inv_run (inv_new timeout header) actions
  have hlive := live_run (inv_new timeout header) (live_new timeout header) hrun
  refine ⟨hlive, hinv.indexed.nodup, fun i r => (hinv.indexed r i).mpr, fun id r hr hws => ?_, fun hne => ?_⟩
  · exact removeFilterByID_shrinks hinv hr (hinv.filters_mem id r hr hws)
  · obtain ⟨r, rest, hentries⟩ := List.exists_cons_of_ne_nil hne
    have hr : r ∈ m.timeouts.entries := hentries ▸ List.mem_cons_self
    have hnext : m.nextTimeoutFilter = (m.base r).id := by
      rw [FilterManager.nextTimeoutFilter, hentries]
    rw [hnext]
    exact removeFilterByID_shrinks hinv (hlive r hr) hr

def numberedHeader (number : Nat) : Header where
  parentHash := zeroHash
  sha3Uncles := zeroHash
  miner := []
  stateRoot := zeroHash
  txRoot := zeroHash
  receiptsRoot := zeroHash
  logsBloom := FixedBytes.zero 256
  difficulty := 1
  number
  gasLimit := 0
  gasUsed := 0
  timestamp := 0
  extraData := []
  mixHash := zeroHash
  nonce := FixedBytes.zero 8
  hash := FixedBytes.ofBytes 32 [UInt8.ofNat number]

def pollTwice : List Action :=
  [.newBlockFilter "filter" none, .addFilter 0 0, .getFilterAndChanges "filter",
    .getFilterAndChanges "filter", .refreshFilterTimeout 0 1, .refreshFilterTimeout 0 2]

theorem filter_timeouts_stay_consistent_pollTwice :
    (pollTwice.foldl step (new 60 (numberedHeader 0))).manager.timeouts.entries.Nodup :=
  have hrun : Runs.Along step RefreshesInstalled (new 60 (numberedHeader 0)) pollTwice := by decide +kernel
  (filter_timeouts_stay_consistent 60 (numberedHeader 0) hrun).2.1

def lateRefresh : List Action :=
  [.newBlockFilter "filter" none, .addFilter 0 0, .getFilterAndChanges "filter", .uninstall "filter",
    .refreshFilterTimeout 0 1]

theorem refreshed_after_removal : let s := lateRefresh.foldl step (new 60 (numberedHeader 0))
    s.manager.timeouts.entries = [0] ∧ s.manager.filters (s.manager.base 0).id = none ∧
      s.manager.nextTimeoutFilter = "filter" ∧
      (s.manager.removeFilterByID s.manager.nextTimeoutFilter).map (fun result =>
        (result.1.timeouts.entries, result.2)) = .ok ([0], false) := by
  decide +kernel

end System

end Nxchain.Jsonrpc
