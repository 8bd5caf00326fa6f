import Nxchain.DialQueue
import Nxchain.Lib.IndexedHeap
import Nxchain.Lib.Runs

namespace Nxchain.Dial

namespace DialQueueImpl

variable {t : DialQueueImpl} {r : TaskRef} {i : Nat}

def indexField : IndexField DialTask :=
  ⟨DialTask.index, fun b index => { b with index }, fun _ _ => rfl, fun _ _ _ => rfl⟩

def pointers (t : DialQueueImpl) : Pointers TaskRef DialTask := ⟨t.entries, t.task⟩

theorem pointers_swap (i j : Nat) : (t.swap i j).pointers = t.pointers.swap indexField i j := by
  unfold swap Pointers.swap pointers
  cases t.entries[i]? <;> cases t.entries[j]? <;> rfl

theorem shows_pointers : Pointers.Shows indexField interface pointers :=
  ⟨fun _ => rfl, fun _ => pointers_swap⟩

theorem pointers_pop : t.pop.pointers = t.pointers.pop indexField := by
  unfold pop Pointers.pop pointers
  cases t.entries.getLast? <;> rfl

abbrev Changes (t u : DialQueueImpl) (xs : List TaskRef) : Prop :=
  Pointers.Changes indexField t.pointers u.pointers xs

theorem Changes.peer_eq {u : DialQueueImpl} {xs : List TaskRef} (h : Changes t u xs) (x : TaskRef) :
    (u.task x).peer = (t.task x).peer :=
  (congrArg DialTask.peer (h.same x) :)

theorem sinkFirst_changes (ht : t.pointers.Indexed indexField) (hr : t.entries.head? = some r) :
    (interface.sinkFirst t).entries.getLast? = some r ∧
      Changes t (interface.sinkFirst t).pop (t.entries.erase r) := by
  have hsinks := shows_pointers.sinkFirst ht hr
  have hlen : (interface.sinkFirst t).entries.length = t.entries.length := hsinks.perm.length_eq
  rw [Changes, pointers_pop, List.getLast?_eq_getElem?, hlen]
  exact ⟨hsinks.last, hsinks.pop⟩

end DialQueueImpl

namespace DialQueue

variable {d : DialQueue} {peer : PeerId} {r : TaskRef}

structure Inv (d : DialQueue) : Prop where
  indexed : d.heap.pointers.Indexed DialQueueImpl.indexField
  entries_lt : ∀ r ∈ d.heap.entries, r < d.allocated

structure Drops (d d' : DialQueue) (r : TaskRef) : Prop where
  inv : d'.Inv
  mem_iff : ∀ x, x ∈ d'.heap.entries ↔ x ≠ r ∧ x ∈ d.heap.entries
  peers : ∀ x, (d'.heap.task x).peer = (d.heap.task x).peer

theorem Inv.drops (h : d.Inv) {heap : DialQueueImpl} (hchanges : d.heap.Changes heap (d.heap.entries.erase r))
    (tasks : PeerId → Option TaskRef) : Drops d { d with heap, tasks } r := by
  have hmem : ∀ x, x ∈ heap.entries ↔ x ≠ r ∧ x ∈ d.heap.entries := fun x => hchanges.mem_erase_iff h.indexed
  exact ⟨⟨hchanges.indexed, fun x hx => h.entries_lt x ((hmem x).mp hx).2⟩, hmem, hchanges.peer_eq⟩

theorem Inv.popTaskImpl (h : d.Inv) :
    (d.popTaskImpl = (none, d)) ∨
      ∃ r ∈ d.heap.entries, d.popTaskImpl.1 = some r ∧ Drops d d.popTaskImpl.2 r ∧
        d.popTaskImpl.2.tasks = d.tasks := by
  unfold DialQueue.popTaskImpl
  cases hhead : d.heap.entries.head? with
  | none =>
    rw [List.head?_eq_none_iff] at hhead
    exact .inl (by simp [hhead])
  | some r =>
    have hmem : r ∈ d.heap.entries := List.mem_of_mem_head? hhead
    have hlen : d.heap.entries.length ≠ 0 := (List.length_pos_of_mem hmem).ne'
    obtain ⟨hlast, hchanges⟩ := DialQueueImpl.sinkFirst_changes h.indexed hhead
    rw [if_pos hlen]
    exact .inr ⟨r, hmem, hlast, h.drops hchanges d.tasks, rfl⟩

theorem Inv.deleteTask (h : d.Inv) (peer : PeerId) :
    (d.tasks peer = none ∧ d.deleteTask peer = d) ∨
      ∃ item, d.tasks peer = some item ∧ Drops d (d.deleteTask peer) item ∧
        (d.deleteTask peer).tasks = Function.update d.tasks peer none := by
  unfold DialQueue.deleteTask
  cases hitem : d.tasks peer with
  | none => exact .inl ⟨rfl, rfl⟩
  | some item =>
    refine .inr ⟨item, rfl, ?_, rfl⟩
    dsimp only
    cases hindex : (d.heap.task item).index with
    | none =>
      have hpopped : item ∉ d.heap.entries := fun hqueued => h.indexed.mem_iff.mp hqueued hindex
      refine ⟨⟨h.indexed, h.entries_lt⟩, fun x => ?_, fun _ => rfl⟩
      exact ⟨fun hx => ⟨fun heq => hpopped (heq ▸ hx), hx⟩, And.right⟩
    | some i =>
      have hi : d.heap.entries[i]? = some item := (h.indexed item i).mp hindex
      refine h.drops ?_ _
      rw [DialQueueImpl.Changes, DialQueueImpl.pointers_pop]
      exact (DialQueueImpl.shows_pointers.sink h.indexed hi).pop

theorem Inv.addTask (h : d.Inv) (peer : PeerId) (priority : Nat) :
    (d.addTask peer priority).Inv ∧
      (∀ x, x ∈ (d.addTask peer priority).heap.entries ↔ x = d.allocated ∨ x ∈ d.heap.entries) ∧
      ((d.addTask peer priority).heap.task d.allocated).peer = peer ∧
      ∀ x ∈ d.heap.entries,
        ((d.addTask peer priority).heap.task x).peer = (d.heap.task x).peer := by
  have hfresh : d.allocated ∉ d.heap.entries := fun hmem => (h.entries_lt _ hmem).false
  have hne : ∀ x ∈ d.heap.entries, x ≠ d.allocated := fun x hx heq => hfresh (heq ▸ hx)
  let heap := { d.heap with task := Function.update d.heap.task d.allocated ⟨some 0, peer, priority⟩ }
  have hpush : heap.Changes (heap.push d.allocated) (d.allocated :: d.heap.entries) := by
    refine Pointers.push_changes (fun x hx i => ?_) hfresh
    have hcell : heap.pointers.cell x = d.heap.pointers.cell x := Function.update_of_ne hx ..
    rw [hcell]
    exact h.indexed x i
  have hadds : heap.Changes (d.addTask peer priority).heap (d.allocated :: d.heap.entries) :=
    DialQueueImpl.shows_pointers.raiseLast hpush
      (by simp [DialQueueImpl.interface, DialQueueImpl.push, DialQueueImpl.setIndex])
  have hmem : ∀ x, x ∈ (d.addTask peer priority).heap.entries ↔ x = d.allocated ∨ x ∈ d.heap.entries :=
    fun x => hadds.perm.mem_iff.trans List.mem_cons
  refine ⟨⟨hadds.indexed, fun x hx => ?_⟩, hmem, ?_, fun x hx => ?_⟩
  · rcases (hmem x).mp hx with rfl | hx
    · exact Nat.lt_succ_self _
    · exact (h.entries_lt x hx).trans (Nat.lt_succ_self _)
  · exact (hadds.peer_eq _).trans (by simp [heap])
  · exact (hadds.peer_eq x).trans (by simp [heap, hne x hx])

theorem inv_new : new.Inv := ⟨fun _ _ => by simp [DialQueueImpl.pointers, DialQueueImpl.indexField, new], by simp [new]⟩

theorem Inv.step (h : d.Inv) (call : DialCall) : (d.step call).Inv := by
  cases call with
  | addTask peer priority => exact (h.addTask peer priority).1
  | deleteTask peer =>
    obtain ⟨-, heq⟩ | ⟨item, -, hdrops, -⟩ := h.deleteTask peer
    · rw [DialQueue.step, heq]
      exact h
    · exact hdrops.inv
  | popTaskImpl =>
    obtain heq | ⟨r, -, -, hdrops, -⟩ := h.popTaskImpl
    · rw [DialQueue.step, heq]
      exact h
    · exact hdrops.inv

def Queued (d : DialQueue) (peer : PeerId) : Prop := ∃ r ∈ d.heap.entries, (d.heap.task r).peer = peer

instance : Decidable (d.Queued peer) :=
  inferInstanceAs (Decidable (∃ r ∈ d.heap.entries, (d.heap.task r).peer = peer))

theorem Drops.queued {d' : DialQueue} (h : Drops d d' r) (hqueued : d'.Queued peer) : d.Queued peer := by
  obtain ⟨x, hx, hpeer⟩ := hqueued
  exact ⟨x, ((h.mem_iff x).mp hx).2, h.peers x ▸ hpeer⟩

theorem Inv.queued_of_step (h : d.Inv) {call : DialCall} (hqueued : (d.step call).Queued peer)
    (hcall : ∀ priority, call ≠ .addTask peer priority) : d.Queued peer := by
  cases call with
  | addTask other priority =>
    obtain ⟨-, hmem, hnew, hold⟩ := h.addTask other priority
    obtain ⟨x, hx, hpeer⟩ := hqueued
    rcases (hmem x).mp hx with rfl | hx
    · exact absurd (hnew.symm.trans hpeer) fun heq => hcall priority (heq ▸ rfl)
    · exact ⟨x, hx, hold x hx ▸ hpeer⟩
  | deleteTask other =>
    obtain ⟨-, heq⟩ | ⟨item, -, hdrops, -⟩ := h.deleteTask other
    · exact heq ▸ hqueued
    · exact hdrops.queued hqueued
  | popTaskImpl =>
    obtain heq | ⟨r, -, -, hdrops, -⟩ := h.popTaskImpl
    · rw [DialQueue.step, heq] at hqueued
      exact hqueued
    · exact hdrops.queued hqueued

theorem Inv.queued_of_mem_pops (h : d.Inv) {call : DialCall} (hpeer : peer ∈ d.pops call) : d.Queued peer := by
  cases call with
  | addTask => cases hpeer
  | deleteTask => cases hpeer
  | popTaskImpl =>
    obtain heq | ⟨r, hr, heq, -, -⟩ := h.popTaskImpl
    · simp [pops, heq] at hpeer
    · simp only [pops, heq, Option.toList_some, List.map_cons, List.map_nil, List.mem_singleton] at hpeer
      exact ⟨r, hr, hpeer.symm⟩

theorem Inv.not_popped (h : d.Inv) (hpeer : ¬ d.Queued peer) {calls : List DialCall}
    (hcalls : ∀ priority, .addTask peer priority ∉ calls) : peer ∉ Runs.collect DialQueue.step pops d calls := by
  let other (call : DialCall) : Prop := ∀ priority, call ≠ .addTask peer priority
  have hrun : Runs.Along DialQueue.step (fun _ call => other call) d calls := by
    refine Runs.along_of_forall_mem (fun call hcall _ priority heq => ?_) d
    exact hcalls priority (heq ▸ hcall)
  have hkeep : ∀ (d : DialQueue) (call : DialCall), d.Inv ∧ ¬ d.Queued peer → other call →
      (d.step call).Inv ∧ ¬ (d.step call).Queued peer := by
    intro d call hd hcall
    exact ⟨hd.1.step call, fun hqueued => hd.2 (hd.1.queued_of_step hqueued hcall)⟩
  have hpops : ∀ (d : DialQueue) (call : DialCall), d.Inv ∧ ¬ d.Queued peer → other call →
      ∀ popped ∈ d.pops call, popped ≠ peer := by
    rintro d call hd - popped hpopped rfl
    exact hd.2 (hd.1.queued_of_mem_pops hpopped)
  have hnone := Runs.forall_mem_collect hkeep hpops ⟨h, hpeer⟩ hrun
  exact fun hmem => hnone peer hmem rfl

def Mapped (d : DialQueue) : Prop := ∀ r ∈ d.heap.entries, d.tasks (d.heap.task r).peer = some r

def AddsUnqueued (d : DialQueue) : DialCall → Prop
  | .addTask peer _ => ¬ d.Queued peer
  | _ => True

instance : DecidableRel AddsUnqueued
  | d, .addTask peer _ => inferInstanceAs (Decidable (¬ d.Queued peer))
  | _, .deleteTask _ => .isTrue trivial
  | _, .popTaskImpl => .isTrue trivial

theorem Mapped.deleteTask (hmapped : d.Mapped) (h : d.Inv) (peer : PeerId) :
    (d.deleteTask peer).Mapped ∧ ¬ (d.deleteTask peer).Queued peer := by
  obtain ⟨hnone, heq⟩ | ⟨item, hitem, hdrops, htasks⟩ := h.deleteTask peer
  · rw [heq]
    refine ⟨hmapped, ?_⟩
    rintro ⟨r, hr, rfl⟩
    exact absurd (hmapped r hr) (hnone ▸ nofun)
  · have hother : ∀ r ∈ (d.deleteTask peer).heap.entries, (d.heap.task r).peer ≠ peer := by
      rintro r hr rfl
      obtain ⟨hne, hr⟩ := (hdrops.mem_iff r).mp hr
      exact hne (Option.some.inj ((hmapped r hr).symm.trans hitem))
    constructor
    · intro r hr
      rw [htasks, hdrops.peers, Function.update_of_ne (hother r hr)]
      exact hmapped r ((hdrops.mem_iff r).mp hr).2
    · rintro ⟨r, hr, hpeer⟩
      exact hother r hr (hdrops.peers r ▸ hpeer)

theorem Mapped.step (hmapped : d.Mapped) (h : d.Inv) {call : DialCall} (hcall : d.AddsUnqueued call) :
    (d.step call).Mapped := by
  cases call with
  | addTask peer priority =>
    obtain ⟨-, hmem, hnew, hold⟩ := h.addTask peer priority
    intro r hr
    change Function.update d.tasks peer (some d.allocated) _ = some r
    rcases (hmem r).mp hr with rfl | hr
    · rw [DialQueue.step, hnew, Function.update_self]
    · have hne : (d.heap.task r).peer ≠ peer := fun heq => hcall ⟨r, hr, heq⟩
      rw [DialQueue.step, hold r hr, Function.update_of_ne hne]
      exact hmapped r hr
  | deleteTask peer => exact (hmapped.deleteTask h peer).1
  | popTaskImpl =>
    obtain heq | ⟨r, -, -, hdrops, htasks⟩ := h.popTaskImpl
    · rw [DialQueue.step, heq]
      exact hmapped
    · intro x hx
      rw [DialQueue.step, htasks, hdrops.peers]
      exact hmapped x ((hdrops.mem_iff x).mp hx).2

theorem Mapped.nodup_peers (hmapped : d.Mapped) (h : d.Inv) :
    (d.heap.entries.map fun r => (d.heap.task r).peer).Nodup := by
  refine List.Nodup.map_on (fun r hr x hx heq => ?_) h.indexed.nodup
  have hr := hmapped r hr
  rw [heq, hmapped x hx] at hr
  exact (Option.some.inj hr).symm

theorem dial_queue_holds_one_task_per_peer {calls : List DialCall}
    (hcalls : Runs.Along step AddsUnqueued new calls) : let d := calls.foldl step new
    (d.heap.entries.map fun r => (d.heap.task r).peer).Nodup ∧
      (∀ r i, (d.heap.task r).index = some i ↔ d.heap.entries[i]? = some r) ∧
      ∀ peer rest, (∀ priority, .addTask peer priority ∉ rest) →
        peer ∉ Runs.collect step pops (d.deleteTask peer) rest := by
  intro d
  have hkeep : ∀ (d : DialQueue) (call : DialCall), d.Inv ∧ d.Mapped → d.AddsUnqueued call →
      (d.step call).Inv ∧ (d.step call).Mapped := fun d call hd hcall => ⟨hd.1.step call, hd.2.step hd.1 hcall⟩
  have hnew : new.Inv ∧ new.Mapped := ⟨inv_new, by simp [Mapped, new]⟩
  obtain ⟨h, hmapped⟩ : d.Inv ∧ d.Mapped := Runs.inv_foldl hkeep hnew hcalls
  refine ⟨hmapped.nodup_peers h, h.indexed, fun peer rest hrest => ?_⟩
  exact (h.step (.deleteTask peer)).not_popped (hmapped.deleteTask h peer).2 hrest

theorem dial_queue_holds_one_task_per_peer_sample :
    let calls := [.addTask "a" 1, .popTaskImpl, .addTask "a" 10, .addTask "b" 1]
    let d := calls.foldl step new
    d.heap.entries = [2, 1] ∧ Runs.collect step pops (d.deleteTask "a") [.popTaskImpl] = ["b"] ∧
      "a" ∉ Runs.collect step pops (d.deleteTask "a") [.popTaskImpl, .addTask "b" 1, .popTaskImpl] := by
  refine ⟨by decide +kernel, by decide +kernel, ?_⟩
  exact (dial_queue_holds_one_task_per_peer (by decide +kernel)).2.2 "a" _ (by simp)

theorem dial_queue_keeps_first_task : let d := [.addTask "a" 1, .addTask "a" 1].foldl step new
    d.heap.entries.map (fun r => (d.heap.task r).peer) = ["a", "a"] ∧
      Runs.collect step pops (d.deleteTask "a") [.popTaskImpl] = ["a"] := by
  decide +kernel

end DialQueue

end Nxchain.Dial
