import Nxchain.Txpool.QueueLock

namespace Nxchain.Txpool

namespace QueueLock

variable {τ : Type} [DecidableEq τ] {s : QueueLock τ} {e : LockStep τ}

variable {t : τ} {write : Bool}

structure Inv (s : QueueLock τ) : Prop where
  held : ∃ held : RwLock.Holders τ, s.mutex.Agrees held ∧ held.mode = fun t => (s.position t).took
  set : ∀ t, s.position t = .holding true → s.wLock = 1
  clear : (∀ t, s.position t ≠ .holding true) → s.wLock = 0
  swapped : ∀ t write k, s.position t = .releasing write k → (k = 1 ↔ write = true)
  running : s.crashed = false

theorem inv_new : (new : QueueLock τ).Inv where
  held := by
    refine ⟨.readers ∅, RwLock.agrees_free, ?_⟩
    rfl
  set _ h := nomatch h
  clear _ := rfl
  swapped _ _ _ h := nomatch h
  running := rfl

section

variable (h : s.Inv)

include h

theorem Inv.eq_of_writer {u : τ} (ht : (s.position t).took = some true) (hu : (s.position u).took = some write) :
    u = t := by
  obtain ⟨held, _, hmode⟩ := h.held
  have hholds : ∀ x, held.mode x = (s.position x).took := fun x => congrFun hmode x
  exact RwLock.Holders.eq_of_mode_writer ((hholds t).trans ht) ((hholds u).trans hu)

theorem Inv.not_holding (ht : (s.position t).took = some write) (hne : s.position t ≠ .holding true) :
    ∀ u, s.position u ≠ .holding true := by
  intro u hu
  have htook : (s.position u).took = some true := by rw [hu]; rfl
  have := h.eq_of_writer htook ht
  subst this
  exact hne hu

theorem Inv.clear_of_others (ht : s.position t ≠ .holding true)
    (hothers : ∀ u, u ≠ t → s.position u ≠ .holding true) : s.wLock = 0 := by
  refine h.clear fun u => ?_
  by_cases hu : u = t
  · rw [hu]
    exact ht
  · exact hothers u hu

theorem Inv.moved {p : LockPosition} {mutex : RwLock} {wLock : Nat}
    (hheld : ∃ held : RwLock.Holders τ, mutex.Agrees held ∧
      held.mode = Function.update (fun u => (s.position u).took) t p.took)
    (hset : p = .holding true → wLock = 1)
    (hother : ∀ u, u ≠ t → s.position u = .holding true → wLock = 1)
    (hclear : p ≠ .holding true → (∀ u, u ≠ t → s.position u ≠ .holding true) → wLock = 0)
    (hswapped : ∀ write k, p = .releasing write k → (k = 1 ↔ write = true)) :
    ({ s with mutex := mutex, wLock := wLock }.move t p).Inv := by
  have hself : ({ s with mutex := mutex, wLock := wLock }.move t p).position t = p := Function.update_self ..
  have hrest : ∀ u, u ≠ t → ({ s with mutex := mutex, wLock := wLock }.move t p).position u =
      s.position u := fun u hu => Function.update_of_ne hu ..
  refine ⟨?_, ?_, ?_, ?_, h.running⟩
  · obtain ⟨held, hagrees, hmode⟩ := hheld
    refine ⟨held, hagrees, hmode.trans ?_⟩
    funext u
    by_cases hu : u = t
    · rw [hu, Function.update_self, hself]
    · rw [Function.update_of_ne hu, hrest u hu]
  · intro u hu
    by_cases hut : u = t
    · rw [hut, hself] at hu
      exact hset hu
    · rw [hrest u hut] at hu
      exact hother u hut hu
  · intro hnone
    refine hclear ?_ fun u hut hu => hnone u ((hrest u hut).trans hu)
    exact fun hp => hnone t (hself.trans hp)
  · intro u write k hu
    by_cases hut : u = t
    · rw [hut, hself] at hu
      exact hswapped write k hu
    · rw [hrest u hut] at hu
      exact h.swapped u write k hu

theorem Inv.acquired (ht : s.position t = .locking write) {mutex : RwLock}
    (hacquire : s.mutex.acquire write = some mutex) : ({ s with mutex := mutex }.move t (.storing write)).Inv := by
  obtain ⟨held, hagrees, hmode⟩ := h.held
  have hnone : held.mode t = none := (congrFun hmode t).trans (by rw [ht]; rfl)
  obtain ⟨held', hagrees', hmode'⟩ := RwLock.acquire_agrees hagrees hnone hacquire
  refine h.moved ⟨held', hagrees', hmode' ▸ hmode ▸ rfl⟩ nofun (fun u _ => h.set u) ?_ nofun
  exact fun _ => h.clear_of_others (by rw [ht]; exact nofun)

theorem Inv.keeps {p : LockPosition} (htook : p.took = (s.position t).took) :
    ∃ held : RwLock.Holders τ, s.mutex.Agrees held ∧
      held.mode = Function.update (fun u => (s.position u).took) t p.took := by
  obtain ⟨held, hagrees, hmode⟩ := h.held
  refine ⟨held, hagrees, hmode.trans ?_⟩
  rw [htook, Function.update_eq_self t (fun u => (s.position u).took)]

theorem Inv.stored (ht : s.position t = .storing write) :
    ({ s with wLock := if write then 1 else 0 }.move t (.holding write)).Inv := by
  have htook : (s.position t).took = some write := by rw [ht]; rfl
  have hnone := h.not_holding htook (by rw [ht]; exact nofun)
  refine h.moved (h.keeps (by rw [ht]; rfl)) ?_ (fun u _ hu => absurd hu (hnone u)) ?_ nofun
  · intro hp
    rw [LockPosition.holding.inj hp, if_pos rfl]
  · intro hp _
    rw [if_neg fun hwrite => hp (congrArg _ hwrite)]

theorem Inv.swappedOut (ht : s.position t = .holding write) :
    ({ s with wLock := 0 }.move t (.releasing write s.wLock)).Inv := by
  have htook : (s.position t).took = some write := by rw [ht]; rfl
  refine h.moved (h.keeps (by rw [ht]; rfl)) nofun ?_ (fun _ _ => rfl) ?_
  · intro u hut hu
    have hwriter : (s.position u).took = some true := by rw [hu]; rfl
    exact absurd (h.eq_of_writer hwriter htook).symm hut
  · intro write' k hp
    obtain ⟨rfl, rfl⟩ := LockPosition.releasing.inj hp
    cases write with
    | true => exact iff_of_true (h.set t ht) rfl
    | false =>
      rw [h.clear (h.not_holding htook (by rw [ht]; exact nofun))]
      exact iff_of_false nofun nofun

theorem Inv.released {swapped : Nat} (ht : s.position t = .releasing write swapped) :
    ∃ mutex, s.mutex.release (swapped = 1) = some mutex ∧
      ({ s with mutex := mutex }.move t .outside).Inv := by
  obtain ⟨held, hagrees, hmode⟩ := h.held
  have htook : held.mode t = some write := (congrFun hmode t).trans (by rw [ht]; rfl)
  obtain ⟨mutex, hrelease, held', hagrees', hmode'⟩ := RwLock.release_agrees hagrees htook
  have hflag : decide (swapped = 1) = write := by
    rw [decide_eq_decide.mpr (h.swapped t write swapped ht), Bool.decide_coe]
  refine ⟨mutex, hflag ▸ hrelease, ?_⟩
  refine h.moved ⟨held', hagrees', hmode' ▸ hmode ▸ rfl⟩ nofun (fun u _ => h.set u) ?_ nofun
  exact fun _ => h.clear_of_others (by rw [ht]; exact nofun)

theorem Inv.step (e : LockStep τ) : (s.step e).Inv := by
  rw [QueueLock.step, if_neg (by rw [h.running]; exact Bool.false_ne_true)]
  cases ht : s.position e.thread with
  | outside =>
    refine h.moved (h.keeps (by rw [ht]; rfl)) nofun (fun u _ => h.set u) ?_ nofun
    exact fun _ => h.clear_of_others (by rw [ht]; exact nofun)
  | locking write =>
    cases hacquire : s.mutex.acquire write with
    | none => simpa only [hacquire] using h
    | some mutex => simpa only [hacquire] using h.acquired ht hacquire
  | storing write => exact h.stored ht
  | holding write => exact h.swappedOut ht
  | releasing write swapped =>
    obtain ⟨mutex, hrelease, hinv⟩ := h.released ht
    simpa only [hrelease] using hinv

theorem Inv.unlock_eq_took (e : LockStep τ) : ∀ r ∈ s.releases e, r.unlock = r.took := by
  rw [releases, h.running]
  cases ht : s.position e.thread with
  | releasing write swapped =>
    intro r hr
    obtain rfl := List.mem_singleton.mp hr
    exact Bool.eq_iff_iff.mpr (decide_eq_true_iff.trans (h.swapped _ write swapped ht))
  | outside | locking | storing | holding => exact nofun

end

theorem queue_lock_releases_what_it_took (steps : List (LockStep τ)) :
    (steps.foldl step new).crashed = false ∧
      ∀ r ∈ Runs.collect step releases new steps, r.unlock = r.took := by
  have hrun : Runs.Along step (fun _ _ => True) (new : QueueLock τ) steps :=
    Runs.along_of_forall_mem (fun _ _ _ => trivial) new
  have hkeep : ∀ (s : QueueLock τ) (e : LockStep τ), s.Inv → True → (s.step e).Inv := fun _ e h _ => h.step e
  constructor
  · exact (Runs.inv_foldl hkeep inv_new hrun).running
  · exact Runs.forall_mem_collect hkeep (fun _ e h _ => h.unlock_eq_took e) inv_new hrun

example :
    Runs.collect step releases (new : QueueLock Bool)
      [⟨true, true⟩, ⟨true, true⟩, ⟨false, false⟩, ⟨false, false⟩, ⟨true, true⟩, ⟨true, true⟩, ⟨true, true⟩,
        ⟨false, false⟩, ⟨false, false⟩, ⟨false, false⟩, ⟨false, false⟩] = [⟨true, true⟩, ⟨false, false⟩] := by
  decide

end QueueLock

end Nxchain.Txpool
