import Nxchain.Proof.Frames
import Nxchain.Proof.StepSafety

namespace Nxchain.Evm

open Traced

variable [SliceGrowth]

def Hazardous (env : Env) (s : State) : Prop :=
  (opAt env s).any (overreaches · s) = true ∨ (opAt env s).any (misplaced · s) = true

theorem ready_start (s : State) (c : Contract) (config : ForksInTime) (hip : s.ip = 0) :
    Ready ⟨c, config⟩ (s.start c) := by
  refine ⟨hip.ge, ?_⟩
  have hloop : ∀ (code : Bytes) rounds i buf, (Bitmap.setCodeLoop code rounds i buf).length = buf.length := by
    intro code rounds
    induction rounds with
    | zero => exact fun i buf => rfl
    | succ rounds ih =>
      intro i buf
      unfold Bitmap.setCodeLoop
      split
      · rfl
      · split_ifs
        · exact ih _ _
        · rw [ih, Bitmap.set, List.length_modify]
        · exact ih _ _
  show (Bitmap.setCodeLoop _ _ _ _).length = _
  rw [hloop, length_extendByteSlice]
  rfl

variable [Keccak] {env : Env} {τ : Type}

section Loop

variable {serve : (request : Request) → τ → Run (request.Answer × τ)} {blame : Event → Fault → Prop}
  {fault : Fault → Prop} {inv : τ → Prop} {metered : Prop}

theorem loop_ensures {fuel : Nat} {s : State} {t : τ}
    (hserve : ∀ request t s', s'.gas ≤ s.gas ∨ ¬metered →
      Request.Allowed env (stepTerms env metered s') request → inv t →
        (serve request t).Ensures blame fault fun result =>
          Request.Returns (stepTerms env metered s') request result.1 ∧ inv result.2)
    (hblame : ∀ s p, Hazardous env s → fault (.panic p) ∨ blame (.step env.msg s) (.panic p))
    (hfuel : fault .outOfFuel ∨ metered ∧ (if s.stop then 1 else s.gas + 2) ≤ fuel)
    (hready : s.stop = true ∨ Ready env s)
    (hmetered : metered → env.config.eip150 = true ∧ s.gas < 2 ^ 64) (ht : inv t) :
    (loop serve env fuel s t).Ensures blame fault fun result =>
      (metered → result.1.gas ≤ s.gas) ∧ inv result.2 := by
  induction fuel generalizing s t with
  | zero =>
    refine .inl (hfuel.resolve_right ?_)
    rintro ⟨_, hle⟩
    split_ifs at hle <;> omega
  | succ fuel ih =>
    unfold loop
    by_cases hstop : s.stop = true
    · rw [if_pos hstop]
      exact ⟨fun _ => le_rfl, ht⟩
    rw [if_neg hstop]
    have hstep := keeps_step (hready.resolve_left hstop) hmetered
    refine ensures_emit_bind ?_
    have hstep := Program.wp_imp hstep (fun e => fault e ∨ blame (.step env.msg s) e) ?_ fun _ _ => id
    · refine Ensures.bind (Program.run_ensures ?_ hstep ht) ?_
      · intro request t hallowed ht
        exact (hserve request t s (.inl le_rfl) hallowed ht).mono_fault fun e => .inl
      rintro ⟨_, s', t'⟩ ⟨hstepped, ht'⟩
      replace hstepped : Stepped metered s s' := hstepped
      have hless : s'.gas ≤ s.gas ∨ ¬metered := by
        by_cases hm : metered
        · exact .inl (hstepped.gas hm)
        · exact .inr hm
      refine (ih ?_ ?_ ?_ ?_ ht').mono_fault (fun e => .inl) |>.mono ?_
      · exact fun request t s'' hle => hserve request t s'' (hle.elim (fun hle => hless.imp_left hle.trans) .inr)
      · refine hfuel.imp_right fun ⟨hm, hle⟩ => ⟨hm, ?_⟩
        rw [if_neg hstop] at hle
        have hfalls := hstepped.falls hm
        split_ifs with hstop'
        · omega
        · have hlt := hfalls.resolve_left hstop'
          omega
      · refine hstepped.ip.imp_right fun hip => ⟨hip, ?_⟩
        rw [hstepped.bitmap]
        exact (hready.resolve_left hstop).bitmap
      · exact fun hm => ⟨(hmetered hm).1, (hstepped.gas hm).trans_lt (hmetered hm).2⟩
      · exact fun result hresult => ⟨fun hm => (hresult.1 hm).trans (hstepped.gas hm), hresult.2⟩
    · rintro e ⟨⟨p, rfl⟩, hhazard⟩
      exact hblame s p hhazard

end Loop

section Runtimes

variable {rt : Runtimes} {host : HostEnv} {callx : Contract → World → Run (Runtime.ExecutionResult × World)}
  {blame : Event → Fault → Prop} {fault : Fault → Prop} {inv : World → Prop} {metered : Prop}
  {c : Contract} {fuel : Nat} {w : World}

omit [SliceGrowth] [Keccak] in
theorem Precompile.result_ensures {p : Precompile} {config : ForksInTime}
    (hpanic : ∀ crash, p.run c.input = .error crash → fault (.panic crash)) :
    (Traced.ofExcept (p.result config c) : Run _).Ensures blame fault fun result =>
      result.gasLeft ≤ c.gas := by
  unfold Precompile.result
  dsimp only
  split
  · exact Nat.zero_le _
  · cases hrun : p.run c.input with
    | error crash => exact .inl (hpanic crash hrun)
    | ok outcome =>
      cases outcome with
      | error err => exact Nat.zero_le _
      | ok b => exact Nat.sub_le _ _

omit [SliceGrowth] [Keccak] in
theorem State.gasLeft_result_le (s : State) : s.result.gasLeft ≤ s.gas := by
  unfold State.result
  split
  · exact Nat.zero_le _
  · exact le_rfl

theorem Runtimes.run_ensures (inv : World → Prop)
    (hhost : ∀ call w, (c.static = true → call.writes = false) → inv w →
      inv { w with txn := (w.txn.answer host call).2 })
    (hacquired : ∀ w acquired, inv w → inv { w with acquired := acquired })
    (hcallx : ∀ c' w s, s.gas ≤ c.gas ∨ ¬metered →
      Request.Allowed ⟨c, host.config⟩ (stepTerms ⟨c, host.config⟩ metered s) (.callx c') → inv w →
        (callx c' w).Ensures blame fault fun result =>
          (metered → result.1.gasLeft ≤ c'.gas) ∧ inv result.2)
    (hblame : ∀ s p, Hazardous ⟨c, host.config⟩ s → fault (.panic p) ∨ blame (.step c s) (.panic p))
    (hprecompiled : ∀ i p, (precompileAt c.codeAddress).filter (canRun host.config) = some i →
      (rt.precompiled i).run c.input = .error p → fault (.panic p) ∨ blame (.precompile c) (.panic p))
    (hfuel : fault .outOfFuel ∨ metered ∧ c.gas + 2 ≤ fuel)
    (hmetered : metered → host.config.eip150 = true ∧ c.gas < 2 ^ 64) (hw : inv w) :
    (rt.run host callx fuel c w).Ensures blame fault fun result =>
      (metered → result.1.gasLeft ≤ c.gas) ∧ inv result.2 := by
  unfold Runtimes.run
  split
  · rename_i i hi
    refine ensures_emit_bind (Ensures.bind (Precompile.result_ensures fun p => hprecompiled i p hi) ?_)
    exact fun result hresult => ⟨fun _ => hresult, hw⟩
  · have hstart := ready_start (rt.acquireState w.acquired).val c host.config
      (rt.acquireState w.acquired).property.ip
    have hloop : (loop (serve host callx) ⟨c, host.config⟩ fuel
        ((rt.acquireState w.acquired).val.start c) { w with acquired := w.acquired + 1 }).Ensures blame
          fault fun result => (metered → result.1.gas ≤ c.gas) ∧ inv result.2 := by
      refine loop_ensures ?_ hblame ?_ (.inr hstart) hmetered (hacquired w _ hw)
      · intro request w s hless hallowed hinv
        cases request with
        | host call => exact ⟨trivial, hhost call w hallowed hinv⟩
        | callx c' => exact hcallx c' w s hless hallowed hinv
      · refine hfuel.imp_right fun ⟨hm, hle⟩ => ⟨hm, ?_⟩
        split_ifs
        · omega
        · exact hle
    have hrun : (runOn (serve host callx) host.config fuel (rt.acquireState w.acquired).val c
        { w with acquired := w.acquired + 1 }).Ensures blame fault fun result =>
          (metered → result.1.gasLeft ≤ c.gas) ∧ inv result.2.2 := by
      refine hloop.bind fun result hresult => ⟨fun hm => ?_, hresult.2⟩
      exact result.1.gasLeft_result_le.trans (hresult.1 hm)
    exact hrun.bind fun result hresult => hresult

theorem Runtimes.callx_ensures {post : Runtime.ExecutionResult × World → Prop}
    (hrefused : ∀ out, Txn.Refused host.config c w.txn out → post (out.1, ⟨out.2, w.acquired⟩))
    (hentered : ∀ t₁, Txn.Entered host.config c w.txn t₁ →
      (rt.run host (rt.callx host fuel) fuel c ⟨t₁, w.acquired⟩).Ensures blame fault fun result =>
        post ((Txn.leave host.config c w.txn (result.1, result.2.txn)).1,
          ⟨(Txn.leave host.config c w.txn (result.1, result.2.txn)).2, result.2.acquired⟩)) :
    (rt.callx host (fuel + 1) c w).Ensures blame fault post := by
  unfold Runtimes.callx
  rcases Txn.callx_cases host.config c w.txn with ⟨out, hout, hcall⟩ | ⟨t₁, ht₁, hcall⟩
  · rw [hcall]
    exact hrefused out hout
  · rw [hcall]
    have hrun : (Runtimes.enter (rt.run host (rt.callx host fuel) fuel c) t₁ w.acquired).Ensures blame
        fault fun x => post ((Txn.leave host.config c w.txn x.1).1, ⟨(Txn.leave host.config c w.txn x.1).2, x.2⟩) :=
      (hentered t₁ ht₁).bind fun x hx => hx
    have hleft : ((Runtimes.enter (rt.run host (rt.callx host fuel) fuel c) t₁ >>= fun p =>
        pure (Txn.leave host.config c w.txn p)) w.acquired).Ensures blame fault fun x =>
          post (x.1.1, ⟨x.1.2, x.2⟩) :=
      hrun.bind fun ⟨_, _⟩ hx => hx
    exact hleft.bind fun ⟨⟨_, _⟩, _⟩ hx => hx

end Runtimes

end Nxchain.Evm
