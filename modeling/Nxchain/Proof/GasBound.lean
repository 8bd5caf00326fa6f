import Nxchain.Proof.StaticFrames

namespace Nxchain.Evm

open Traced Program

section Runs

def Event.Safe (rt : Runtimes) (config : ForksInTime) : Event → Prop
  | .step msg s => ¬Hazardous ⟨msg, config⟩ s
  | .precompile c => ∀ i, (precompileAt c.codeAddress).filter (canRun config) = some i →
      ∀ p, (rt.precompiled i).run c.input ≠ .error p

def Blamed (rt : Runtimes) (config : ForksInTime) (event : Event) (e : Fault) : Prop :=
  (∃ p, e = .panic p) ∧ ¬event.Safe rt config

variable [Keccak] {host : HostEnv} {c : Contract}

theorem gasLeft_of_refused {t : Txn} {out : Runtime.ExecutionResult × Txn} (h : Txn.Refused host.config c t out) :
    out.1.gasLeft ≤ c.gas := by
  cases h with
  | depth | callFunds | createFunds => exact le_rfl
  | collision => exact Nat.zero_le _

theorem gasLeft_leave {t : Txn} {p : Runtime.ExecutionResult × Txn} (h : p.1.gasLeft ≤ c.gas) :
    (Txn.leave host.config c t p).1.gasLeft ≤ c.gas := by
  unfold Txn.leave Txn.storeCode
  dsimp only
  split_ifs
  · exact h
  · exact Nat.zero_le _
  · exact Nat.zero_le _
  · exact h
  · exact (Nat.sub_le _ _).trans h
  · exact h
  · exact h

variable [SliceGrowth] {rt : Runtimes}

theorem Runtimes.callx_metered (heip150 : host.config.eip150 = true) (fuel : Nat) (c : Contract) (w : World)
    (hgas : c.gas < 2 ^ 64) (hfuel : c.gas + 3 ≤ fuel) :
    (rt.callx host fuel c w).Ensures (Blamed rt host.config) (fun _ => False) fun result =>
      result.1.gasLeft ≤ c.gas := by
  induction fuel generalizing c w with
  | zero => omega
  | succ fuel ih =>
    refine Runtimes.callx_ensures (fun out hout => gasLeft_of_refused hout) fun t₁ hentered => ?_
    have hrun : (rt.run host (rt.callx host fuel) fuel c ⟨t₁, w.acquired⟩).Ensures
        (Blamed rt host.config) (fun _ => False) fun result =>
          (True → result.1.gasLeft ≤ c.gas) ∧ True := by
      refine Runtimes.run_ensures (fun _ => True) ?_ ?_ ?_ ?_ ?_ ?_ ?_ trivial
      · exact fun _ _ _ _ => trivial
      · exact fun _ _ _ => trivial
      · rintro c' w' s hle ⟨_, hless, _⟩ _
        have hlt : c'.gas < s.gas := hless trivial
        have hle : s.gas ≤ c.gas := hle.resolve_right fun h => h trivial
        refine (ih c' w' (by omega) (by omega)).mono fun result hresult => ?_
        exact ⟨fun _ => hresult, trivial⟩
      · exact fun s p hhazard => .inr ⟨⟨p, rfl⟩, fun hsafe => hsafe hhazard⟩
      · exact fun i p hi hpanic => .inr ⟨⟨p, rfl⟩, fun hsafe => hsafe i hi p hpanic⟩
      · exact .inr ⟨trivial, by omega⟩
      · exact fun _ => ⟨heip150, hgas⟩
    exact hrun.mono fun result hresult => gasLeft_leave (hresult.1 trivial)

def MeteredStep (env : Env) (s : State) : Prop :=
  ∀ (path : List ((request : Request) × request.Answer)) s',
    Follows Action.exec (step env) s path (.ok ((), s')) →
    (∀ c result, ⟨.callx c, result⟩ ∈ path → Runtime.ExecutionResult.gasLeft result ≤ c.gas) →
      (s'.stop = true ∨ s'.gas < s.gas ∧ Ready env s') ∧
        ∀ c result, ⟨.callx c, result⟩ ∈ path → c.gas < s.gas

theorem meteredStep_of_ready {env : Env} {s : State} (heip150 : env.config.eip150 = true) (hready : Ready env s)
    (hgas : s.gas < 2 ^ 64) : MeteredStep env s := by
  intro path s' hfollows hreturned
  have hstep : Keeps env (stepTerms env True s) (step env) (fun _ s' => Stepped True s s') s :=
    keeps_step hready fun _ => ⟨heip150, hgas⟩
  have hpath : ∀ call ∈ path, Request.Returns (stepTerms env True s) call.1 call.2 := by
    rintro ⟨request, answer⟩ hcall
    cases request with
    | host call => exact trivial
    | callx c => exact fun _ => hreturned c answer hcall
  obtain ⟨hallowed, hstepped⟩ := hfollows.of_wp hstep hpath
  refine ⟨?_, fun c result hcall => (hallowed _ hcall).2.1 trivial⟩
  rcases hstepped.ip with hstop | hip
  · exact .inl hstop
  · refine (hstepped.falls trivial).imp_right fun hlt => ⟨hlt, hip, ?_⟩
    rw [hstepped.bitmap]
    exact hready.bitmap

theorem halts_within_gas (rt : Runtimes) (host : HostEnv) (heip150 : host.config.eip150 = true) (c : Contract)
    (w : World) (hgas : c.gas < 2 ^ 64) {fuel : Nat} (hfuel : c.gas + 3 ≤ fuel) :
    (rt.callx host fuel c w).outcome ≠ .error .outOfFuel ∧
      ((∀ event ∈ (rt.callx host fuel c w).trace, event.Safe rt host.config) →
        ∃ result w', (rt.callx host fuel c w).outcome = .ok (result, w') ∧ result.gasLeft ≤ c.gas) ∧
      (∀ (msg : Contract) n, Ready ⟨msg, host.config⟩ ((rt.acquireState n).val.start msg)) ∧
      ∀ msg s, Ready ⟨msg, host.config⟩ s → s.gas < 2 ^ 64 → MeteredStep ⟨msg, host.config⟩ s := by
  have hensures : (rt.callx host fuel c w).Ensures (Blamed rt host.config) (fun _ => False)
      fun result => result.1.gasLeft ≤ c.gas := Runtimes.callx_metered heip150 fuel c w hgas hfuel
  refine ⟨?_, ?_, ?_, ?_⟩
  · intro hout
    rcases (ensures_of_error hout).mp hensures with hfalse | ⟨event, _, ⟨p, hp⟩, _⟩
    · exact hfalse
    · cases hp
  · intro hsafe
    cases hout : (rt.callx host fuel c w).outcome with
    | ok result => exact ⟨result.1, result.2, rfl, (ensures_of_ok hout).mp hensures⟩
    | error e =>
      rcases (ensures_of_error hout).mp hensures with hfalse | ⟨event, hevent, _, hunsafe⟩
      · exact hfalse.elim
      · exact absurd (hsafe event hevent) hunsafe
  · exact fun msg n => ready_start _ msg host.config (rt.acquireState n).property.ip
  · exact fun msg s hready hgas => meteredStep_of_ready heip150 hready hgas

end Runs

section Sample

local instance gasKeccak : Keccak := sampleKeccak

local instance gasGrowth : SliceGrowth := ⟨fun _ _ => 0⟩

def addingContract : Contract :=
  Contract.newContractCall 1 (FixedBytes.ofBytes 20 [1]) (FixedBytes.ofBytes 20 [1])
    (FixedBytes.ofBytes 20 [32]) none 9 [0x60, 0x01, 0x60, 0x02, 0x01] []

def addingRun : Run (Runtime.ExecutionResult × World) :=
  echoRuntimes.callx sampleEnv 12 addingContract ⟨Txn.newTxn richSnapshot, 0⟩

def Event.isStepSafe (config : ForksInTime) : Event → Bool
  | .step msg s =>
    !(opAt ⟨msg, config⟩ s).any (overreaches · s) && !(opAt ⟨msg, config⟩ s).any (misplaced · s)
  | .precompile _ => false

theorem addingRun_safe : ∀ event ∈ addingRun.trace, event.Safe echoRuntimes sampleEnv.config := by
  have hsafe : addingRun.trace.all (Event.isStepSafe sampleEnv.config) = true := by decide +kernel
  intro event hevent
  have hstep := List.all_eq_true.mp hsafe event hevent
  cases event with
  | step msg s =>
    simp only [Event.isStepSafe, Bool.and_eq_true, Bool.not_eq_true'] at hstep
    rintro (hreach | hplace)
    · rw [hstep.1] at hreach
      cases hreach
    · rw [hstep.2] at hplace
      cases hplace
  | precompile c => cases hstep

theorem halts_within_gas_sample : ∃ result w', addingRun.outcome = .ok (result, w') ∧ result.gasLeft ≤ 9 :=
  (halts_within_gas echoRuntimes sampleEnv rfl addingContract ⟨Txn.newTxn richSnapshot, 0⟩ (by decide)
    le_rfl).2.1 addingRun_safe

def crashingContract : Contract :=
  Contract.newContractCall 1 (FixedBytes.ofBytes 20 [1]) (FixedBytes.ofBytes 20 [1])
    (FixedBytes.ofBytes 20 [32]) none 12 [0x60, 0x00, 0x60, 0x00, 0x60, 0x01, 0x3e] []

theorem crashingContract_panics :
    (echoRuntimes.callx sampleEnv 15 crashingContract ⟨Txn.newTxn richSnapshot, 0⟩).outcome.map
      (fun _ => ()) = .error (.panic .indexOutOfRange) := by
  decide +kernel

end Sample

end Nxchain.Evm
