import Nxchain.Lib.Except
import Nxchain.Proof.FailedFrames
import Nxchain.Proof.FrameRuns

namespace Nxchain

namespace Txn

structure SameWorld (t t' : Txn) : Prop extends SameButNonces t t' where
  nonce : ∀ addr, t'.getNonce addr = t.getNonce addr

variable {t t' t'' : Txn}

theorem SameWorld.refl (t : Txn) : SameWorld t t := ⟨.refl t, fun _ => rfl⟩

theorem SameWorld.trans (h : SameWorld t t') (h' : SameWorld t' t'') : SameWorld t t'' :=
  ⟨h.toSameButNonces.trans h'.toSameButNonces, fun addr => (h'.nonce addr).trans (h.nonce addr)⟩

theorem sameWorld_of_overlay (hsnapshot : t'.snapshot = t.snapshot) (hoverlay : t'.overlay = t.overlay) :
    SameWorld t t' :=
  ⟨(sameButNonces_of_overlay hsnapshot hoverlay).1, (sameButNonces_of_overlay hsnapshot hoverlay).2⟩

structure Unwritten (t t' : Txn) : Prop extends Extends t t', SameWorld t t'

theorem Unwritten.refl (t : Txn) : Unwritten t t := ⟨.refl t, .refl t⟩

theorem Unwritten.trans (h : Unwritten t t') (h' : Unwritten t' t'') : Unwritten t t'' :=
  ⟨h.toExtends.trans h'.toExtends, h.toSameWorld.trans h'.toSameWorld⟩

theorem unwritten_takeSnapshot (t : Txn) : Unwritten t t.takeSnapshot.2 :=
  ⟨extends_takeSnapshot t, sameWorld_of_overlay rfl rfl⟩

variable [Keccak]

section

variable (hempty : NoCodeAtEmptyHash t.snapshot)

include hempty

theorem unwritten_upsertAccount {f : StateObject → StateObject} (hf : ∀ object, OnlyNonce object (f object))
    (hnonce : ∀ object, (f object).account.nonce = object.account.nonce) (addr : Address) (create : Bool) :
    Unwritten t (t.upsertAccount addr create f) := by
  refine ⟨extends_upsertAccount _ _ _ _, sameButNonces_upsertAccount hempty hf addr create, ?_⟩
  intro other
  rw [getNonce_eq_read, getNonce_eq_read]
  apply read_upsertAccount fun object => (hf object).deleted
  · exact hnonce
  · rfl

theorem unwritten_touchAccount (addr : Address) : Unwritten t (t.touchAccount addr) :=
  unwritten_upsertAccount hempty (fun _ => by constructor <;> rfl) (fun _ => rfl) addr true

theorem unwritten_addBalance_zero (addr : Address) : Unwritten t (t.addBalance addr 0) := by
  refine unwritten_upsertAccount hempty (fun object => ?_) (fun _ => rfl) addr true
  constructor
  all_goals rfl

theorem unwritten_transfer {sender recipient : Address} {amount : Option Int} (hzero : ∀ v ∈ amount, v = 0)
    (h : t.transfer sender recipient amount = .ok t') : Unwritten t t' := by
  cases amount with
  | none =>
    obtain rfl := Except.ok.inj h
    exact .refl t
  | some v =>
    obtain rfl := hzero v rfl
    obtain rfl := Except.ok.inj h
    exact unwritten_addBalance_zero hempty recipient

end

theorem unwritten_answer {call : HostCall} (env : HostEnv) (hread : call.writes = false) :
    Unwritten t (t.answer env call).2 := by
  refine ⟨extends_answer env t call, ?_⟩
  cases call with
  | setStorage | selfdestruct | emitLog => cases hread
  | getCode addr | getCodeSize addr =>
    obtain ⟨cache, hcache⟩ := t.getCode_snd addr
    change SameWorld t (t.getCode addr).2
    rw [hcache]
    exact sameWorld_of_overlay rfl rfl
  | accountExists | getStorage | getBalance | getCodeHash | getTxContext | getBlockHash | empty
  | getNonce => exact .refl t

end Txn

structure Contract.ReadOnly (c : Contract) : Prop where
  static : c.static = true
  type : c.type ≠ .create
  value : c.type = .call → ∀ v ∈ c.value, v = 0

namespace Txn

variable [Keccak] {t t₁ : Txn} {config : ForksInTime} {c : Contract}

theorem unwritten_of_refused {out : Runtime.ExecutionResult × Txn} (hc : c.ReadOnly)
    (hempty : NoCodeAtEmptyHash t.snapshot) (h : Refused config c t out) : Unwritten t out.2 := by
  cases h with
  | depth => exact .refl t
  | callFunds =>
    have htouch : Unwritten t.takeSnapshot.2 (t.takeSnapshot.2.touchAccount c.address) :=
      unwritten_touchAccount (t := t.takeSnapshot.2) hempty c.address
    exact (unwritten_takeSnapshot t).trans htouch
  | collision hcreate | createFunds _ hcreate => exact absurd hcreate hc.type

theorem unwritten_of_entered (hc : c.ReadOnly) (hempty : NoCodeAtEmptyHash t.snapshot) (h : Entered config c t t₁) :
    Unwritten t.takeSnapshot.2 t₁ := by
  cases h with
  | create hcreate => exact absurd hcreate hc.type
  | call _ _ henter =>
    have htouch : Unwritten t.takeSnapshot.2 (t.takeSnapshot.2.touchAccount c.address) :=
      unwritten_touchAccount (t := t.takeSnapshot.2) hempty c.address
    unfold enterCall at henter
    split_ifs at henter with hcall
    · refine htouch.trans (unwritten_transfer ?_ (hc.value hcall) henter)
      rw [htouch.snapshot]
      exact hempty
    · obtain rfl := Except.ok.inj henter
      exact htouch

theorem unwritten_leave {p : Runtime.ExecutionResult × Txn} (hc : c.ReadOnly) (h : Unwritten t.takeSnapshot.2 p.2) :
    Unwritten t (leave config c t p).2 := by
  unfold leave
  rw [if_neg hc.type]
  split
  · rw [revertTo_eq h.toExtends]
    have hextends := (extends_takeSnapshot t).trans h.toExtends
    exact ⟨⟨hextends.snapshot, hextends.snapshots⟩, sameWorld_of_overlay hextends.snapshot rfl⟩
  · exact (unwritten_takeSnapshot t).trans h

end Txn

namespace Evm

open Txn Traced

section Runs

variable [SliceGrowth] [Keccak] {rt : Runtimes} {host : HostEnv}

theorem Runtimes.run_unwritten {callx : Contract → World → Run (Runtime.ExecutionResult × World)}
    {fuel : Nat} {c : Contract} {w : World} (hstatic : c.static = true)
    (hempty : NoCodeAtEmptyHash w.txn.snapshot)
    (hcallx : ∀ c' w, c'.ReadOnly → NoCodeAtEmptyHash w.txn.snapshot →
      (callx c' w).Ensures (fun _ _ => False) (fun _ => True) fun result =>
        Unwritten w.txn result.2.txn) :
    (rt.run host callx fuel c w).Ensures (fun _ _ => False) (fun _ => True) fun result =>
      Unwritten w.txn result.2.txn := by
  have hrun : (rt.run host callx fuel c w).Ensures (fun _ _ => False) (fun _ => True) fun result =>
      (False → result.1.gasLeft ≤ c.gas) ∧ Unwritten w.txn result.2.txn := by
    refine Runtimes.run_ensures (fun w' => Unwritten w.txn w'.txn) ?_ ?_ ?_ ?_ ?_ ?_ ?_ ?_
    · exact fun call w' hread hw => hw.trans (unwritten_answer host (hread hstatic))
    · exact fun w' acquired hw => hw
    · rintro c' w' s _ ⟨_, _, hallowed⟩ hw
      obtain ⟨hstatic', htype, hvalue⟩ := hallowed hstatic
      have hempty' : NoCodeAtEmptyHash w'.txn.snapshot := by
        rw [hw.snapshot]
        exact hempty
      refine (hcallx c' w' ⟨hstatic', htype, hvalue⟩ hempty').mono fun result hresult => ?_
      exact ⟨False.elim, hw.trans hresult⟩
    · exact fun _ _ _ => .inl trivial
    · exact fun _ _ _ _ => .inl trivial
    · exact .inl trivial
    · exact False.elim
    · exact .refl w.txn
  exact hrun.mono fun result hresult => hresult.2

theorem Runtimes.callx_unwritten (fuel : Nat) (c : Contract) (w : World) (hc : c.ReadOnly)
    (hempty : NoCodeAtEmptyHash w.txn.snapshot) :
    (rt.callx host fuel c w).Ensures (fun _ _ => False) (fun _ => True) fun result =>
      Unwritten w.txn result.2.txn := by
  induction fuel generalizing c w with
  | zero => exact .inl trivial
  | succ fuel ih =>
    refine Runtimes.callx_ensures ?_ ?_
    · exact fun out hout => unwritten_of_refused hc hempty hout
    · intro t₁ hentered
      have hstart := unwritten_of_entered hc hempty hentered
      refine (Runtimes.run_unwritten hc.static ?_ ih).mono fun result hresult => ?_
      · rw [hstart.snapshot]
        exact hempty
      · exact unwritten_leave hc (hstart.trans hresult)

theorem static_frame_is_read_only (rt : Runtimes) (host : HostEnv) (fuel : Nat) {c : Contract} {w w' : World}
    {result : Runtime.ExecutionResult} (hstatic : c.static = true) (hempty : NoCodeAtEmptyHash w.txn.snapshot)
    (hrun : (rt.run host (rt.callx host fuel) fuel c w).outcome = .ok (result, w')) : SameWorld w.txn w'.txn := by
  have hunwritten : (rt.run host (rt.callx host fuel) fuel c w).Ensures (fun _ _ => False)
      (fun _ => True) fun result => Unwritten w.txn result.2.txn :=
    Runtimes.run_unwritten hstatic hempty (Runtimes.callx_unwritten fuel)
  exact ((ensures_of_ok hrun).mp hunwritten).toSameWorld

end Runs

section Sample

local instance staticKeccak : Keccak := sampleKeccak

local instance exactGrowth : SliceGrowth := ⟨fun _ _ => 0⟩

def echoRuntimes : Runtimes where
  precompiled _ := ⟨fun _ _ => 0, fun input => .ok (.ok input)⟩
  acquireState _ := ⟨.new, by constructor <;> first | rfl | exact fun b hb => absurd hb List.not_mem_nil⟩

def storingContract : Contract :=
  { Contract.newContractCall 1 (FixedBytes.ofBytes 20 [1]) (FixedBytes.ofBytes 20 [1])
      (FixedBytes.ofBytes 20 [32]) none 30000 [0x30, 0x31, 0x60, 0x01, 0x55] [] with static := true }

theorem static_frame_is_read_only_sample :
    ∃ result w', (echoRuntimes.run sampleEnv (echoRuntimes.callx sampleEnv 9) 9 storingContract
        ⟨Txn.newTxn richSnapshot, 0⟩).outcome = .ok (result, w') ∧
      result.err = some .writeProtection ∧ SameWorld (Txn.newTxn richSnapshot) w'.txn := by
  have hempty : NoCodeAtEmptyHash (Txn.newTxn richSnapshot).snapshot := rfl
  have hdone : (echoRuntimes.run sampleEnv (echoRuntimes.callx sampleEnv 9) 9 storingContract
      ⟨Txn.newTxn richSnapshot, 0⟩).outcome.toOption.map (·.1.err) = some (some .writeProtection) := by
    decide +kernel
  obtain ⟨⟨result, w'⟩, hp, herr⟩ := Option.map_eq_some_iff.mp hdone
  have hrun := Except.toOption_eq_some_iff.mp hp
  exact ⟨result, w', hrun, herr, static_frame_is_read_only echoRuntimes sampleEnv 9 rfl hempty hrun⟩

end Sample

end Evm

end Nxchain
