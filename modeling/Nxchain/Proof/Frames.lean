import Nxchain.Behaviour
import Nxchain.Proof.Overlay

namespace Nxchain

namespace Txn

variable {t t' t'' : Txn}

variable {c : Contract} {config : ForksInTime}

structure Extends (t t' : Txn) : Prop where
  snapshot : t'.snapshot = t.snapshot
  snapshots : t.snapshots <+: t'.snapshots

theorem Extends.refl (t : Txn) : Extends t t := ⟨rfl, List.prefix_rfl⟩

theorem Extends.trans (h : Extends t t') (h' : Extends t' t'') : Extends t t'' :=
  ⟨h'.snapshot.trans h.snapshot, h.snapshots.trans h'.snapshots⟩

theorem Extends.of_eq (hsnapshot : t'.snapshot = t.snapshot) (hsnapshots : t'.snapshots = t.snapshots) :
    Extends t t' := ⟨hsnapshot, hsnapshots ▸ List.prefix_rfl⟩

theorem extends_takeSnapshot (t : Txn) : Extends t t.takeSnapshot.2 := ⟨rfl, List.prefix_append _ _⟩

theorem extends_revertTo (t : Txn) (id : Nat) : Extends t (t.revertTo id) := by
  unfold revertTo revertToSnapshot
  cases t.snapshots[id]? <;> exact .of_eq rfl rfl

theorem revertTo_eq (h : Extends t.takeSnapshot.2 t') :
    t'.revertTo t.snapshots.length = { t' with overlay := t.overlay } := by
  obtain ⟨rest, hrest⟩ := h.snapshots
  have hsaved : t'.snapshots[t.snapshots.length]? = some t.overlay := by
    rw [← hrest]
    simp [takeSnapshot]
  simp [revertTo, revertToSnapshot, hsaved, Except.toOption]

variable [Keccak]

theorem extends_upsertAccount (t : Txn) (addr : Address) (create : Bool) (f : StateObject → StateObject) :
    Extends t (t.upsertAccount addr create f) :=
  .of_eq (snapshot_upsertAccount _ _) (snapshots_upsertAccount _ _)

theorem extends_createAccount (t : Txn) (addr : Address) : Extends t (t.createAccount addr) := by
  unfold createAccount
  cases t.getStateObject addr <;> exact .of_eq rfl rfl

theorem extends_setStorage (t : Txn) (addr : Address) (key value : Hash) (config : ForksInTime) :
    Extends t (t.setStorage addr key value config).2 := by
  rcases t.setStorage_cases addr key value config with ⟨_, hsame⟩ | ⟨_, refund, hset⟩
  · rw [hsame]
    exact Extends.refl t
  · rw [hset]
    exact (extends_upsertAccount t addr true _).trans (.of_eq rfl rfl)

theorem extends_selfdestruct (t : Txn) (addr beneficiary : Address) :
    Extends t (t.selfdestruct addr beneficiary) := by
  have hrefund : Extends t (if t.hasSuicided addr then t else t.addRefund 24000) := by
    split_ifs
    · exact Extends.refl t
    · exact .of_eq (by simp only [addRefund]) (by simp only [addRefund])
  exact hrefund.trans ((extends_upsertAccount _ _ _ _).trans (extends_upsertAccount _ _ _ _))

theorem extends_answer (env : HostEnv) (t : Txn) (call : HostCall) : Extends t (t.answer env call).2 := by
  cases call with
  | setStorage addr key value config => exact extends_setStorage t addr key value config
  | selfdestruct addr beneficiary => exact extends_selfdestruct t addr beneficiary
  | getCode addr | getCodeSize addr =>
    obtain ⟨cache, hcache⟩ := t.getCode_snd addr
    change Extends t (t.getCode addr).2
    rw [hcache]
    exact .of_eq rfl rfl
  | accountExists | getStorage | getBalance | getCodeHash | getTxContext | getBlockHash | emitLog
  | empty | getNonce => exact .of_eq rfl rfl

theorem extends_transfer {sender recipient : Address} {amount : Option Int}
    (h : t.transfer sender recipient amount = .ok t') : Extends t t' := by
  unfold transfer at h
  cases amount with
  | none =>
    obtain rfl := Except.ok.inj h
    exact Extends.refl t
  | some amount =>
    cases hsub : t.subBalance sender amount with
    | none => simp [hsub] at h
    | some t₁ =>
      simp only [hsub] at h
      obtain rfl := Except.ok.inj h
      refine Extends.trans ?_ (extends_upsertAccount t₁ recipient true _)
      unfold subBalance at hsub
      split_ifs at hsub
      · obtain rfl := Option.some.inj hsub
        exact Extends.refl t
      · obtain rfl := Option.some.inj hsub
        exact extends_upsertAccount t sender true _

def enterCall (c : Contract) (callType : CallType) (t : Txn) : Except Runtime.Error Txn :=
  let t := t.takeSnapshot.2.touchAccount c.address
  if callType = .call then t.transfer c.caller c.address c.value else .ok t

def newContractAccount (config : ForksInTime) (c : Contract) (t : Txn) : Txn :=
  let t := (t.incrNonce c.caller).takeSnapshot.2
  if config.eip158 then (t.createAccount c.address).incrNonce c.address else t

inductive Refused (config : ForksInTime) (c : Contract) (t : Txn) :
    Runtime.ExecutionResult × Txn → Prop where
  | depth : c.depth > maxDepth → Refused config c t (⟨[], c.gas, some .depth⟩, t)
  | callFunds (err : Runtime.Error) : c.type ≠ .create → enterCall c c.type t = .error err →
      Refused config c t (⟨[], c.gas, some err⟩, t.takeSnapshot.2.touchAccount c.address)
  | collision : c.type = .create → c.depth ≤ maxDepth →
      (t.incrNonce c.caller).hasCodeOrNonce c.address = true →
      Refused config c t (⟨[], 0, some .contractAddressCollision⟩, t.incrNonce c.caller)
  | createFunds (err : Runtime.Error) : c.type = .create →
      (newContractAccount config c t).transfer c.caller c.address c.value = .error err →
      Refused config c t (⟨[], c.gas, some err⟩, newContractAccount config c t)

inductive Entered (config : ForksInTime) (c : Contract) (t : Txn) : Txn → Prop where
  | call (t₁ : Txn) : c.type ≠ .create → c.depth ≤ maxDepth → enterCall c c.type t = .ok t₁ →
      Entered config c t t₁
  | create (t₁ : Txn) : c.type = .create → c.depth ≤ maxDepth →
      (newContractAccount config c t).transfer c.caller c.address c.value = .ok t₁ →
      Entered config c t t₁

def leave (config : ForksInTime) (c : Contract) (t : Txn)
    (p : Runtime.ExecutionResult × Txn) : Runtime.ExecutionResult × Txn :=
  if c.type = .create then storeCode config c t.snapshots.length p.1 p.2
  else (p.1, if p.1.failed then p.2.revertTo t.snapshots.length else p.2)

theorem callx_cases (config : ForksInTime) (c : Contract) (t : Txn) :
    (∃ out, Refused config c t out ∧ ∀ {m : Type → Type} [Monad m]
        (run : Txn → m (Runtime.ExecutionResult × Txn)), t.callx config run c = pure out)
      ∨ ∃ t₁, Entered config c t t₁ ∧ ∀ {m : Type → Type} [Monad m]
        (run : Txn → m (Runtime.ExecutionResult × Txn)),
          t.callx config run c = run t₁ >>= fun p => pure (leave config c t p) := by
  by_cases hdepth : c.depth > maxDepth
  · refine .inl ⟨_, .depth hdepth, fun run => ?_⟩
    simp [callx, applyCreate, applyCall, hdepth]
  have hle := not_lt.mp hdepth
  by_cases hcreate : c.type = .create
  · by_cases hcollision : (t.incrNonce c.caller).hasCodeOrNonce c.address = true
    · refine .inl ⟨_, .collision hcreate hle hcollision, fun run => ?_⟩
      simp [callx, applyCreate, hcreate, hdepth, hcollision]
    have hsnapshots : (t.incrNonce c.caller).snapshots = t.snapshots := snapshots_upsertAccount _ _
    cases htransfer : (newContractAccount config c t).transfer c.caller c.address c.value with
    | error err =>
      refine .inl ⟨_, .createFunds err hcreate htransfer, fun run => ?_⟩
      unfold newContractAccount at htransfer
      simp [callx, applyCreate, hcreate, hdepth, hcollision, htransfer, newContractAccount]
    | ok t₁ =>
      refine .inr ⟨t₁, .create t₁ hcreate hle htransfer, fun run => ?_⟩
      unfold newContractAccount at htransfer
      simp only [callx, applyCreate, hcreate, hdepth, hcollision, htransfer, leave, if_true, if_false,
        Bool.false_eq_true]
      simp only [takeSnapshot, hsnapshots]
  · cases henter : enterCall c c.type t with
    | error err =>
      refine .inl ⟨_, .callFunds err hcreate henter, fun run => ?_⟩
      unfold enterCall at henter
      simp [callx, applyCall, hcreate, hdepth, henter]
    | ok t₁ =>
      refine .inr ⟨t₁, .call t₁ hcreate hle henter, fun run => ?_⟩
      unfold enterCall at henter
      simp only [callx, applyCall, hcreate, hdepth, henter, leave]
      rfl

theorem extends_enterCall {callType : CallType} (h : enterCall c callType t = .ok t') :
    Extends t.takeSnapshot.2 t' := by
  unfold enterCall at h
  have htouch := extends_upsertAccount t.takeSnapshot.2 c.address true id
  split_ifs at h
  · exact htouch.trans (extends_transfer h)
  · obtain rfl := Except.ok.inj h
    exact htouch

theorem extends_newContractAccount (config : ForksInTime) (c : Contract) (t : Txn) :
    Extends (t.incrNonce c.caller).takeSnapshot.2 (newContractAccount config c t) := by
  unfold newContractAccount
  split_ifs
  · exact (extends_createAccount _ _).trans (extends_upsertAccount _ _ _ _)
  · exact Extends.refl _

theorem extends_storeCode (config : ForksInTime) (c : Contract) (id : Nat) (result : Runtime.ExecutionResult)
    (t : Txn) : Extends t (storeCode config c id result t).2 := by
  unfold storeCode
  simp only
  split_ifs
  all_goals first | exact extends_revertTo t id | exact Extends.refl t
                  | exact extends_upsertAccount t _ true _

theorem Entered.saved {t₁ : Txn} (h : Entered config c t t₁) :
    ∃ t₀, Extends t t₀ ∧ t₀.snapshots = t.snapshots ∧ Extends t₀.takeSnapshot.2 t₁
      ∧ t₀ = if c.type = .create then t.incrNonce c.caller else t := by
  cases h with
  | call hcreate _ henter =>
    exact ⟨t, .refl t, rfl, extends_enterCall henter, (if_neg hcreate).symm⟩
  | create hcreate _ htransfer =>
    exact ⟨t.incrNonce c.caller, extends_upsertAccount _ _ _ _, snapshots_upsertAccount _ _,
      (extends_newContractAccount config c t).trans (extends_transfer htransfer), (if_pos hcreate).symm⟩

theorem Entered.extends {t₁ : Txn} (h : Entered config c t t₁) : Extends t t₁ := by
  obtain ⟨t₀, hbefore, _, hafter, _⟩ := h.saved
  exact hbefore.trans ((extends_takeSnapshot t₀).trans hafter)

theorem Refused.extends {out : Runtime.ExecutionResult × Txn} (h : Refused config c t out) : Extends t out.2 := by
  cases h with
  | depth => exact .refl t
  | callFunds => exact (extends_takeSnapshot t).trans (extends_upsertAccount _ _ _ _)
  | collision => exact extends_upsertAccount _ _ _ _
  | createFunds =>
    exact (extends_upsertAccount t c.caller true _).trans
      ((extends_takeSnapshot _).trans (extends_newContractAccount config c t))

theorem extends_leave (config : ForksInTime) (c : Contract) (t : Txn) (p : Runtime.ExecutionResult × Txn) :
    Extends p.2 (leave config c t p).2 := by
  unfold leave
  split_ifs
  · exact extends_storeCode _ _ _ _ _
  · exact extends_revertTo _ _
  · exact .refl _

end Txn

namespace Behaviour

variable [Keccak] {env : HostEnv}

@[simp]
theorem run_callx (c : Contract) (child : Behaviour) (k : Runtime.ExecutionResult → Behaviour) (t : Txn)
    (calls : List HostCall) :
    (callx c child k).run env t calls =
      (k (child.call env c t calls).1.1).run env (child.call env c t calls).1.2
        (child.call env c t calls).2 := rfl

theorem call_cases (env : HostEnv) (b : Behaviour) (c : Contract) (t : Txn) (calls : List HostCall) :
    (∃ out, Txn.Refused env.config c t out ∧ b.call env c t calls = (out, calls))
      ∨ ∃ t₁, Txn.Entered env.config c t t₁ ∧ b.call env c t calls =
        (Txn.leave env.config c t (b.run env t₁ calls).1, (b.run env t₁ calls).2) := by
  rcases Txn.callx_cases env.config c t with ⟨out, hrefused, hcall⟩ | ⟨t₁, hentered, hcall⟩
  · refine .inl ⟨out, hrefused, ?_⟩
    rw [call, hcall]
    rfl
  · refine .inr ⟨t₁, hentered, ?_⟩
    rw [call, hcall]
    rfl

theorem extends_run (env : HostEnv) (b : Behaviour) (t : Txn) (calls : List HostCall) :
    Txn.Extends t (b.run env t calls).1.2 := by
  induction b generalizing t calls with
  | done result => exact .refl t
  | host call k ih =>
    exact (Txn.extends_answer env t call).trans (ih _ _ _)
  | callx c child k ihchild ih =>
    rw [run_callx]
    refine Txn.Extends.trans ?_ (ih _ _ _)
    rcases call_cases env child c t calls with ⟨out, hrefused, hcall⟩ | ⟨t₁, hentered, hcall⟩
    · rw [hcall]
      exact hrefused.extends
    · rw [hcall]
      exact hentered.extends.trans ((ihchild t₁ calls).trans (Txn.extends_leave _ _ _ _))

end Behaviour

end Nxchain
