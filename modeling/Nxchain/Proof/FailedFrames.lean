import Nxchain.Proof.CodeCache
import Nxchain.Proof.Frames

namespace Nxchain

namespace Txn

structure SameButNonces (t t' : Txn) : Prop where
  balance : ∀ addr, t'.getBalance addr = t.getBalance addr
  code : ∀ addr, t'.code addr = t.code addr
  storage : ∀ addr key, t'.getState addr key = t.getState addr key
  suicided : ∀ addr, t'.hasSuicided addr = t.hasSuicided addr
  logs : t'.overlay.logs = t.overlay.logs
  refund : t'.getRefund = t.getRefund

variable {t t' t'' : Txn}

theorem SameButNonces.refl (t : Txn) : SameButNonces t t := by
  constructor <;> intros <;> rfl

theorem SameButNonces.trans (h : SameButNonces t t') (h' : SameButNonces t' t'') :
    SameButNonces t t'' where
  balance addr := (h'.balance addr).trans (h.balance addr)
  code addr := (h'.code addr).trans (h.code addr)
  storage addr key := (h'.storage addr key).trans (h.storage addr key)
  suicided addr := (h'.suicided addr).trans (h.suicided addr)
  logs := h'.logs.trans h.logs
  refund := h'.refund.trans h.refund

def CacheCoherent (t : Txn) : Prop :=
  ∀ addr object, t.getStateObject addr = some object → object.dirtyCode = false →
    ∀ code ∈ t.codeCache.peek addr,
      code = (t.snapshot.getCode (FixedBytes.ofBytes 32 object.account.codeHash)).getD []

theorem CacheCoherent.getCode_eq (h : t.CacheCoherent) (addr : Address) :
    (t.getCode addr).1 = t.code addr := by
  cases hobject : t.getStateObject addr with
  | none => simp only [Txn.getCode, code, hobject]
  | some object =>
    cases hdirty : object.dirtyCode with
    | true => simp only [Txn.getCode, code, hobject, hdirty, if_true]
    | false =>
      rw [CodeCache.getCode_of_clean hobject hdirty]
      simp only [code, hobject, hdirty, Bool.false_eq_true, if_false]
      cases hpeek : t.codeCache.peek addr with
      | none => rfl
      | some cached => exact h addr object hobject hdirty cached hpeek

theorem SameButNonces.getCode_eq (h : SameButNonces t t') (hcache : t.CacheCoherent)
    (hcache' : t'.CacheCoherent) (addr : Address) : (t'.getCode addr).1 = (t.getCode addr).1 := by
  rw [hcache.getCode_eq, hcache'.getCode_eq, h.code]

theorem sameButNonces_of_overlay (hsnapshot : t'.snapshot = t.snapshot) (hoverlay : t'.overlay = t.overlay) :
    SameButNonces t t' ∧ ∀ addr, t'.getNonce addr = t.getNonce addr := by
  have hobject : ∀ addr, t'.getStateObject addr = t.getStateObject addr :=
    SameView.getStateObject ⟨hsnapshot, congrArg Overlay.objects hoverlay⟩
  refine ⟨⟨?_, ?_, ?_, ?_, congrArg Overlay.logs hoverlay, congrArg Overlay.refund hoverlay⟩, ?_⟩
  · intro addr
    rw [getBalance, hobject, getBalance]
  · intro addr
    rw [code, hobject, hsnapshot, code]
  · intro addr key
    rw [getState, hobject, hsnapshot, getState]
  · intro addr
    rw [hasSuicided, hobject, hasSuicided]
  · intro addr
    rw [getNonce, hobject, getNonce]

variable [Keccak]

def NoCodeAtEmptyHash (snapshot : ReadSnapshot) : Prop :=
  (snapshot.getCode (keccak256 [])).getD [] = []

structure OnlyNonce (object object' : StateObject) : Prop where
  balance : object'.account.balance = object.account.balance
  root : object'.account.root = object.account.root
  codeHash : object'.account.codeHash = object.account.codeHash
  code : object'.code = object.code
  suicide : object'.suicide = object.suicide
  deleted : object'.deleted = object.deleted
  dirtyCode : object'.dirtyCode = object.dirtyCode
  storage : object'.storage = object.storage

theorem sameButNonces_upsertAccount (hempty : NoCodeAtEmptyHash t.snapshot) {f : StateObject → StateObject}
    (hf : ∀ object, OnlyNonce object (f object)) (addr : Address) (create : Bool) :
    SameButNonces t (t.upsertAccount addr create f) := by
  have hdeleted : ∀ object, (f object).deleted = object.deleted := fun object => (hf object).deleted
  have hsnapshot : (t.upsertAccount addr create f).snapshot = t.snapshot := snapshot_upsertAccount _ _
  refine ⟨?_, ?_, ?_, ?_, logs_upsertAccount _ _, refund_upsertAccount _ _⟩
  · intro other
    rw [getBalance_eq_read, getBalance_eq_read]
    apply read_upsertAccount hdeleted
    · exact fun object => (hf object).balance
    · rfl
  · intro other
    rw [code_eq_read, code_eq_read, hsnapshot]
    apply read_upsertAccount hdeleted
    · intro object
      rw [(hf object).dirtyCode, (hf object).code, (hf object).codeHash]
    · have hhash : FixedBytes.ofBytes 32 newStateObject.account.codeHash = keccak256 [] :=
        FixedBytes.ofBytes_toBytes _
      rw [hhash]
      exact hempty
  · intro other key
    rw [getState_eq_read, getState_eq_read, hsnapshot]
    apply read_upsertAccount hdeleted
    · intro object
      rw [(hf object).storage, (hf object).root]
    · exact t.snapshot.getStorage_empty other key
  · intro other
    rw [hasSuicided_eq_read, hasSuicided_eq_read]
    apply read_upsertAccount hdeleted
    · exact fun object => (hf object).suicide
    · rfl

theorem getNonce_incrNonce (t : Txn) (addr other : Address) :
    (t.incrNonce addr).getNonce other =
      if other = addr then (t.getNonce other + 1) % 2 ^ 64 else t.getNonce other := by
  rw [getNonce_eq_read, getNonce_eq_read]
  unfold read
  by_cases hother : other = addr
  · subst hother
    rw [if_pos rfl, incrNonce, getStateObject_upsertAccount_self (by intro _; rfl)]
    unfold objectOrNew
    cases t.getStateObject other <;> rfl
  · rw [if_neg hother, incrNonce, getStateObject_upsertAccount_ne _ _ hother]

theorem sameButNonces_incrNonce (hempty : NoCodeAtEmptyHash t.snapshot) (addr : Address) :
    SameButNonces t (t.incrNonce addr) :=
  sameButNonces_upsertAccount hempty (by intro _; constructor <;> rfl) addr true

omit [Keccak] in
theorem getBalance_takeSnapshot (t : Txn) (addr : Address) :
    t.takeSnapshot.2.getBalance addr = t.getBalance addr := rfl

theorem getBalance_upsertAccount {f : StateObject → StateObject}
    (hdeleted : ∀ object, (f object).deleted = object.deleted)
    (hf : ∀ object, (f object).account.balance = object.account.balance) (addr other : Address) (create : Bool) :
    (t.upsertAccount addr create f).getBalance other = t.getBalance other := by
  rw [getBalance_eq_read, getBalance_eq_read]
  apply read_upsertAccount hdeleted
  · exact hf
  · rfl

theorem getBalance_touchAccount (t : Txn) (addr other : Address) :
    (t.touchAccount addr).getBalance other = t.getBalance other :=
  getBalance_upsertAccount (f := id) (fun _ => rfl) (fun _ => rfl) addr other true

theorem getBalance_createAccount (t : Txn) (addr other : Address) :
    (t.createAccount addr).getBalance other = t.getBalance other := by
  unfold createAccount getBalance
  by_cases hother : other = addr
  · subst hother
    cases hobject : t.getStateObject other with
    | none =>
      rw [getStateObject_insertObject_self _ rfl]
      rfl
    | some prev =>
      rw [getStateObject_insertObject_self _ rfl]
      rfl
  · cases t.getStateObject addr with
    | none => rw [getStateObject_insertObject_ne _ hother]
    | some prev => rw [getStateObject_insertObject_ne _ hother]

theorem getBalance_newContractAccount (config : ForksInTime) (c : Contract) (t : Txn) (addr : Address) :
    (newContractAccount config c t).getBalance addr = t.getBalance addr := by
  have hnonce : ∀ (t : Txn) (a : Address), (t.incrNonce a).getBalance addr = t.getBalance addr :=
    fun t a => getBalance_upsertAccount (by intro _; rfl) (by intro _; rfl) a addr true
  unfold newContractAccount
  split_ifs
  · rw [hnonce, getBalance_createAccount, getBalance_takeSnapshot, hnonce]
  · rw [getBalance_takeSnapshot, hnonce]

theorem transfer_ne_error {sender recipient : Address} {amount : Option Int}
    (howns : ∀ v ∈ amount, v ≤ t.getBalance sender) (err : Runtime.Error) :
    t.transfer sender recipient amount ≠ .error err := by
  unfold transfer subBalance
  cases amount with
  | none => simp
  | some amount =>
    have hle := not_lt.mpr (howns amount rfl)
    by_cases hzero : amount = 0
    · simp [hzero]
    · simp [hzero, hle]

omit [Keccak] in
theorem revertTo_overlay {t₀ : Txn} (hsnapshots : t₀.snapshots = t.snapshots)
    (hsaved : Extends t₀.takeSnapshot.2 t') :
    (t'.revertTo t.snapshots.length).snapshot = t'.snapshot
      ∧ (t'.revertTo t.snapshots.length).overlay = t₀.overlay := by
  rw [← hsnapshots, revertTo_eq hsaved]
  exact ⟨rfl, rfl⟩

theorem leave_of_failed {config : ForksInTime} (hhomestead : config.homestead = true) {c : Contract} {t₀ : Txn}
    {p : Runtime.ExecutionResult × Txn} (hsnapshots : t₀.snapshots = t.snapshots)
    (hsaved : Extends t₀.takeSnapshot.2 p.2) (hfailed : (leave config c t p).1.failed = true) :
    (leave config c t p).2.snapshot = p.2.snapshot ∧ (leave config c t p).2.overlay = t₀.overlay := by
  have hrevert := revertTo_overlay hsnapshots hsaved
  unfold leave at hfailed ⊢
  by_cases hcreate : c.type = .create
  · unfold storeCode at hfailed ⊢
    simp only [hhomestead, if_true] at hfailed ⊢
    split_ifs at hfailed ⊢
    · exact hrevert
    · exact hrevert
    · exact hrevert
    · contradiction
  · simp only [hcreate, if_false] at hfailed ⊢
    rw [if_pos hfailed]
    exact hrevert

end Txn

def Contract.Creates (c : Contract) : Prop := c.type = .create ∧ c.depth ≤ Txn.maxDepth

instance (c : Contract) : Decidable c.Creates := inferInstanceAs (Decidable (_ ∧ _))

namespace Behaviour

variable [Keccak] {env : HostEnv}

theorem call_of_failed (hhomestead : env.config.homestead = true) (b : Behaviour) {c : Contract} {t : Txn}
    (howns : c.type = .call ∨ c.type = .create → ∀ v ∈ c.value, v ≤ t.getBalance c.caller) (calls : List HostCall)
    (hfailed : (b.call env c t calls).1.1.failed = true) :
    (b.call env c t calls).1.2.snapshot = t.snapshot ∧
      (b.call env c t calls).1.2.overlay =
        if c.Creates then (t.incrNonce c.caller).overlay else t.overlay := by
  rcases call_cases env b c t calls with ⟨out, hrefused, hcall⟩ | ⟨t₁, hentered, hcall⟩
  · rw [hcall]
    refine ⟨hrefused.extends.snapshot, ?_⟩
    cases hrefused with
    | depth hdepth => rw [if_neg fun h => absurd h.2 (not_le.mpr hdepth)]
    | collision hcreate hdepth _ => rw [if_pos ⟨hcreate, hdepth⟩]
    | callFunds err hcreate henter =>
      -- the caller owns the value, so the transfer did not fail
      unfold Txn.enterCall at henter
      by_cases htype : c.type = .call
      · rw [if_pos htype] at henter
        refine absurd henter (Txn.transfer_ne_error ?_ err)
        rw [Txn.getBalance_touchAccount]
        exact howns (.inl htype)
      · rw [if_neg htype] at henter
        cases henter
    | createFunds err hcreate htransfer =>
      refine absurd htransfer (Txn.transfer_ne_error ?_ err)
      rw [Txn.getBalance_newContractAccount]
      exact howns (.inr hcreate)
  · rw [hcall] at hfailed ⊢
    obtain ⟨t₀, _, hsnapshots, hsaved, ht₀⟩ := hentered.saved
    have hrun := extends_run env b t₁ calls
    obtain ⟨hsnapshot, hoverlay⟩ := Txn.leave_of_failed hhomestead hsnapshots (hsaved.trans hrun) hfailed
    refine ⟨hsnapshot.trans (hrun.snapshot.trans hentered.extends.snapshot), hoverlay.trans ?_⟩
    rw [ht₀]
    cases hentered with
    | call hcreate _ _ => rw [if_neg hcreate, if_neg fun h => hcreate h.1]
    | create hcreate hdepth _ => rw [if_pos hcreate, if_pos ⟨hcreate, hdepth⟩]

theorem failed_call_leaves_no_trace (hhomestead : env.config.homestead = true) (b : Behaviour) {c : Contract}
    {t : Txn} (hempty : Txn.NoCodeAtEmptyHash t.snapshot)
    (howns : c.type = .call ∨ c.type = .create → ∀ v ∈ c.value, v ≤ t.getBalance c.caller) (calls : List HostCall)
    (hfailed : (b.call env c t calls).1.1.failed = true) :
    Txn.SameButNonces t (b.call env c t calls).1.2 ∧
      ∀ addr, (b.call env c t calls).1.2.getNonce addr =
        if c.Creates ∧ addr = c.caller then (t.getNonce addr + 1) % 2 ^ 64 else t.getNonce addr := by
  obtain ⟨hsnapshot, hoverlay⟩ := call_of_failed hhomestead b howns calls hfailed
  by_cases hcreates : c.Creates
  · rw [if_pos hcreates] at hoverlay
    have hincr : (t.incrNonce c.caller).snapshot = t.snapshot := Txn.snapshot_upsertAccount _ _
    obtain ⟨hsame, hnonce⟩ := Txn.sameButNonces_of_overlay (hsnapshot.trans hincr.symm) hoverlay
    refine ⟨(Txn.sameButNonces_incrNonce hempty c.caller).trans hsame, ?_⟩
    intro addr
    rw [hnonce, Txn.getNonce_incrNonce]
    simp only [hcreates, true_and]
  · rw [if_neg hcreates] at hoverlay
    obtain ⟨hsame, hnonce⟩ := Txn.sameButNonces_of_overlay hsnapshot hoverlay
    refine ⟨hsame, ?_⟩
    intro addr
    rw [hnonce, if_neg fun h => hcreates h.1]

end Behaviour

section Sample

local instance : Keccak := sampleKeccak

def richSnapshot : ReadSnapshot where
  getStorage _ _ _ := zeroHash
  getAccount addr :=
    if addr = FixedBytes.ofBytes 20 [1] then
      some { nonce := 4, balance := 1000, root := emptyStateHash, codeHash := emptyCodeHash }
    else if addr = FixedBytes.ofBytes 20 [2] then
      some { nonce := 1, balance := 10, root := emptyStateHash, codeHash := emptyCodeHash }
    else none
  getCode _ := none
  getStorage_empty _ _ := rfl

def sampleEnv : HostEnv where
  config := istanbulRules
  ctx := {
    gasPrice := 1, origin := FixedBytes.ofBytes 20 [1], coinbase := FixedBytes.ofBytes 20 [9],
    number := 1, timestamp := 0, gasLimit := 50000, chainID := 100, difficulty := 1 }
  getHash _ := zeroHash

def creation : Contract :=
  { Contract.newContractCreation 1 (FixedBytes.ofBytes 20 [1]) (FixedBytes.ofBytes 20 [1])
      (FixedBytes.ofBytes 20 [7]) (some 5) 30000 [] with type := .create }

def wildBehaviour : Behaviour :=
  .host (.setStorage (FixedBytes.ofBytes 20 [7]) (word 1) (word 2) istanbulRules) fun _ =>
    .host (.selfdestruct (FixedBytes.ofBytes 20 [2]) (FixedBytes.ofBytes 20 [1])) fun _ =>
      .done ⟨[], 0, some .outOfGas⟩

theorem failed_creation_leaves_no_trace :
    (wildBehaviour.call sampleEnv creation (Txn.newTxn richSnapshot) []).1.1.failed = true ∧
      Txn.SameButNonces (Txn.newTxn richSnapshot)
        (wildBehaviour.call sampleEnv creation (Txn.newTxn richSnapshot) []).1.2 ∧
      ∀ addr, (wildBehaviour.call sampleEnv creation (Txn.newTxn richSnapshot) []).1.2.getNonce addr =
        if creation.Creates ∧ addr = creation.caller then
          ((Txn.newTxn richSnapshot).getNonce addr + 1) % 2 ^ 64
        else (Txn.newTxn richSnapshot).getNonce addr :=
  have hfailed : (wildBehaviour.call sampleEnv creation (Txn.newTxn richSnapshot) []).1.1.failed = true :=
    by decide +kernel
  have hempty : Txn.NoCodeAtEmptyHash (Txn.newTxn richSnapshot).snapshot := rfl
  ⟨hfailed, Behaviour.failed_call_leaves_no_trace rfl wildBehaviour hempty (fun _ => by decide +kernel) [] hfailed⟩

end Sample

end Nxchain
