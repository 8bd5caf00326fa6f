import Mathlib.Algebra.BigOperators.Fin
import Nxchain.Proof.GasPool

open scoped BigOperators

namespace Nxchain

noncomputable local instance (n : Nat) : Fintype (FixedBytes n) :=
  Fintype.ofInjective
    (fun b (i : Fin n) => (b.toBytes.get (i.cast b.length_toBytes.symm)).toFin) (by
      intro left right heq
      apply FixedBytes.ext
      apply List.ext_getElem (left.length_toBytes.trans right.length_toBytes.symm)
      intro i hleft hright
      have hi : i < n := left.length_toBytes ▸ hleft
      exact UInt8.toFin_inj.mp (congrFun heq ⟨i, hi⟩))

namespace Txn

variable {config : ForksInTime} {c : Contract}

noncomputable def supply (t : Txn) : Nat := ∑ addr : Address, t.getBalance addr

variable {t t' : Txn}

theorem supply_congr (h : ∀ addr, t'.getBalance addr = t.getBalance addr) : t'.supply = t.supply :=
  Finset.sum_congr rfl fun addr _ => h addr

theorem supply_update {addr : Address} {balance : Nat}
    (h : t'.getBalance = Function.update t.getBalance addr balance) :
    t'.supply + t.getBalance addr = t.supply + balance := by
  have hsum := Finset.sum_erase_add Finset.univ t.getBalance (Finset.mem_univ addr)
  calc
    ∑ other, t'.getBalance other + t.getBalance addr =
        ∑ other, Function.update t.getBalance addr balance other + t.getBalance addr := by rw [h]
    _ = balance + ∑ other ∈ Finset.univ \ {addr}, t.getBalance other + t.getBalance addr := by
      rw [Finset.sum_update_of_mem (Finset.mem_univ addr)]
    _ = ∑ other, t.getBalance other + balance := by
      rw [Finset.sdiff_singleton_eq_erase]
      omega

variable [Keccak]

theorem getBalance_withBalance (addr : Address) (g : Nat → Nat) :
    (t.upsertAccount addr true fun object =>
        object.withBalance (g object.account.balance)).getBalance =
      Function.update t.getBalance addr (g (t.getBalance addr)) := by
  funext other
  by_cases hother : other = addr
  · subst hother
    rw [Function.update_self, getBalance, getStateObject_upsertAccount_self (by intro _; rfl),
      getBalance, objectOrNew]
    cases t.getStateObject other <;> rfl
  · rw [Function.update_of_ne hother, getBalance, getStateObject_upsertAccount_ne _ _ hother, getBalance]

theorem getBalance_setBalance (addr : Address) (balance : Nat) :
    (t.setBalance addr balance).getBalance = Function.update t.getBalance addr balance :=
  getBalance_withBalance addr fun _ => balance

theorem supply_addBalance (addr : Address) {amount : Int} (hamount : 0 ≤ amount) :
    (t.addBalance addr amount).supply = t.supply + amount.toNat := by
  have hupdate := supply_update (getBalance_withBalance (t := t) addr
    fun balance => ((balance : Int) + amount).natAbs)
  change (t.addBalance addr amount).supply + _ = _ at hupdate
  omega

theorem supply_subBalance {addr : Address} {amount : Int} (hamount : 0 ≤ amount)
    (h : t.subBalance addr amount = some t') : t'.supply + amount.toNat = t.supply := by
  unfold subBalance at h
  split_ifs at h with hzero hfunds
  · obtain rfl := Option.some.inj h
    simp [hzero]
  · obtain rfl := Option.some.inj h
    have hupdate := supply_update (getBalance_withBalance (t := t) addr
      fun balance => ((balance : Int) - amount).natAbs)
    omega

theorem supply_transfer {sender recipient : Address} {amount : Option Int} (hamount : ∀ v ∈ amount, 0 ≤ v)
    (h : t.transfer sender recipient amount = .ok t') : t'.supply = t.supply := by
  unfold transfer at h
  cases amount with
  | none =>
    obtain rfl := Except.ok.inj h
    rfl
  | some amount =>
    cases hsub : t.subBalance sender amount with
    | none => simp [hsub] at h
    | some t₁ =>
      simp only [hsub] at h
      obtain rfl := Except.ok.inj h
      rw [supply_addBalance recipient (hamount amount rfl)]
      exact supply_subBalance (hamount amount rfl) hsub

theorem supply_upsertAccount {f : StateObject → StateObject}
    (hdeleted : ∀ object, (f object).deleted = object.deleted)
    (hf : ∀ object, (f object).account.balance = object.account.balance) (addr : Address) (create : Bool) :
    (t.upsertAccount addr create f).supply = t.supply :=
  supply_congr fun other => getBalance_upsertAccount hdeleted hf addr other create

theorem supply_incrNonce (addr : Address) : (t.incrNonce addr).supply = t.supply :=
  supply_upsertAccount (by intro _; rfl) (by intro _; rfl) addr true

theorem supply_setNonce (addr : Address) (nonce : Nat) : (t.setNonce addr nonce).supply = t.supply :=
  supply_upsertAccount (by intro _; rfl) (by intro _; rfl) addr true

theorem supply_setCode (addr : Address) (code : Bytes) : (t.setCode addr code).supply = t.supply :=
  supply_upsertAccount (by intro _; rfl) (by intro _; rfl) addr true

theorem supply_setStorage (addr : Address) (key value : Hash) (config : ForksInTime) :
    (t.setStorage addr key value config).2.supply = t.supply := by
  rcases t.setStorage_cases addr key value config with ⟨_, hsame⟩ | ⟨_, refund, hset⟩
  · rw [hsame]
  · rw [hset]
    exact supply_upsertAccount (by intro _; rfl) (by intro _; rfl) addr true

theorem getBalance_suicide (addr : Address) :
    (t.suicide addr).getBalance = Function.update t.getBalance addr 0 := by
  funext other
  by_cases hother : other = addr
  · subst hother
    rw [Function.update_self, getBalance, suicide, upsertAccount]
    cases hobject : t.getStateObject other with
    | none => simp [hobject]
    | some object =>
      have halive := deleted_of_getStateObject hobject
      rw [getStateObject_insertObject_self _ (by exact halive)]
      rfl
  · rw [Function.update_of_ne hother, getBalance, suicide, getStateObject_upsertAccount_ne _ _ hother, getBalance]

theorem supply_selfdestruct (addr beneficiary : Address) :
    (t.selfdestruct addr beneficiary).supply ≤ t.supply ∧
      (addr ≠ beneficiary → (t.selfdestruct addr beneficiary).supply = t.supply) := by
  have hrefund : ∀ other, Txn.getBalance (if t.hasSuicided addr then t else t.addRefund 24000) other
      = t.getBalance other := by
    intro other
    split_ifs
    · rfl
    · exact (sameView_addRefund t 24000).getBalance other
  unfold selfdestruct
  simp only
  generalize (if t.hasSuicided addr then t else t.addRefund 24000) = t₁ at hrefund ⊢
  have hsupply : t₁.supply = t.supply := supply_congr hrefund
  have hadd := supply_addBalance (t := t₁) beneficiary (Int.natCast_nonneg (t₁.getBalance addr))
  have hsuicide := supply_update (getBalance_suicide (t := t₁.addBalance beneficiary (t₁.getBalance addr)) addr)
  have hbalance : (t₁.addBalance beneficiary (t₁.getBalance addr)).getBalance =
      Function.update t₁.getBalance beneficiary ((t₁.getBalance beneficiary : Int) + t₁.getBalance addr).natAbs :=
    getBalance_withBalance beneficiary fun balance => ((balance : Int) + t₁.getBalance addr).natAbs
  rw [Int.toNat_natCast] at hadd
  by_cases hself : addr = beneficiary
  · subst hself
    rw [hbalance, Function.update_self] at hsuicide
    exact ⟨by omega, fun h => absurd rfl h⟩
  · rw [hbalance, Function.update_of_ne hself] at hsuicide
    exact ⟨by omega, fun _ => by omega⟩

theorem supply_answer (env : HostEnv) (call : HostCall) :
    (t.answer env call).2.supply ≤ t.supply ∧
      ((∀ addr, call ≠ .selfdestruct addr addr) → (t.answer env call).2.supply = t.supply) := by
  cases call with
  | setStorage addr key value config =>
    have hsame := supply_setStorage (t := t) addr key value config
    exact ⟨hsame.le, fun _ => hsame⟩
  | selfdestruct addr beneficiary =>
    obtain ⟨hle, hsame⟩ := supply_selfdestruct (t := t) addr beneficiary
    refine ⟨hle, fun hnot => hsame ?_⟩
    rintro rfl
    exact hnot addr rfl
  | getCode addr | getCodeSize addr =>
    obtain ⟨cache, hcache⟩ := t.getCode_snd addr
    have hsame : (t.getCode addr).2.supply = t.supply := by
      rw [hcache]
      rfl
    exact ⟨hsame.le, fun _ => hsame⟩
  | accountExists | getStorage | getBalance | getCodeHash | getTxContext | getBlockHash | emitLog
  | empty | getNonce => exact ⟨le_rfl, fun _ => rfl⟩

theorem supply_newContractAccount (config : ForksInTime) (c : Contract) :
    (newContractAccount config c t).supply = t.supply :=
  supply_congr (getBalance_newContractAccount config c t)

theorem supply_touchAccount (addr : Address) : (t.touchAccount addr).supply = t.supply :=
  supply_congr (getBalance_touchAccount t addr)

theorem Refused.supply_eq {out : Runtime.ExecutionResult × Txn} (h : Refused config c t out) :
    out.2.supply = t.supply := by
  cases h with
  | depth => rfl
  | callFunds => exact supply_touchAccount c.address
  | collision => exact supply_incrNonce c.caller
  | createFunds => exact supply_newContractAccount config c

theorem Entered.supply_eq (hvalue : ∀ v ∈ c.value, 0 ≤ v) (h : Entered config c t t') : t'.supply = t.supply := by
  cases h with
  | call _ _ henter =>
    unfold enterCall at henter
    split_ifs at henter
    · exact (supply_transfer hvalue henter).trans (supply_touchAccount c.address)
    · obtain rfl := Except.ok.inj henter
      exact supply_touchAccount c.address
  | create _ _ htransfer =>
    exact (supply_transfer hvalue htransfer).trans (supply_newContractAccount config c)

theorem supply_leave {t₁ : Txn} {p : Runtime.ExecutionResult × Txn} (hentered : Entered config c t t₁)
    (hextends : Extends t₁ p.2) :
    (leave config c t p).2.supply = p.2.supply ∨ (leave config c t p).2.supply = t.supply := by
  obtain ⟨t₀, _, hsnapshots, hsaved, ht₀⟩ := hentered.saved
  have hsupply : t₀.supply = t.supply := by
    rw [ht₀]
    split_ifs
    · exact supply_incrNonce c.caller
    · rfl
  have hrevert : (p.2.revertTo t.snapshots.length).supply = t.supply := by
    obtain ⟨hsnapshot, hoverlay⟩ := revertTo_overlay hsnapshots (hsaved.trans hextends)
    refine (supply_congr fun addr => ?_).trans hsupply
    have hsame : (p.2.revertTo t.snapshots.length).snapshot = t₀.snapshot :=
      hsnapshot.trans (hsaved.trans hextends).snapshot
    exact (sameButNonces_of_overlay hsame hoverlay).1.balance addr
  unfold leave storeCode
  simp only
  split_ifs
  · exact .inr hrevert
  · exact .inr hrevert
  · exact .inr hrevert
  · exact .inl rfl
  · exact .inl (supply_setCode c.address _)
  · exact .inr hrevert
  · exact .inl rfl

end Txn

structure Conserves (s s' : Recorded) : Prop where
  le : s'.txn.supply ≤ s.txn.supply
  calls : ∃ new, s'.calls = s.calls ++ new ∧
    ((∀ addr, HostCall.selfdestruct addr addr ∉ new) → s'.txn.supply = s.txn.supply)

namespace Conserves

variable {s s' s'' : Recorded}

theorem of_eq (hsupply : s'.txn.supply = s.txn.supply) (hcalls : s'.calls = s.calls) : Conserves s s' :=
  ⟨hsupply.le, [], by simpa using hcalls, fun _ => hsupply⟩

theorem trans (h : Conserves s s') (h' : Conserves s' s'') : Conserves s s'' := by
  obtain ⟨new, hnew, hsame⟩ := h.calls
  obtain ⟨new', hnew', hsame'⟩ := h'.calls
  refine ⟨h'.le.trans h.le, new ++ new', ?_, ?_⟩
  · rw [hnew', hnew, List.append_assoc]
  · intro hnot
    rw [hsame' fun addr hmem => hnot addr (List.mem_append_right _ hmem),
      hsame fun addr hmem => hnot addr (List.mem_append_left _ hmem)]

end Conserves

namespace Behaviour

variable [Keccak] {env : HostEnv} {b : Behaviour}

theorem conserves_host (t : Txn) (calls : List HostCall) (call : HostCall) :
    Conserves ⟨t, calls⟩ ⟨(t.answer env call).2, calls ++ [call]⟩ := by
  obtain ⟨hle, hsame⟩ := Txn.supply_answer (t := t) env call
  refine ⟨hle, [call], rfl, fun hnot => hsame ?_⟩
  rintro addr rfl
  exact hnot addr (List.mem_singleton_self _)

theorem conserves_call {c : Contract} (hvalue : ∀ v ∈ c.value, 0 ≤ v)
    (hrun : ∀ t calls, Conserves ⟨t, calls⟩ ⟨(b.run env t calls).1.2, (b.run env t calls).2⟩) (t : Txn)
    (calls : List HostCall) : Conserves ⟨t, calls⟩ ⟨(b.call env c t calls).1.2, (b.call env c t calls).2⟩ := by
  rcases call_cases env b c t calls with ⟨out, hrefused, hcall⟩ | ⟨t₁, hentered, hcall⟩
  · rw [hcall]
    exact .of_eq hrefused.supply_eq rfl
  · rw [hcall]
    have henter := hentered.supply_eq hvalue
    obtain ⟨hle, new, hnew, hsame⟩ := hrun t₁ calls
    rcases Txn.supply_leave hentered (extends_run env b t₁ calls) with hkept | hreverted
    · refine ⟨hkept.le.trans (hle.trans henter.le), new, hnew, fun hnot => ?_⟩
      exact hkept.trans ((hsame hnot).trans henter)
    · exact ⟨hreverted.le, new, hnew, fun _ => hreverted⟩

theorem PassesNoDebt.conserves (hdebt : b.PassesNoDebt) (t : Txn) (calls : List HostCall) :
    Conserves ⟨t, calls⟩ ⟨(b.run env t calls).1.2, (b.run env t calls).2⟩ := by
  induction b generalizing t calls with
  | done result => exact .of_eq rfl rfl
  | host call k ih => exact (conserves_host t calls call).trans (ih _ (hdebt _) _ _)
  | callx c child k ihchild ih =>
    obtain ⟨hvalue, hchild, hk⟩ := hdebt
    exact (conserves_call hvalue (fun t calls => ihchild hchild t calls) t calls).trans (ih _ (hk _) _ _)

end Behaviour

section Transactions

variable [Keccak] (code : Code) {s s' : Recorded} {addr : Address} {amount : Nat}

theorem supply_addBalance_overlayWorld (s : Recorded) (addr : Address) (amount : Nat) :
    ((overlayWorld code).addBalance s addr amount).txn.supply = s.txn.supply + amount := by
  have hupdate := Txn.supply_update (Txn.getBalance_setBalance (t := s.txn) addr (s.txn.getBalance addr + amount))
  change ((overlayWorld code).addBalance s addr amount).txn.supply + _ = _ at hupdate
  omega

theorem supply_subBalance_overlayWorld (h : (overlayWorld code).subBalance s addr amount = some s') :
    s'.txn.supply + amount = s.txn.supply ∧ s'.calls = s.calls := by
  unfold World.subBalance at h
  split_ifs at h with hzero hfunds
  · obtain rfl := Option.some.inj h
    exact ⟨by rw [hzero, Nat.add_zero], rfl⟩
  · obtain rfl := Option.some.inj h
    refine ⟨?_, rfl⟩
    have hupdate := Txn.supply_update (Txn.getBalance_setBalance (t := s.txn) addr (s.txn.getBalance addr - amount))
    change ¬ s.txn.getBalance addr < amount at hfunds
    change (s.txn.setBalance addr ((s.txn.getBalance addr - amount : Nat) : Int)).supply + amount = _
    omega

theorem conserves_incrNonce (s : Recorded) (addr : Address) : Conserves s ((overlayWorld code).incrNonce s addr) :=
  .of_eq (Txn.supply_setNonce addr _) rfl

variable (hdebt : ∀ c, (code c).1.PassesNoDebt)

include hdebt

theorem conserves_create2 (config : ForksInTime) (ctx : TxContext) (getHash : Nat → Hash) (caller : Address)
    (input : Bytes) (value gas : Nat) (s : Recorded) :
    Conserves s ((overlayWorld code).create2 config ctx getHash caller input value gas s).2 := by
  apply Behaviour.conserves_call
  · rintro v ⟨rfl⟩
    exact Int.natCast_nonneg value
  · exact fun t calls => (hdebt _).conserves t calls

theorem conserves_call2 (config : ForksInTime) (ctx : TxContext) (getHash : Nat → Hash) (caller recipient : Address)
    (input : Bytes) (value gas : Nat) (s : Recorded) :
    Conserves s
      ((overlayWorld code).call2 config ctx getHash caller recipient input value gas s).2 := by
  -- reading the code of the recipient only fills the cache
  have hread : Conserves s ⟨(s.txn.getCode recipient).2, s.calls⟩ := by
    obtain ⟨cache, hcache⟩ := s.txn.getCode_snd recipient
    refine .of_eq (Txn.supply_congr fun addr => ?_) rfl
    rw [hcache]
    rfl
  refine hread.trans (Behaviour.conserves_call ?_ ?_ _ _)
  · rintro v ⟨rfl⟩
    exact Int.natCast_nonneg value
  · exact fun t calls => (hdebt _).conserves t calls

theorem conserves_run (e : Executor Recorded) (t : Transition Recorded) {msg : Transaction} {gas : Nat}
    (hgas : gas ≤ msg.gas) (hpaid : t.state.txn.supply + msg.gasPrice * msg.gas = s.txn.supply)
    (hcalls : t.state.calls = s.calls) : Conserves s ((e.withCode code).run t msg gas).2.state := by
  -- the contract runs between the payment and the two refunds
  have hrefunds : ∀ (result : ExecutionResult gas) (s' : Recorded), Conserves t.state s' →
      let use := result.updateGasUsed msg.gas ((overlayWorld code).getRefund s')
      let paid := (overlayWorld code).addBalance s' msg.sender (use.gasLeft * msg.gasPrice)
      Conserves s ((overlayWorld code).addBalance paid t.ctx.coinbase (use.gasUsed * msg.gasPrice)) := by
    intro result s' hconserves use paid
    obtain ⟨hle, new, hnew, hsame⟩ := hconserves
    have hsupply : ((overlayWorld code).addBalance paid t.ctx.coinbase
        (use.gasUsed * msg.gasPrice)).txn.supply = s'.txn.supply + msg.gasPrice * msg.gas := by
      calc
        _ = s'.txn.supply + use.gasLeft * msg.gasPrice + use.gasUsed * msg.gasPrice := by
          rw [supply_addBalance_overlayWorld, supply_addBalance_overlayWorld]
        _ = s'.txn.supply + msg.gasPrice * (use.gasUsed + use.gasLeft) := by ring
        _ = s'.txn.supply + msg.gasPrice * msg.gas := by
          rw [Executor.updateGasUsed_add result hgas]
    refine ⟨by omega, new, hnew.trans (by rw [hcalls]), fun hnot => ?_⟩
    have := hsame hnot
    omega
  unfold Executor.run
  cases hrecipient : msg.recipient with
  | none => exact hrefunds _ _ (conserves_create2 code hdebt _ _ _ _ _ _ _ _)
  | some recipient =>
    apply hrefunds
    exact (conserves_incrNonce code t.state msg.sender).trans (conserves_call2 code hdebt _ _ _ _ _ _ _ _ _)

end Transactions

section Sample

local instance debtKeccak : Keccak := sampleKeccak

def passingOn (v : Int) : Code := fun c =>
  ⟨.callx (Contract.newContractCall 2 c.caller c.address (FixedBytes.ofBytes 20 [3]) (some v) 0 [] [])
    (.done ⟨[], 0, none⟩) fun _ => .done ⟨[], c.gas, none⟩, le_rfl, fun _ => le_rfl⟩

def sentTransfer : Transaction := { transferOf 4 5 with sender := FixedBytes.ofBytes 20 [1] }

theorem supply_richSnapshot : (Txn.newTxn richSnapshot).supply = 1010 := by
  have hrest : ∀ addr ∈ Finset.univ, addr ∉ ({FixedBytes.ofBytes 20 [1], FixedBytes.ofBytes 20 [2]} :
      Finset Address) → (Txn.newTxn richSnapshot).getBalance addr = 0 := by
    intro addr _ haddr
    simp only [Finset.mem_insert, Finset.mem_singleton, not_or] at haddr
    have hnone : richSnapshot.getAccount addr = none := by
      simp only [richSnapshot, if_neg haddr.1, if_neg haddr.2]
    simp [Txn.getBalance, Txn.getStateObject, Txn.newTxn, hnone]
  rw [Txn.supply, ← Finset.sum_subset (Finset.subset_univ _) hrest, Finset.sum_pair (by decide)]
  decide +kernel

end Sample

end Nxchain
