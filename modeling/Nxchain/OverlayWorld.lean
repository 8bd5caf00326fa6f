import Nxchain.Proof.Frames

namespace Nxchain

namespace Txn

variable {config : ForksInTime} {c : Contract} {t : Txn}

theorem gasLeft_storeCode_le [Keccak] (id : Nat) (result : Runtime.ExecutionResult) :
    (storeCode config c id result t).1.gasLeft ≤ result.gasLeft := by
  unfold storeCode
  simp only
  split_ifs
  · exact le_rfl
  · exact Nat.zero_le _
  · exact Nat.zero_le _
  · exact le_rfl
  · exact Nat.sub_le _ _

theorem gasLeft_leave_le [Keccak] (p : Runtime.ExecutionResult × Txn) :
    (leave config c t p).1.gasLeft ≤ p.1.gasLeft := by
  unfold leave
  split_ifs
  · exact gasLeft_storeCode_le _ _
  · exact le_rfl
  · exact le_rfl

theorem Refused.gasLeft_le [Keccak] {out : Runtime.ExecutionResult × Txn} (h : Refused config c t out) :
    out.1.gasLeft ≤ c.gas := by
  cases h with
  | depth | callFunds | createFunds => exact le_rfl
  | collision => exact Nat.zero_le _

end Txn

namespace Behaviour

variable [Keccak] {env : HostEnv} {b : Behaviour}

theorem Bounded.gasLeft_run_le {gas : Nat} (h : b.Bounded gas) (t : Txn) (calls : List HostCall) :
    (b.run env t calls).1.1.gasLeft ≤ gas := by
  induction b generalizing t calls with
  | done result => exact h
  | host call k ih => exact ih _ (h _) _ _
  | callx c child k _ ih => exact ih _ (h.2 _) _ _

theorem Bounded.gasLeft_call_le {c : Contract} (h : b.Bounded c.gas) (t : Txn) (calls : List HostCall) :
    (b.call env c t calls).1.1.gasLeft ≤ c.gas := by
  rcases call_cases env b c t calls with ⟨out, hrefused, hcall⟩ | ⟨t₁, _, hcall⟩
  · rw [hcall]
    exact hrefused.gasLeft_le
  · rw [hcall]
    exact (Txn.gasLeft_leave_le _).trans (h.gasLeft_run_le t₁ calls)

end Behaviour

structure Recorded where
  txn : Txn
  calls : List HostCall

abbrev Code := (c : Contract) → { b : Behaviour // b.Bounded c.gas }

section World

variable [Keccak]

def creationContract (t : Txn) (caller : Address) (code : Bytes) (value gas : Nat) : Contract :=
  { Contract.newContractCreation 1 caller caller (createAddress caller (t.getNonce caller))
      (some value) gas code with type := .create }

def callContract (caller recipient : Address) (code input : Bytes) (value gas : Nat) : Contract :=
  Contract.newContractCall 1 caller caller recipient (some value) gas code input

def overlayWorld (code : Code) : World Recorded where
  getNonce s := s.txn.getNonce
  setNonce s addr nonce := { s with txn := s.txn.setNonce addr (nonce % 2 ^ 64) }
  getBalance s := s.txn.getBalance
  setBalance s addr balance := { s with txn := s.txn.setBalance addr balance }
  getRefund s := s.txn.getRefund
  logs s := s.txn.logs.1
  deleteLogs s := { s with txn := s.txn.logs.2 }
  cleanDeleteObjects deleteEmptyObjects s :=
    { s with txn := s.txn.cleanDeleteObjects deleteEmptyObjects }
  create2 config ctx getHash caller input value gas s :=
    let c := creationContract s.txn caller input value gas
    let out := (code c).1.call ⟨config, ctx, getHash⟩ c s.txn s.calls
    (⟨out.1.1.gasLeft, out.1.1.failed, (code c).2.gasLeft_call_le s.txn s.calls⟩, ⟨out.1.2, out.2⟩)
  call2 config ctx getHash caller recipient input value gas s :=
    let t := (s.txn.getCode recipient).2
    let c := callContract caller recipient (s.txn.getCode recipient).1 input value gas
    let out := (code c).1.call ⟨config, ctx, getHash⟩ c t s.calls
    (⟨out.1.1.gasLeft, out.1.1.failed, (code c).2.gasLeft_call_le t s.calls⟩, ⟨out.1.2, out.2⟩)

def Executor.withCode (e : Executor Recorded) (code : Code) : Executor Recorded :=
  { e with world := overlayWorld code }

end World

end Nxchain
