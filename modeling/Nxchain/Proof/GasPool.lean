import Nxchain.Lib.Runs
import Nxchain.OverlayWorld
import Nxchain.Proof.FailedFrames
import Nxchain.Proof.Receipts

namespace Nxchain

namespace Executor

variable {σ : Type} (e : Executor σ)

def KeepsGas (t : Transition σ) (txn : Transaction) : Prop :=
  ∃ msg, e.withSender t txn = .ok msg ∧ e.Charged t msg ∧ msg.gas ≠ 0

def afterWrite (t : Transition σ) (txn : Transaction) : Transition σ := (e.write t txn).2

def Balances (gasLimit : Nat) (t : Transition σ) (txn : Transaction) : Prop :=
  (e.afterWrite t txn).gasPool + (e.afterWrite t txn).totalGas = gasLimit
    ∧ ∀ err, (e.write t txn).1 = .error err → e.afterWrite t txn = t

variable {e} {t : Transition σ} {msg txn : Transaction}

theorem updateGasUsed_add {gas : Nat} (result : ExecutionResult gas) {gasLimit : Nat} (hgas : gas ≤ gasLimit)
    (refund : Nat) :
    (result.updateGasUsed gasLimit refund).gasUsed + (result.updateGasUsed gasLimit refund).gasLeft
      = gasLimit := by
  have hleft := result.gasLeft_le
  have hrefund : min refund ((gasLimit - result.gasLeft) / 2) ≤ gasLimit - result.gasLeft :=
    (min_le_right _ _).trans (Nat.div_le_self _ _)
  simp only [ExecutionResult.updateGasUsed]
  omega

theorem run_gas {gas : Nat} (hgas : gas ≤ msg.gas) :
    (e.run t msg gas).2.gasPool + (e.run t msg gas).1.gasUsed = t.gasPool + msg.gas
      ∧ (e.run t msg gas).2.totalGas = t.totalGas := by
  unfold run
  cases msg.recipient with
  | none =>
    refine ⟨?_, rfl⟩
    simp only [Nat.add_assoc]
    rw [Nat.add_comm _ (GasUse.gasUsed _), updateGasUsed_add _ hgas]
  | some recipient =>
    refine ⟨?_, rfl⟩
    simp only [Nat.add_assoc]
    rw [Nat.add_comm _ (GasUse.gasUsed _), updateGasUsed_add _ hgas]

theorem write_gas_cases (e : Executor σ) (t : Transition σ) (txn : Transaction) :
    (∃ txn', (e.write t txn).1 = .ok txn' ∧ ¬ e.KeepsGas t txn
        ∧ (e.afterWrite t txn).gasPool + (e.afterWrite t txn).totalGas = t.gasPool + t.totalGas)
      ∨ (∃ err, (e.write t txn).1 = .error err ∧ e.afterWrite t txn = t ∧ ¬ e.KeepsGas t txn)
      ∨ ∃ err, (e.write t txn).1 = .error err ∧ e.KeepsGas t txn
        ∧ (e.afterWrite t txn).gasPool < t.gasPool
        ∧ (e.afterWrite t txn).totalGas = t.totalGas := by
  unfold afterWrite write
  cases hsender : e.withSender t txn with
  | error err =>
    refine .inr (.inl ⟨err, rfl, rfl, ?_⟩)
    rintro ⟨msg, hmsg, _⟩
    simp [hsender] at hmsg
  | ok msg =>
    have hkeeps : e.KeepsGas t txn ↔ e.Charged t msg ∧ msg.gas ≠ 0 := by
      simp [KeepsGas, hsender]
    rcases apply_cases e t msg with ⟨s, gas, hadmits⟩ | ⟨err, hfails, hnot⟩ | ⟨err, hfails, hcharged⟩
    · refine .inl ⟨msg, ?_, ?_, ?_⟩
      · simp only [apply_of_admits hadmits]
      · exact fun h => (hkeeps.mp h).1.not_admits s gas hadmits
      · obtain ⟨hpool, htotal⟩ := run_gas (e := e) (t := { t with state := s, gasPool := t.gasPool - msg.gas })
            hadmits.covers
        have hle := hadmits.pool
        simp only [apply_of_admits hadmits]
        simp only at hpool htotal
        omega
    · refine .inr (.inl ⟨err, ?_, ?_, fun h => hnot (hkeeps.mp h).1⟩) <;> simp only [hfails]
    · by_cases hzero : msg.gas = 0
      · refine .inr (.inl ⟨err, ?_, ?_, fun h => (hkeeps.mp h).2 hzero⟩)
        · simp only [hfails]
        · simp only [hfails, hzero, Nat.sub_zero]
      · refine .inr (.inr ⟨err, ?_, hkeeps.mpr ⟨hcharged, hzero⟩, ?_, ?_⟩)
        · simp only [hfails]
        · have hle := hcharged.2.1
          simp only [hfails]
          omega
        · simp only [hfails]

theorem balances_iff {gasLimit : Nat} (hbefore : t.gasPool + t.totalGas = gasLimit) :
    e.Balances gasLimit t txn ↔ ¬ e.KeepsGas t txn := by
  unfold Balances
  rcases write_gas_cases e t txn with ⟨txn', hok, hnot, hsum⟩ | ⟨err, herr, hsame, hnot⟩
      | ⟨err, herr, hkeeps, hpool, htotal⟩
  · simp [hok, hnot, hsum, hbefore]
  · simp [hnot, hsame, hbefore]
  · refine iff_of_false ?_ (not_not.mpr hkeeps)
    omega

theorem gasPool_accounting_iff {parentRoot : Hash} {header : Header} {coinbase : Address}
    (hbegin : e.beginTxn parentRoot header coinbase = .ok t) (txns : List Transaction) :
    Runs.Along e.afterWrite (e.Balances header.gasLimit) t txns ↔
      Runs.Along e.afterWrite (fun t txn => ¬ e.KeepsGas t txn) t txns := by
  have hstart : t.gasPool + t.totalGas = header.gasLimit := by
    unfold beginTxn at hbegin
    cases hsnapshot : e.newSnapshotAt parentRoot with
    | error message => simp [hsnapshot, bind, Except.bind] at hbegin
    | ok s =>
      rw [hsnapshot] at hbegin
      obtain rfl := Except.ok.inj hbegin
      rfl
  exact Runs.along_iff (fun t => t.gasPool + t.totalGas = header.gasLimit)
    (fun _ _ hs => balances_iff hs) (fun _ _ _ hbalances => hbalances.1) hstart txns

theorem not_keepsGas_of_ok {txn' : Transaction} (hok : (e.write t txn).1 = .ok txn') : ¬ e.KeepsGas t txn := by
  rcases write_gas_cases e t txn with ⟨_, _, hnot, _⟩ | ⟨err, herr, _⟩ | ⟨err, herr, _⟩
  · exact hnot
  · exact nomatch hok.symm.trans herr
  · exact nomatch hok.symm.trans herr

end Executor

section Sample

local instance : Keccak := sampleKeccak

def idleExecutor : Executor Recorded where
  world := overlayWorld fun c => ⟨.done ⟨[], c.gas, none⟩, le_refl c.gas⟩
  forksAt _ := istanbulRules
  chainID := 100
  newSnapshotAt _ := .ok ⟨Txn.newTxn richSnapshot, []⟩
  commit _ _ := zeroHash
  getHash _ _ _ := zeroHash
  sender _ _ _ := .ok (FixedBytes.ofBytes 20 [1])
  createAddress := createAddress
  createBloom _ := FixedBytes.zero 256

def transferOf (nonce value : Nat) : Transaction :=
  { transfer nonce 30000 with gasPrice := 0, value := value }

def idleTransition : Transition Recorded where
  config := istanbulRules
  ctx := {
    gasPrice := 0, origin := zeroAddress, coinbase := zeroAddress, number := 1, timestamp := 0,
    gasLimit := 50000, chainID := 100, difficulty := 1 }
  getHash _ := zeroHash
  state := ⟨Txn.newTxn richSnapshot, []⟩
  gasPool := 50000
  receipts := []
  totalGas := 0

theorem transfers_balance :
    Runs.Along idleExecutor.afterWrite (idleExecutor.Balances builtHeader.gasLimit) idleTransition
      [transferOf 4 5] := by
  have hbegin : idleExecutor.beginTxn zeroHash builtHeader zeroAddress = .ok idleTransition := rfl
  have hok : (idleExecutor.write idleTransition (transferOf 4 5)).1 =
      .ok { transferOf 4 5 with sender := FixedBytes.ofBytes 20 [1] } := by decide +kernel
  exact (Executor.gasPool_accounting_iff hbegin _).mpr ⟨Executor.not_keepsGas_of_ok hok, trivial⟩

theorem refused_transfer_keeps_gas :
    idleExecutor.beginTxn zeroHash builtHeader zeroAddress = .ok idleTransition ∧
      (idleExecutor.write idleTransition (transferOf 4 2000)).1 =
        .error (.application .notEnoughFunds true) ∧
      (idleExecutor.afterWrite idleTransition (transferOf 4 2000)).gasPool +
        (idleExecutor.afterWrite idleTransition (transferOf 4 2000)).totalGas = 20000 ∧
      builtHeader.gasLimit = 50000 :=
  ⟨rfl, by decide +kernel, by decide +kernel, rfl⟩

end Sample

end Nxchain
