import Nxchain.Executor

namespace Nxchain

namespace Executor

variable {σ : Type} {e : Executor σ} {t : Transition σ} {msg : Transaction}

structure Admits (e : Executor σ) (t : Transition σ) (msg : Transaction) (s : σ) (gas : Nat) :
    Prop where
  nonce : e.world.getNonce t.state msg.sender = msg.nonce
  funds : e.world.subBalance t.state msg.sender (msg.gasPrice * msg.gas) = some s
  pool : msg.gas ≤ t.gasPool
  cost : (transactionGasCost msg t.config.homestead t.config.istanbul).map (sub64 msg.gas) = some gas
  covers : gas ≤ msg.gas
  value : msg.value ≤ e.world.getBalance s msg.sender

def Charged (e : Executor σ) (t : Transition σ) (msg : Transaction) : Prop :=
  e.world.getNonce t.state msg.sender = msg.nonce ∧ msg.gas ≤ t.gasPool ∧
    ∃ s, e.world.subBalance t.state msg.sender (msg.gasPrice * msg.gas) = some s ∧
      (transactionGasCost msg t.config.homestead t.config.istanbul = none
        ∨ (∃ cost, transactionGasCost msg t.config.homestead t.config.istanbul = some cost
          ∧ msg.gas < sub64 msg.gas cost)
        ∨ e.world.getBalance s msg.sender < msg.value)

theorem applyMessage_of_admits {s : σ} {gas : Nat} (hadmits : e.Admits t msg s gas) :
    e.applyMessage t msg =
      let run := e.run { t with state := s, gasPool := t.gasPool - msg.gas } msg gas
      (.ok run.1, run.2) := by
  obtain ⟨hnonce, hfunds, hpool, hcost, hcovers, hvalue⟩ := hadmits
  obtain ⟨cost, hcost', rfl⟩ := Option.map_eq_some_iff.mp hcost
  unfold applyMessage
  simp only [hnonce, hfunds, hcost', ne_eq, not_true_eq_false, if_false, not_lt.mpr hpool,
    gt_iff_lt, not_lt.mpr hcovers, not_lt.mpr hvalue]

theorem apply_of_admits {s : σ} {gas : Nat} (hadmits : e.Admits t msg s gas) :
    e.apply t msg =
      let run := e.run { t with state := s, gasPool := t.gasPool - msg.gas } msg gas
      (.ok run.1, run.2) := by
  unfold apply
  rw [applyMessage_of_admits hadmits]

theorem Charged.not_admits (hcharged : e.Charged t msg) (s : σ) (gas : Nat) : ¬ e.Admits t msg s gas := by
  intro hadmits
  obtain ⟨_, _, s', hfunds, hrefused⟩ := hcharged
  obtain rfl : s' = s := Option.some.inj (hfunds.symm.trans hadmits.funds)
  obtain ⟨cost, hcost, rfl⟩ := Option.map_eq_some_iff.mp hadmits.cost
  rcases hrefused with hnone | ⟨cost', hcost', hlt⟩ | hvalue
  · rw [hnone] at hcost
    cases hcost
  · obtain rfl : cost' = cost := Option.some.inj (hcost'.symm.trans hcost)
    exact absurd hadmits.covers (not_le.mpr hlt)
  · exact absurd hadmits.value (not_le.mpr hvalue)

theorem applyMessage_cases (e : Executor σ) (t : Transition σ) (msg : Transaction) :
    (∃ s gas, e.Admits t msg s gas)
      ∨ (∃ err s, e.applyMessage t msg = (.error err, { t with state := s }) ∧ ¬ e.Charged t msg)
      ∨ ∃ err s, e.applyMessage t msg
          = (.error err, { t with state := s, gasPool := t.gasPool - msg.gas })
        ∧ e.Charged t msg := by
  by_cases hnonce : e.world.getNonce t.state msg.sender = msg.nonce
  · cases hfunds : e.world.subBalance t.state msg.sender (msg.gasPrice * msg.gas) with
    | none =>
      refine .inr (.inl ⟨.application .notEnoughFundsForGas true, t.state, ?_, ?_⟩)
      · simp [applyMessage, hnonce, hfunds]
      · rintro ⟨_, _, s, hs, _⟩
        simp [hfunds] at hs
    | some s =>
      by_cases hpool : t.gasPool < msg.gas
      · exact .inr (.inl ⟨.gasLimitReached, s, by simp [applyMessage, hnonce, hfunds, hpool],
          fun hcharged => absurd hcharged.2.1 (not_le.mpr hpool)⟩)
      -- from here on the gas is out of the pool
      have hle := not_lt.mp hpool
      cases hcost : transactionGasCost msg t.config.homestead t.config.istanbul with
      | none =>
        exact .inr (.inr ⟨.application .intrinsicGasOverflow false, s,
          by simp [applyMessage, hnonce, hfunds, hpool, hcost],
          hnonce, hle, s, hfunds, .inl hcost⟩)
      | some cost =>
        by_cases hcovers : sub64 msg.gas cost > msg.gas
        · exact .inr (.inr ⟨.application .notEnoughIntrinsicGas false, s,
            by simp [applyMessage, hnonce, hfunds, hpool, hcost, hcovers],
            hnonce, hle, s, hfunds, .inr (.inl ⟨cost, hcost, hcovers⟩)⟩)
        by_cases hvalue : e.world.getBalance s msg.sender < msg.value
        · exact .inr (.inr ⟨.application .notEnoughFunds true, s,
            by simp [applyMessage, hnonce, hfunds, hpool, hcost, hcovers, hvalue],
            hnonce, hle, s, hfunds, .inr (.inr hvalue)⟩)
        refine .inl ⟨s, sub64 msg.gas cost, hnonce, hfunds, hle, ?_, not_lt.mp hcovers, not_lt.mp hvalue⟩
        rw [hcost]
        rfl
  · exact .inr (.inl ⟨.application .nonceIncorrect true, t.state, by simp [applyMessage, hnonce],
      fun hcharged => hnonce hcharged.1⟩)

theorem apply_cases (e : Executor σ) (t : Transition σ) (msg : Transaction) :
    (∃ s gas, e.Admits t msg s gas)
      ∨ (∃ err, e.apply t msg = (.error err, t) ∧ ¬ e.Charged t msg)
      ∨ ∃ err, e.apply t msg = (.error err, { t with gasPool := t.gasPool - msg.gas })
        ∧ e.Charged t msg := by
  rcases applyMessage_cases e t msg with hadmits | ⟨err, s, hfails, hcharged⟩ | ⟨err, s, hfails, hcharged⟩
  · exact .inl hadmits
  · refine .inr (.inl ⟨err, ?_, hcharged⟩)
    unfold apply
    rw [hfails]
  · refine .inr (.inr ⟨err, ?_, hcharged⟩)
    unfold apply
    rw [hfails]

end Executor

end Nxchain
