import Nxchain.Jsonrpc.EstimateGas
import Nxchain.Proof.GasPool

namespace Nxchain.Jsonrpc.CallStore

variable {σ : Type} {store : CallStore σ} {header : Header} {transaction : Transaction}
  {rawNum : Option BlockNumber} {fuel lowEnd highEnd : Nat} {s : σ}

theorem middle_eq (hlt : lowEnd < highEnd) (hhigh : highEnd ≤ 2 ^ 63) :
    (lowEnd + highEnd) % 2 ^ 64 / 2 = (lowEnd + highEnd) / 2
      ∧ ((lowEnd + highEnd) / 2 + 1) % 2 ^ 64 = (lowEnd + highEnd) / 2 + 1 := by
  constructor
  · rw [Nat.mod_eq_of_lt (by omega)]
  · exact Nat.mod_eq_of_lt (by omega)

theorem exists_half {k : Nat} (hlt : lowEnd < highEnd) (hsize : highEnd - lowEnd < 2 ^ k) :
    ∃ k', k = k' + 1 ∧ highEnd - lowEnd < 2 ^ k' * 2 := by
  obtain ⟨k, rfl⟩ : ∃ k', k = k' + 1 := by
    refine Nat.exists_eq_succ_of_ne_zero ?_
    rintro rfl
    omega
  exact ⟨k, rfl, hsize⟩

theorem searchLoop_stops {k : Nat} (hhigh : highEnd ≤ 2 ^ 63) (hsize : highEnd - lowEnd < 2 ^ k)
    (hfuel : k < fuel) :
    (store.searchLoop header transaction fuel lowEnd highEnd s).1 ≠ .error .outOfFuel := by
  induction fuel generalizing k lowEnd highEnd s with
  | zero => omega
  | succ fuel ih =>
    rw [searchLoop]
    split
    · rename_i hlt
      obtain ⟨k, rfl, hhalf⟩ := exists_half hlt hsize
      dsimp only
      split
      · exact fun h => by cases h
      · split
        · exact ih (k := k) hhigh (by omega) (by omega)
        · exact ih (k := k) (by omega) (by omega) (by omega)
    · exact fun h => by cases h

theorem estimateGas_of_search_error {b : Bounds} {err : Fault CallError} {s' : σ}
    (hb : store.bounds transaction rawNum = .ok b)
    (hrun : store.searchLoop b.header transaction fuel b.lowEnd b.highEnd s = (.error err, s')) :
    store.estimateGas fuel transaction rawNum s = (.error err, s') := by
  simp only [estimateGas, hb, hrun]

theorem estimateGas_of_search_ok {b : Bounds} {found : Nat} {s' : σ}
    (hb : store.bounds transaction rawNum = .ok b)
    (hrun : store.searchLoop b.header transaction fuel b.lowEnd b.highEnd s = (.ok found, s')) :
    store.estimateGas fuel transaction rawNum s =
      let test := store.testTransaction b.header transaction found false s'
      (if test.1.1 then .error (.error (.highestGasLimit found test.1.2)) else .ok found, test.2) := by
  simp only [estimateGas, hb, hrun]
  split <;> rfl

theorem estimateGas_stops (hbounds : ∀ b, store.bounds transaction rawNum = .ok b → b.highEnd ≤ 2 ^ 63)
    (hfuel : 64 < fuel) : (store.estimateGas fuel transaction rawNum s).1 ≠ .error .outOfFuel := by
  cases hb : store.bounds transaction rawNum with
  | error err =>
    rw [estimateGas, hb]
    exact fun h => by cases h
  | ok b =>
    have hhigh := hbounds b hb
    have hloop : (store.searchLoop b.header transaction fuel b.lowEnd b.highEnd s).1
        ≠ .error .outOfFuel :=
      searchLoop_stops hhigh (show b.highEnd - b.lowEnd < 2 ^ 64 by omega) hfuel
    rcases hrun : store.searchLoop b.header transaction fuel b.lowEnd b.highEnd s with ⟨result, s'⟩
    rw [hrun] at hloop
    cases result with
    | error err =>
      rw [estimateGas_of_search_error hb hrun]
      exact hloop
    | ok found =>
      rw [estimateGas_of_search_ok hb hrun]
      dsimp only
      split
      · exact fun h => by cases h
      · exact fun h => by cases h

def Ignored (test : Bool × Option CallError) : Prop :=
  test.1 = true ∧ test.2.filter (fun err => !isEVMRevertError err) = none

theorem ignored_constructErrorFromRevert (result : Runtime.ExecutionResult) :
    Ignored (true, some (store.constructErrorFromRevert result)) := by
  rw [constructErrorFromRevert]
  cases store.unpackRevertError result.returnValue with
  | none => exact ⟨rfl, rfl⟩
  | some message => exact ⟨rfl, rfl⟩

theorem searchLoop_of_ignored {test : Bool × Option CallError} {s' : σ} (hlt : lowEnd < highEnd)
    (htest : store.testTransaction header transaction ((lowEnd + highEnd) % 2 ^ 64 / 2) true s = (test, s'))
    (hignored : Ignored test) :
    store.searchLoop header transaction (fuel + 1) lowEnd highEnd s =
      store.searchLoop header transaction fuel (((lowEnd + highEnd) % 2 ^ 64 / 2 + 1) % 2 ^ 64) highEnd
        s' := by
  simp only [searchLoop, hlt, if_true, htest, hignored.1, hignored.2]

theorem searchLoop_diverges (hignored : ∀ gas s, Ignored (store.testTransaction header transaction gas true s).1)
    (hlow : lowEnd ≤ 2 ^ 63) (hhigh : 2 ^ 63 < highEnd) :
    (store.searchLoop header transaction fuel lowEnd highEnd s).1 = .error .outOfFuel := by
  induction fuel generalizing lowEnd s with
  | zero => rfl
  | succ fuel ih =>
    rw [searchLoop_of_ignored (by omega) rfl (hignored _ s)]
    exact ih (by omega)

theorem lowEnd_of_bounds {b : Bounds} (hb : store.bounds transaction rawNum = .ok b) :
    b.lowEnd = standardGas transaction
      (store.getForksInTime (uintOf (rawNum.getD latestBlockNumber))) := by
  obtain ⟨header, _, hb⟩ := Except.bind_eq_ok_iff.mp hb
  obtain ⟨available, _, hb⟩ := Except.bind_eq_ok_iff.mp hb
  cases hb
  rfl

theorem lowEnd_le_of_bounds {b : Bounds} (hb : store.bounds transaction rawNum = .ok b) :
    b.lowEnd ≤ 2 ^ 63 := by
  rw [lowEnd_of_bounds hb, standardGas]
  split <;> decide

def withTrials (store : CallStore σ)
    (applyTxn : Header → Transaction → σ → Except CallError Runtime.ExecutionResult × σ) :
    CallStore σ :=
  { store with applyTxn }

def reverts (_ : Header) (_ : Transaction) (s : σ) : Except CallError Runtime.ExecutionResult × σ :=
  (.ok ⟨[], 0, some .executionReverted⟩, s)

theorem ignored_reverts (gas : Nat) (s : σ) :
    Ignored ((store.withTrials reverts).testTransaction header transaction gas true s).1 :=
  ignored_constructErrorFromRevert _

theorem estimateGas_reverts_diverges {b : Bounds} (hb : store.bounds transaction rawNum = .ok b)
    (hhigh : 2 ^ 63 < b.highEnd) :
    ((store.withTrials reverts).estimateGas fuel transaction rawNum s).1 = .error .outOfFuel := by
  have hloop : ((store.withTrials reverts).searchLoop b.header transaction fuel b.lowEnd b.highEnd s).1
      = .error .outOfFuel :=
    searchLoop_diverges ignored_reverts (lowEnd_le_of_bounds hb) hhigh
  have hb' : (store.withTrials reverts).bounds transaction rawNum = .ok b := hb
  rw [estimateGas_of_search_error hb' (Prod.ext hloop rfl)]

theorem estimateGas_stops_iff (store : CallStore σ) (transaction : Transaction)
    (rawNum : Option BlockNumber) (s : σ) :
    ((∀ applyTxn, ∃ fuel, ((store.withTrials applyTxn).estimateGas fuel transaction rawNum s).1
        ≠ .error .outOfFuel)
      ↔ ∀ b, store.bounds transaction rawNum = .ok b → b.highEnd ≤ 2 ^ 63)
    ∧ ((∀ b, store.bounds transaction rawNum = .ok b → b.highEnd ≤ 2 ^ 63) → ∀ applyTxn fuel, 64 < fuel →
      ((store.withTrials applyTxn).estimateGas fuel transaction rawNum s).1 ≠ .error .outOfFuel) := by
  refine ⟨⟨fun hstops b hb => ?_, fun hbounds applyTxn => ⟨65, ?_⟩⟩, fun hbounds applyTxn fuel => ?_⟩
  · by_contra hhigh
    obtain ⟨fuel, hstop⟩ := hstops reverts
    exact hstop (estimateGas_reverts_diverges hb (by omega))
  · exact estimateGas_stops hbounds (by decide)
  · exact estimateGas_stops hbounds

def unpricedCall : Transaction :=
  ⟨0, 0, 0, some (FixedBytes.ofBytes 20 [2]), 0, [], 0, 0, 0, zeroHash, zeroAddress⟩

def fixedStore (gasLimit : Nat) (outcome : Transaction → Except CallError Runtime.ExecutionResult) :
    CallStore Unit where
  header := { builtHeader with gasLimit := gasLimit }
  getHeaderByNumber _ := none
  getForksInTime _ := istanbulRules
  getAccount _ _ := .error .stateNotFound
  applyTxn _ txn s := (outcome txn, s)
  unpackRevertError _ := none

theorem estimateGas_diverges :
    ((fixedStore (3 * 2 ^ 62) fun _ => .ok ⟨[], 0, some .executionReverted⟩).bounds unpricedCall none).map
        (fun b => (b.lowEnd, b.highEnd)) = .ok (21000, 3 * 2 ^ 62)
      ∧ ∀ fuel, ((fixedStore (3 * 2 ^ 62) fun _ => .ok ⟨[], 0, some .executionReverted⟩).estimateGas fuel
        unpricedCall none ()).1 = .error .outOfFuel :=
  ⟨rfl, fun _ => @estimateGas_reverts_diverges _
    (fixedStore (3 * 2 ^ 62) fun _ => .ok ⟨[], 0, some .executionReverted⟩) _ _ _ _ _ rfl (by decide)⟩

def Passes : Except CallError Runtime.ExecutionResult → Prop
  | .ok result => result.err = none
  | .error _ => False

instance (outcome : Except CallError Runtime.ExecutionResult) : Decidable (Passes outcome) :=
  match outcome with
  | .ok result => inferInstanceAs (Decidable (result.err = none))
  | .error _ => inferInstanceAs (Decidable False)

def FailsForGas : Except CallError Runtime.ExecutionResult → Prop
  | .ok result => result.err = some .outOfGas ∨ result.err = some .codeStoreOutOfGas
      ∨ result.err = some .executionReverted
  | .error .notEnoughIntrinsicGas => True
  | .error (.transition (.application .notEnoughIntrinsicGas _)) => True
  | .error _ => False

def FailsInExecutor (outcome : Except CallError Runtime.ExecutionResult) : Prop :=
  ∃ err, outcome = .error (.transition err)

variable {outcome : Except CallError Runtime.ExecutionResult}

theorem not_failsInExecutor_of_passes (hpasses : Passes outcome) : ¬ FailsInExecutor outcome := by
  rintro ⟨err, rfl⟩
  exact hpasses

theorem testOutcome_of_passes (hpasses : Passes outcome) (shouldOmitErr : Bool) :
    store.testOutcome shouldOmitErr outcome = (false, none) := by
  cases outcome with
  | error err => cases hpasses
  | ok result =>
    have herr : result.err = none := hpasses
    simp only [testOutcome, herr]

theorem testOutcome_of_not_passes (hfails : ¬ Passes outcome) (shouldOmitErr : Bool) :
    (store.testOutcome shouldOmitErr outcome).1 = true := by
  cases outcome with
  | error err =>
    rw [testOutcome]
    split <;> rfl
  | ok result =>
    cases herr : result.err with
    | none => exact absurd herr hfails
    | some err =>
      simp only [testOutcome, herr]
      split
      · rfl
      · split <;> rfl

theorem ignored_of_failsForGas (hfails : FailsForGas outcome) (hplain : ¬ FailsInExecutor outcome) :
    Ignored (store.testOutcome true outcome) := by
  cases outcome with
  | error err =>
    cases err with
    | notEnoughIntrinsicGas => exact ⟨rfl, rfl⟩
    | transition err => exact absurd ⟨err, rfl⟩ hplain
    | _ => cases hfails
  | ok result =>
    rcases hfails with herr | herr | herr
    · simp only [testOutcome, herr]
      exact ⟨rfl, rfl⟩
    · simp only [testOutcome, herr]
      exact ⟨rfl, rfl⟩
    · simp only [testOutcome, herr]
      exact ignored_constructErrorFromRevert result

def middles (least : Nat) : Nat → Nat → Nat → List Nat
  | 0, _, _ => []
  | fuel + 1, lowEnd, highEnd =>
    if lowEnd < highEnd then
      (lowEnd + highEnd) / 2 ::
        if least ≤ (lowEnd + highEnd) / 2 then middles least fuel lowEnd ((lowEnd + highEnd) / 2)
        else middles least fuel ((lowEnd + highEnd) / 2 + 1) highEnd
    else []

section Trials

variable {trial : Nat → Except CallError Runtime.ExecutionResult}

-- the outcomes of the trials of a request depend on the gas alone
variable (htrial : ∀ gas s, (store.applyTxn header { transaction with gas := gas } s).1 = trial gas)

include htrial

theorem testTransaction_eq (gas : Nat) (shouldOmitErr : Bool) (s : σ) :
    (store.testTransaction header transaction gas shouldOmitErr s).1 = store.testOutcome shouldOmitErr (trial gas) := by
  rw [← htrial gas s, testTransaction]

theorem searchLoop_of_failsInExecutor (hlt : lowEnd < highEnd) (hhigh : highEnd ≤ 2 ^ 63)
    (hexecutor : FailsInExecutor (trial ((lowEnd + highEnd) / 2))) :
    ∃ err s', store.searchLoop header transaction (fuel + 1) lowEnd highEnd s
      = (.error (.error err), s') := by
  obtain ⟨err, herr⟩ := hexecutor
  have htest := testTransaction_eq htrial ((lowEnd + highEnd) / 2) true s
  rcases hrun : store.testTransaction header transaction ((lowEnd + highEnd) / 2) true s with ⟨test, s'⟩
  obtain rfl : test = (true, some (.transition err)) := by
    rw [hrun, herr] at htest
    exact htest
  refine ⟨.transition err, s', ?_⟩
  simp only [searchLoop, hlt, if_true, (middle_eq hlt hhigh).1, hrun, isEVMRevertError, Bool.not_false,
    Option.filter_some]

theorem searchLoop_of_passes (hlt : lowEnd < highEnd) (hhigh : highEnd ≤ 2 ^ 63)
    (hpasses : Passes (trial ((lowEnd + highEnd) / 2))) :
    ∃ s', store.searchLoop header transaction (fuel + 1) lowEnd highEnd s
      = store.searchLoop header transaction fuel lowEnd ((lowEnd + highEnd) / 2) s' := by
  have htest := testTransaction_eq htrial ((lowEnd + highEnd) / 2) true s
  rcases hrun : store.testTransaction header transaction ((lowEnd + highEnd) / 2) true s with ⟨test, s'⟩
  obtain rfl : test = (false, none) := by
    rw [hrun, testOutcome_of_passes hpasses] at htest
    exact htest
  refine ⟨s', ?_⟩
  simp only [searchLoop, hlt, if_true, (middle_eq hlt hhigh).1, hrun, Option.filter_none,
    Bool.false_eq_true, if_false]

theorem searchLoop_of_failsForGas (hlt : lowEnd < highEnd) (hhigh : highEnd ≤ 2 ^ 63)
    (hfails : FailsForGas (trial ((lowEnd + highEnd) / 2)))
    (hplain : ¬ FailsInExecutor (trial ((lowEnd + highEnd) / 2))) :
    ∃ s', store.searchLoop header transaction (fuel + 1) lowEnd highEnd s
      = store.searchLoop header transaction fuel ((lowEnd + highEnd) / 2 + 1) highEnd s' := by
  obtain ⟨hmid, hnext⟩ := middle_eq hlt hhigh
  have hignored := @ignored_of_failsForGas _ store _ hfails hplain
  rw [← testTransaction_eq htrial _ true s, ← hmid] at hignored
  have hloop := @searchLoop_of_ignored _ _ _ _ fuel _ _ _ _ _ hlt rfl hignored
  rw [hmid, hnext] at hloop
  exact ⟨_, hloop⟩

theorem searchLoop_finds {k least : Nat} (hlow : lowEnd ≤ least) (hup : least ≤ highEnd)
    (hhigh : highEnd ≤ 2 ^ 63) (hsize : highEnd - lowEnd < 2 ^ k) (hfuel : k < fuel)
    (hleast : ∀ g, lowEnd ≤ g → g < highEnd → (Passes (trial g) ↔ least ≤ g))
    (hfails : ∀ g, lowEnd ≤ g → g < highEnd → Passes (trial g) ∨ FailsForGas (trial g)) :
    ((∀ g ∈ middles least fuel lowEnd highEnd, ¬ FailsInExecutor (trial g))
      ∧ ∃ s', store.searchLoop header transaction fuel lowEnd highEnd s = (.ok least, s'))
    ∨ (∃ g ∈ middles least fuel lowEnd highEnd, FailsInExecutor (trial g))
      ∧ ∃ err s', store.searchLoop header transaction fuel lowEnd highEnd s
        = (.error (.error err), s') := by
  induction fuel generalizing k lowEnd highEnd s with
  | zero => omega
  | succ fuel ih =>
    rw [middles]
    by_cases hlt : lowEnd < highEnd
    · obtain ⟨k, rfl, hhalf⟩ := exists_half hlt hsize
      rw [if_pos hlt]
      by_cases hexecutor : FailsInExecutor (trial ((lowEnd + highEnd) / 2))
      · refine Or.inr ⟨⟨_, List.mem_cons_self, hexecutor⟩, ?_⟩
        exact searchLoop_of_failsInExecutor htrial hlt hhigh hexecutor
      simp only [List.forall_mem_cons, List.exists_mem_cons_iff, hexecutor, not_false_eq_true, true_and,
        false_or]
      split
      · rename_i hle
        have hpasses := (hleast _ (by omega) (by omega)).mpr hle
        obtain ⟨s', hstep⟩ := @searchLoop_of_passes _ _ _ _ fuel _ _ s _ htrial hlt hhigh hpasses
        rw [hstep]
        exact ih (k := k) hlow hle (by omega) (by omega) (by omega)
          (fun g hg hg' => hleast g hg (by omega)) (fun g hg hg' => hfails g hg (by omega))
      · rename_i hgt
        have hnot : ¬ Passes (trial ((lowEnd + highEnd) / 2)) := by
          rw [hleast _ (by omega) (by omega)]
          exact hgt
        obtain ⟨s', hstep⟩ := @searchLoop_of_failsForGas _ _ _ _ fuel _ _ s _ htrial hlt hhigh
          ((hfails _ (by omega) (by omega)).resolve_left hnot) hexecutor
        rw [hstep]
        exact ih (k := k) (by omega) hup hhigh (by omega) (by omega)
          (fun g hg => hleast g (by omega)) (fun g hg => hfails g (by omega))
    · rw [if_neg hlt]
      obtain rfl : least = highEnd := by omega
      refine Or.inl ⟨fun g hg => absurd hg List.not_mem_nil, s, ?_⟩
      simp only [searchLoop, hlt, if_false]

end Trials

theorem exists_least {trial : Nat → Except CallError Runtime.ExecutionResult} (hle : lowEnd ≤ highEnd)
    (hmono : ∀ g g', lowEnd ≤ g → g ≤ g' → g' ≤ highEnd → Passes (trial g) → Passes (trial g')) :
    ∃ least, lowEnd ≤ least ∧ least ≤ highEnd
      ∧ ∀ g, lowEnd ≤ g → g < highEnd → (Passes (trial g) ↔ least ≤ g) := by
  by_cases hsome : ∃ g, lowEnd ≤ g ∧ g < highEnd ∧ Passes (trial g)
  · obtain ⟨hlow, hless, hpasses⟩ := Nat.find_spec hsome
    refine ⟨Nat.find hsome, hlow, hless.le, fun g hg hg' => ⟨fun h => ?_, fun h => ?_⟩⟩
    · exact Nat.find_min' hsome ⟨hg, hg', h⟩
    · exact hmono _ g hlow h hg'.le hpasses
  · refine ⟨highEnd, hle, le_rfl, fun g hg hg' => iff_of_false (fun h => hsome ⟨g, hg, hg', h⟩) ?_⟩
    exact Nat.not_le.mpr hg'

def sufficient (trial : Nat → Except CallError Runtime.ExecutionResult) (b : Bounds) : Set Nat :=
  { g | b.lowEnd ≤ g ∧ g ≤ b.highEnd ∧ Passes (trial g) }

theorem estimateGas_is_least_iff {b : Bounds} {trial : Nat → Except CallError Runtime.ExecutionResult}
    (hb : store.bounds transaction rawNum = .ok b) (hle : b.lowEnd ≤ b.highEnd)
    (hhigh : b.highEnd < 2 ^ 63)
    (htrial : ∀ gas s, (store.applyTxn b.header { transaction with gas := gas } s).1 = trial gas)
    (hmono : ∀ g g', b.lowEnd ≤ g → g ≤ g' → g' ≤ b.highEnd → Passes (trial g) → Passes (trial g'))
    (hfails : ∀ g, b.lowEnd ≤ g → g ≤ b.highEnd → Passes (trial g) ∨ FailsForGas (trial g))
    (hfuel : 64 < fuel) (s : σ) :
    b.lowEnd = standardGas transaction (store.getForksInTime (uintOf (rawNum.getD latestBlockNumber)))
    ∧ ((Passes (trial b.highEnd) → ∃ found s',
          store.estimateGas fuel transaction rawNum s = (.ok found, s')
            ∧ IsLeast (sufficient trial b) found)
        ∧ (¬ Passes (trial b.highEnd) → ∃ err s',
          store.estimateGas fuel transaction rawNum s = (.error (.error err), s'))
      ↔ ¬ Passes (trial b.highEnd) ∨ ∀ least, IsLeast (sufficient trial b) least →
          ∀ g ∈ middles least fuel b.lowEnd b.highEnd, ¬ FailsInExecutor (trial g)) := by
  refine ⟨lowEnd_of_bounds hb, ?_⟩
  obtain ⟨least, hlow, hup, hleast⟩ := exists_least hle hmono
  have hsearch := searchLoop_finds (s := s) htrial hlow hup hhigh.le
    (show b.highEnd - b.lowEnd < 2 ^ 64 by omega) hfuel hleast fun g hg hg' => hfails g hg hg'.le
  by_cases hpasses : Passes (trial b.highEnd)
  · have hfound : Passes (trial least) := by
      rcases hup.eq_or_lt with rfl | hless
      · exact hpasses
      · exact (hleast least hlow hless).mpr le_rfl
    have hIsLeast : IsLeast (sufficient trial b) least := by
      refine ⟨⟨hlow, hup, hfound⟩, fun g ⟨hg, hg', hgPasses⟩ => ?_⟩
      rcases hg'.eq_or_lt with rfl | hless
      · exact hup
      · exact (hleast g hg hless).mp hgPasses
    simp only [hpasses, true_imp_iff, not_true_eq_false, false_imp_iff, and_true, false_or]
    obtain ⟨hplain, s', hrun⟩ | ⟨⟨g, hg, hexecutor⟩, err, s', hrun⟩ := hsearch
    · have htest := testTransaction_eq htrial least false s'
      have hend := estimateGas_of_search_ok hb hrun
      simp only [htest, testOutcome_of_passes hfound] at hend
      exact iff_of_true ⟨least, _, hend, hIsLeast⟩ fun least' h => h.unique hIsLeast ▸ hplain
    · refine iff_of_false ?_ fun hplain => hplain least hIsLeast g hg hexecutor
      rintro ⟨found, s'', hok, -⟩
      rw [estimateGas_of_search_error hb hrun] at hok
      cases hok
  · simp only [hpasses, false_imp_iff, not_false_eq_true, true_imp_iff, true_and, true_or, iff_true]
    obtain ⟨-, s', hrun⟩ | ⟨-, err, s', hrun⟩ := hsearch
    · have hnot : ¬ Passes (trial least) := fun h => hpasses (hmono _ _ hlow hup le_rfl h)
      have hfailed := @testOutcome_of_not_passes _ store _ hnot false
      rw [← testTransaction_eq htrial least false s'] at hfailed
      have hend := estimateGas_of_search_ok hb hrun
      simp only [hfailed, if_true] at hend
      exact ⟨_, _, hend⟩
    · exact ⟨err, s', estimateGas_of_search_error hb hrun⟩

def transferOutcome (txn : Transaction) : Except CallError Runtime.ExecutionResult :=
  match transactionGasCost txn true true with
  | none => .error (.transition (.application .intrinsicGasOverflow false))
  | some cost =>
    if txn.gas < cost then .error (.transition (.application .notEnoughIntrinsicGas false))
    else .ok ⟨[], txn.gas - cost, none⟩

theorem transferOutcome_of_cost {txn : Transaction} {cost : Nat}
    (hcost : transactionGasCost txn true true = some cost) :
    (Passes (transferOutcome txn) ↔ cost ≤ txn.gas)
      ∧ (Passes (transferOutcome txn) ∨ FailsForGas (transferOutcome txn)) := by
  simp only [transferOutcome, hcost]
  split
  · refine ⟨⟨False.elim, ?_⟩, Or.inr trivial⟩
    omega
  · rename_i hge
    exact ⟨iff_of_true rfl (Nat.le_of_not_lt hge), Or.inl rfl⟩

def hungryOutcome (txn : Transaction) : Except CallError Runtime.ExecutionResult :=
  if txn.gas < 21016 then .error (.transition (.application .notEnoughIntrinsicGas false))
  else if txn.gas < 40000 then .ok ⟨[], 0, some .outOfGas⟩ else .ok ⟨[], txn.gas - 40000, none⟩

theorem hungryOutcome_cases (g : Nat) :
    (Passes (hungryOutcome { unpricedCall with gas := g }) ↔ 40000 ≤ g)
      ∧ (Passes (hungryOutcome { unpricedCall with gas := g })
        ∨ FailsForGas (hungryOutcome { unpricedCall with gas := g }))
      ∧ (21016 ≤ g → ¬ FailsInExecutor (hungryOutcome { unpricedCall with gas := g })) := by
  simp only [hungryOutcome]
  split
  · exact ⟨iff_of_false id (by omega), Or.inr trivial, by omega⟩
  split
  · refine ⟨iff_of_false (fun h => by cases h) (by omega), Or.inr (Or.inl rfl), fun _ h => ?_⟩
    obtain ⟨err, herr⟩ := h
    cases herr
  · refine ⟨iff_of_true rfl (by omega), Or.inl rfl, fun _ h => ?_⟩
    obtain ⟨err, herr⟩ := h
    cases herr

theorem estimateGas_is_least_iff_hungryOutcome :
    ∃ found s', (fixedStore 50000 hungryOutcome).estimateGas 65 unpricedCall none () = (.ok found, s')
      ∧ IsLeast (sufficient (fun g => hungryOutcome { unpricedCall with gas := g })
        ⟨{ builtHeader with gasLimit := 50000 }, 21000, 50000⟩) found := by
  have hcases := hungryOutcome_cases
  refine ((@estimateGas_is_least_iff _ (fixedStore 50000 hungryOutcome) _ _ 65 _
    (fun g => hungryOutcome { unpricedCall with gas := g }) rfl (by decide) (by decide)
    (fun _ _ => rfl) ?_ (fun g _ _ => (hcases g).2.1) (by decide) ()).2.mpr (Or.inr ?_)).1 ?_
  · intro g g' _ hgg' _ h
    exact (hcases g').1.mpr (((hcases g).1.mp h).trans hgg')
  · rintro least ⟨⟨_, _, hpasses⟩, hleast⟩ g hg
    obtain rfl : least = 40000 := by
      refine le_antisymm (hleast ⟨by decide, by decide, (hcases _).1.mpr le_rfl⟩) ?_
      exact (hcases least).1.mp hpasses
    have hall : ∀ g ∈ middles 40000 65 21000 50000, 21016 ≤ g := by decide
    exact (hcases g).2.2 (hall g hg)
  · exact (hcases _).1.mpr (by decide)

def memoCall : Transaction := { unpricedCall with input := [1] }

theorem estimateGas_fails_below_intrinsic_cost :
    (∀ g, Passes (transferOutcome { memoCall with gas := g }) ↔ 21016 ≤ g)
      ∧ (∀ g, Passes (transferOutcome { memoCall with gas := g })
        ∨ FailsForGas (transferOutcome { memoCall with gas := g }))
      ∧ (fixedStore 50000 transferOutcome).bounds memoCall none =
        .ok ⟨{ builtHeader with gasLimit := 50000 }, 21000, 50000⟩
      ∧ (fixedStore 50000 transferOutcome).estimateGas 65 memoCall none () =
        (.error (.error (.transition (.application .notEnoughIntrinsicGas false))), ()) := by
  have hcost : ∀ g, transactionGasCost { memoCall with gas := g } true true = some 21016 := by
    intro g
    simp [transactionGasCost, memoCall, unpricedCall, txGas]
  exact ⟨fun g => (transferOutcome_of_cost (hcost g)).1, fun g => (transferOutcome_of_cost (hcost g)).2, rfl, rfl⟩

end Nxchain.Jsonrpc.CallStore
