import Nxchain.Proof.ReturnData

namespace Nxchain.Evm

open Prog Word
open Program (Follows Asks)

section Calls

variable [SliceGrowth] {env : Env} {op : OpCode} {args : CallOperands} {rest : List Int} {s : State}
  {type : CallType} {path : Path}

def CallOperands.gasBehind (args : CallOperands) (rest : List Int) (s : State) : Nat :=
  (args.allocate (args.taken rest { s with returnData := [] })).2.gas

structure CallPaid (env : Env) (args : CallOperands) (gas : Nat) (isNew : Bool) (passed : Nat)
    (c : Contract) (s₁ : State) : Prop where
  requested : passedGas env args.initialGas gas (args.cost env isNew) = some passed
  afforded : (args.cost env isNew + passed) % 2 ^ 64 ≤ gas
  left : s₁.gas = gas - (args.cost env isNew + passed) % 2 ^ 64
  given : c.gas = args.given passed

def CallOperands.Wraps (args : CallOperands) (env : Env) (isNew : Bool) (windowsGas : Nat) : Prop :=
  env.config.eip150 = false ∧ args.initialGas < 2 ^ 64 ∧
    2 ^ 64 ≤ args.cost env isNew + args.initialGas ∧
    (args.value.getD 0 ≠ 0 → args.initialGas + 2300 < 2 ^ 64) ∧
    args.cost env isNew + windowsGas < 2 ^ 64

omit [SliceGrowth] in
theorem passedGas_eq_uint64 {gas cost passed : Nat} {initialGas : Int}
    (heip150 : env.config.eip150 = false)
    (hpassed : passedGas env initialGas gas cost = some passed) :
    (passed : Int) = initialGas ∧ passed < 2 ^ 64 := by
  unfold passedGas at hpassed
  rw [heip150, if_neg Bool.false_ne_true] at hpassed
  split at hpassed
  · rename_i huint
    obtain rfl := Option.some.inj hpassed
    exact ⟨coe_uint64 huint, uint64_lt initialGas⟩
  · cases hpassed

omit [SliceGrowth] in
theorem CallPaid.conserves_iff {gas limit passed : Nat} {isNew : Bool} {c : Contract} {s₁ : State}
    (h : CallPaid env args gas isNew passed c s₁) (hless : gas ≤ limit) (hgas : limit < 2 ^ 64) :
    s₁.gas + c.gas ≤ limit + (if args.value.getD 0 ≠ 0 then 2300 else 0) ↔
      ¬ args.Wraps env isNew (limit - gas) := by
  obtain ⟨hrequested, hafforded, hleft, hgiven⟩ := h
  obtain ⟨_, hcost, _⟩ := args.cost_bounds env isNew
  unfold CallOperands.Wraps
  unfold CallOperands.given at hgiven
  cases heip150 : env.config.eip150 with
  | true =>
    have hle := passedGas_le heip150 (hless.trans_lt hgas) hcost hrequested hafforded
    refine iff_of_true ?_ fun h => Bool.false_ne_true h.1.symm
    rw [Nat.mod_eq_of_lt (hle.trans_lt (hless.trans_lt hgas))] at hleft
    split_ifs at hgiven ⊢ <;> omega
  | false =>
    obtain ⟨hpassed, hword⟩ := passedGas_eq_uint64 heip150 hrequested
    simp only [true_and]
    split_ifs at hgiven ⊢ with htransfer
    · simp only [ne_eq, htransfer, not_false_eq_true, forall_const]
      omega
    · simp only [ne_eq, not_not.mp htransfer, not_true_eq_false, false_imp_iff, true_and]
      omega

theorem paid_of_asks {c : Contract} {s₁ : State} (htype : callType op = some type)
    (hvalue : args.value.isSome = takesValue op) (hstack : s.stack = args.push rest)
    (hasks : Asks Action.exec (opCall op env) s path (.callx c) s₁) :
    args.gasBehind rest s ≤ s.gas ∧
      ∃ isNew passed, CallPaid env args (args.gasBehind rest s) isNew passed c s₁ := by
  obtain ⟨left, _, ⟨err, _, hexit⟩ | ⟨_, built, s₂, hbuilt, hcall⟩⟩ :=
    opCall_course (passesOn_asks c s₁) htype hvalue hstack hasks
  · cases hexit with
    | act _ hrest => cases hrest
  · cases hbuilt with
    | unallocated => cases hcall
    | unpaid => cases hcall
    | bad =>
      cases hcall with
      | act _ hrest =>
        cases hrest with
        | act _ hrest => cases hrest
    | ready halloc hpassed hpaid =>
      have hgas := congrArg (fun r => r.2.gas) halloc
      obtain ⟨_, _, rfl, _, hless⟩ := CallOperands.allocate_true halloc
      rw [show args.gasBehind rest s = _ from hgas]
      cases hcall with
      | here => exact ⟨hless, _, _, hpassed, hpaid, rfl, gas_callContract ..⟩
      | ask answer hrest => exact (not_asks_returned hrest).elim

theorem call_gas_is_conserved_iff (htype : callType op = some type)
    (hvalue : args.value.isSome = takesValue op) (hstack : s.stack = args.push rest)
    (hgas : s.gas < 2 ^ 64) :
    (∀ path c s₁, Asks Action.exec (opCall op env) s path (.callx c) s₁ →
      ∃ isNew passed, CallPaid env args (args.gasBehind rest s) isNew passed c s₁ ∧
        (s₁.gas + c.gas ≤ s.gas + (if args.value.getD 0 ≠ 0 then 2300 else 0) ↔
          ¬ args.Wraps env isNew (s.gas - args.gasBehind rest s))) ∧
    (∀ path s', Follows Action.exec (opCall op env) s path (.ok ((), s')) → s.err = none →
      s'.err = some .outOfGas → ∀ c answer, ⟨.callx c, answer⟩ ∉ path) := by
  constructor
  · intro path c s₁ hasks
    obtain ⟨hless, isNew, passed, hpaid⟩ := paid_of_asks htype hvalue hstack hasks
    exact ⟨isNew, passed, hpaid, hpaid.conserves_iff hless hgas⟩
  · intro path s' hfollows herr houtOfGas c answer hmem
    obtain ⟨left, hcalls, ⟨_, _, rfl, _⟩ | ⟨_, built, s₂, hbuilt, hend⟩⟩ :=
      opCall_ends htype hvalue hstack hfollows
    · cases hcalls.mem_iff.mp hmem
    · cases hend with
      | stopped => cases hcalls.mem_iff.mp hmem
      | bad => cases hcalls.mem_iff.mp hmem
      | called hcopied =>
        cases hbuilt with
        | ready halloc =>
          obtain ⟨gas, cost, rfl, _⟩ := CallOperands.allocate_true halloc
          cases herr.symm.trans houtOfGas

end Calls

section Sample

local instance callGrowth : SliceGrowth := ⟨fun _ _ => 0⟩

def frontierEnv : Env := ⟨codeContract [], ⟨false, false, false, false, false, false, false, false⟩⟩

def plainOperands (gas : Int) : CallOperands := ⟨gas, 5, some 0, 0, 0, 0, 0⟩

theorem call_gas_is_conserved_iff_plain : ∃ path c s₁,
    Asks Action.exec (opCall OpCode.callCode frontierEnv) (copyingState ((plainOperands 100).push []))
        path (.callx c) s₁ ∧ s₁.gas + c.gas ≤ 1000 := by
  obtain ⟨path, c, s₁, hasks⟩ : ∃ path c s₁, Asks Action.exec (opCall OpCode.callCode frontierEnv)
      (copyingState ((plainOperands 100).push [])) path (.callx c) s₁ := by
    refine ⟨[⟨.host (.getCode (toAddress 5)), []⟩], ?contract, ?left, ?asks⟩
    case asks =>
      repeat' first
        | exact .here _
        | refine .act rfl ?_
        | refine .ask _ ?_
  obtain ⟨isNew, _, _, hconserved⟩ := (call_gas_is_conserved_iff
    (show callType OpCode.callCode = some .callCode from rfl)
    (show (plainOperands 100).value.isSome = takesValue OpCode.callCode from rfl)
    (show (copyingState ((plainOperands 100).push [])).stack = _ from rfl) (by decide)).1 path c s₁ hasks
  refine ⟨path, c, s₁, hasks, hconserved.mpr fun hwraps => ?_⟩
  obtain ⟨_, _, hsum, _⟩ := hwraps
  obtain ⟨_, hcost, _⟩ := (plainOperands 100).cost_bounds frontierEnv isNew
  have hgas : (plainOperands 100).initialGas = 100 := rfl
  omega

theorem greedy_call_gets_all_gas : ∃ path c s₁,
    Asks Action.exec (opCall OpCode.callCode frontierEnv) (copyingState ((plainOperands (2 ^ 64 - 1)).push [])) path
        (.callx c) s₁ ∧
      (copyingState ((plainOperands (2 ^ 64 - 1)).push [])).gas = 1000 ∧ c.gas = 2 ^ 64 - 1 ∧ s₁.gas = 961 := by
  refine ⟨[⟨.host (.getCode (toAddress 5)), []⟩], ?contract, ?left, ?asks, rfl, ?given, ?kept⟩
  case asks =>
    repeat' first
      | exact .here _
      | refine .act rfl ?_
      | refine .ask _ ?_
  case given => rfl
  case kept => rfl

end Sample

end Nxchain.Evm
