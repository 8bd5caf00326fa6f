import Nxchain.Proof.InstructionRules

namespace Nxchain.Evm

open Prog Word

variable {op : OpCode} {post : Unit → State → Prop} {rest : List Int}

structure CallOperands where
  initialGas : Int
  addr : Int
  value : Option Int
  inOffset : Int
  inSize : Int
  retOffset : Int
  retSize : Int

def takesValue (op : OpCode) : Bool := op = OpCode.call || op = OpCode.callCode

def CallOperands.push (args : CallOperands) (rest : List Int) : List Int :=
  args.initialGas :: args.addr :: (args.value.toList ++
    args.inOffset :: args.inSize :: args.retOffset :: args.retSize :: rest)

def CallOperands.expand [SliceGrowth] (args : CallOperands) (memory : Slice) : Slice :=
  (memory.expand args.inOffset args.inSize).expand args.retOffset args.retSize

def operandCount (op : OpCode) : Nat := if takesValue op then 7 else 6

theorem exists_callOperands {stack : List Int} (h : operandCount op ≤ stack.length) :
    ∃ (args : CallOperands) (rest : List Int), stack = args.push rest ∧
      args.value.isSome = takesValue op := by
  unfold operandCount at h
  cases hop : takesValue op with
  | true =>
    rw [if_pos hop] at h
    match stack, h with
    | g :: a :: v :: i :: n :: o :: z :: rest, _ => exact ⟨⟨g, a, some v, i, n, o, z⟩, rest, rfl, rfl⟩
  | false =>
    rw [if_neg (by simp [hop])] at h
    match stack, h with
    | g :: a :: i :: n :: o :: z :: rest, _ => exact ⟨⟨g, a, none, i, n, o, z⟩, rest, rfl, rfl⟩

section Contracts

variable (env : Env) (op : OpCode) (addr : Address) (value : Option Int) (gas : Nat) (code input : Bytes)

theorem gas_callContract : (callContract env op addr value gas code input).gas = gas := by
  unfold callContract
  split_ifs <;> rfl

theorem static_callContract (hstatic : env.msg.static = true) :
    (callContract env op addr value gas code input).static = true := by
  unfold callContract
  simp only [hstatic, Bool.or_true]
  split_ifs <;> rfl

theorem value_callContract (h : op ≠ OpCode.delegateCall) :
    (callContract env op addr value gas code input).value = value := by
  unfold callContract
  split_ifs <;> rfl

end Contracts

theorem callType_eq_call (h : callType op = some .call) : op = OpCode.call := by
  unfold callType at h
  split_ifs at h with hcall
  · exact hcall
  all_goals cases h

theorem callType_ne_create {type : CallType} (h : callType op = some type) : type ≠ .create := by
  unfold callType at h
  rintro rfl
  split_ifs at h <;> cases h

def callCost (env : Env) (isNew transfersValue : Bool) : Nat :=
  let gasCost := if env.config.eip150 then 700 else 40
  let gasCost := if isNew then gasCost + 25000 else gasCost
  if transfersValue then gasCost + 9000 else gasCost

theorem callCost_bounds (env : Env) (isNew transfersValue : Bool) :
    40 ≤ callCost env isNew transfersValue ∧ callCost env isNew transfersValue ≤ 34700 ∧
      (transfersValue = true → 9040 ≤ callCost env isNew transfersValue) := by
  unfold callCost
  dsimp only
  refine ⟨?_, ?_, fun htransfers => ?_⟩
  · split_ifs <;> omega
  · split_ifs <;> omega
  · split_ifs <;> omega

def CallOperands.given (args : CallOperands) (passed : Nat) : Nat :=
  if args.value.getD 0 ≠ 0 then (passed + 2300) % 2 ^ 64 else passed

def CallOperands.cost (args : CallOperands) (env : Env) (isNew : Bool) : Nat :=
  callCost env isNew (args.value.getD 0 ≠ 0)

theorem CallOperands.cost_bounds (args : CallOperands) (env : Env) (isNew : Bool) :
    40 ≤ args.cost env isNew ∧ args.cost env isNew ≤ 34700 ∧
      (args.value.getD 0 ≠ 0 → 9040 ≤ args.cost env isNew) := by
  obtain ⟨hcost, hcost', htransfers⟩ := callCost_bounds env isNew (args.value.getD 0 ≠ 0)
  exact ⟨hcost, hcost', fun h => htransfers (decide_eq_true h)⟩

theorem passedGas_le {env : Env} (heip150 : env.config.eip150 = true) {initialGas : Int} {gas cost passed : Nat}
    (hgas : gas < 2 ^ 64) (hcost : cost ≤ 34700) (hpassed : passedGas env initialGas gas cost = some passed)
    (hpaid : (cost + passed) % 2 ^ 64 ≤ gas) : cost + passed ≤ gas := by
  have hle : passed ≤ sub64 gas cost - sub64 gas cost / 64 := by
    unfold passedGas at hpassed
    rw [if_pos heip150] at hpassed
    dsimp only at hpassed
    split at hpassed
    · exact (Option.some.inj hpassed).ge
    · rename_i havailable
      obtain rfl := Option.some.inj hpassed
      simp only [Bool.or_eq_true, decide_eq_true_eq, not_or, not_lt] at havailable
      exact havailable.2
  unfold sub64 at hle
  -- gas that does not cover the cost wraps around to far more than can be paid
  rcases Nat.lt_or_ge gas cost with hlt | hge
  · omega
  · omega

variable [SliceGrowth] {env : Env} {terms : Terms} {s : State} {op : OpCode}

theorem keeps_callsNewAccount {transfersValue : Bool} {addr : Address} {post : Bool → State → Prop}
    (h : ∀ answer, post answer s) : Keeps env terms (callsNewAccount env op transfersValue addr) post s := by
  unfold callsNewAccount
  split
  · split
    · split
      · exact keeps_host (fun _ => rfl) h
      · exact keeps_pure.mpr (h _)
    · exact .bind (keeps_host (fun _ => rfl) fun _ => keeps_pure.mpr (h _))
  · exact keeps_pure.mpr (h _)

variable {args : CallOperands}

theorem keeps_popValue {post : Option Int → State → Prop} (hvalue : args.value.isSome = takesValue op)
    (hstack : s.stack = args.value.toList ++ rest)
    (h : post args.value { s with stack := rest, unused := args.value.toList ++ s.unused }) :
    Keeps env terms (popValue op) post s := by
  unfold popValue
  cases hop : args.value with
  | some v =>
    rw [hop] at hstack hvalue h
    have hif : (op = OpCode.call || op = OpCode.callCode) = true := hvalue.symm
    rw [if_pos hif, keeps_bind, keeps_popWord hstack]
    exact keeps_pure.mpr h
  | none =>
    rw [hop] at hstack hvalue h
    have hif : ¬(op = OpCode.call || op = OpCode.callCode) = true := by
      rw [show (op = OpCode.call || op = OpCode.callCode) = false from hvalue.symm]
      exact Bool.false_ne_true
    rw [if_neg hif]
    rw [show rest = s.stack from hstack.symm] at h
    exact keeps_pure.mpr h

def CallOperands.allocate (args : CallOperands) (s : State) : Bool × State :=
  let (ok, s) := if args.inSize = 0 then (true, s) else s.allocateMemory args.inOffset args.inSize
  if ok then s.allocateMemory args.retOffset args.retSize else (false, s)

def CallOperands.input (args : CallOperands) (s : State) : Bool × State :=
  if args.inSize = 0 then (true, s) else s.allocateMemory args.inOffset args.inSize

theorem CallOperands.allocate_of_true (args : CallOperands) {s s' : State} (h : args.input s = (true, s')) :
    args.allocate s = s'.allocateMemory args.retOffset args.retSize := by
  change (if (args.input s).1 then (args.input s).2.allocateMemory args.retOffset args.retSize else _) = _
  rw [h]
  rfl

theorem CallOperands.allocate_of_false (args : CallOperands) {s s' : State} (h : args.input s = (false, s')) :
    args.allocate s = (false, s') := by
  change (if (args.input s).1 then _ else (false, (args.input s).2)) = _
  rw [h]
  rfl

theorem keeps_input {post : Option Bytes → State → Prop} (hfail : ∀ s', args.input s = (false, s') → post none s')
    (hok : ∀ input s', args.input s = (true, s') → post (some input) s') :
    Keeps env terms (get2 args.inOffset args.inSize) post s := by
  refine keeps_get2_exact ?_ ?_ ?_
  · exact fun hzero => hok _ s (if_pos hzero)
  · exact fun s' hlength halloc => hfail s' ((if_neg hlength).trans halloc)
  · exact fun s' hlength halloc => hok _ s' ((if_neg hlength).trans halloc)

theorem CallOperands.input_false {s s' : State} (h : args.input s = (false, s')) : Stopped s s' := by
  unfold input at h
  split_ifs at h
  · cases h
  · exact (allocateMemory_false h).1

theorem CallOperands.input_true {s s' : State} (h : args.input s = (true, s')) : ∃ gas cost,
    s' = { s with memory := s.memory.expand args.inOffset args.inSize, gas := gas, lastGasCost := cost } ∧
      gas ≤ s.gas := by
  unfold input at h
  split_ifs at h with hzero
  · cases h
    exact ⟨s.gas, s.lastGasCost, by rw [hzero, Slice.expand_zero], le_rfl⟩
  · obtain ⟨gas, cost, rfl, _, hgas⟩ := allocateMemory_true h
    exact ⟨gas, cost, rfl, hgas⟩

theorem CallOperands.allocate_false {s s' : State} (h : args.allocate s = (false, s')) : Stopped s s' := by
  obtain ⟨ok, s₁, hin⟩ : ∃ ok s₁, args.input s = (ok, s₁) := ⟨_, _, rfl⟩
  cases ok with
  | false =>
    cases (args.allocate_of_false hin).symm.trans h
    exact input_false hin
  | true =>
    rw [args.allocate_of_true hin] at h
    obtain ⟨gas, cost, rfl, hgas⟩ := input_true hin
    refine Moves.stopped ?_ (allocateMemory_false h).1
    exact ⟨rfl, rfl, hgas⟩

theorem CallOperands.allocate_true {s s' : State} (h : args.allocate s = (true, s')) : ∃ gas cost,
    s' = { s with memory := args.expand s.memory, gas := gas, lastGasCost := cost } ∧
      Window args.retOffset args.retSize ∧ gas ≤ s.gas := by
  obtain ⟨ok, s₁, hin⟩ : ∃ ok s₁, args.input s = (ok, s₁) := ⟨_, _, rfl⟩
  cases ok with
  | false => cases (args.allocate_of_false hin).symm.trans h
  | true =>
    rw [args.allocate_of_true hin] at h
    obtain ⟨gas₁, cost₁, rfl, hgas₁⟩ := input_true hin
    obtain ⟨gas, cost, rfl, hwindow, hgas⟩ := allocateMemory_true h
    exact ⟨gas, cost, rfl, hwindow, hgas.trans hgas₁⟩

def CallOperands.taken (args : CallOperands) (rest : List Int) (s : State) : State :=
  { s with
    stack := rest
    unused := args.retSize :: args.retOffset :: args.inSize :: args.inOffset ::
      (args.value.toList ++ args.addr :: args.initialGas :: s.unused) }

inductive CallBuilt (env : Env) (op : OpCode) (args : CallOperands) (rest : List Int) (s : State) :
    Built → State → Prop
  | unallocated {s₁ : State} : args.allocate (args.taken rest s) = (false, s₁) →
      CallBuilt env op args rest s .stopped s₁
  | unpaid {s₁ : State} (isNew : Bool) : args.allocate (args.taken rest s) = (true, s₁) →
      (∀ passed, passedGas env args.initialGas s₁.gas (args.cost env isNew) = some passed →
        s₁.gas < (args.cost env isNew + passed) % 2 ^ 64) →
      CallBuilt env op args rest s .stopped (s₁.exit .outOfGas)
  | bad {s₁ : State} {isNew : Bool} {passed : Nat} {code input : Bytes} :
      args.allocate (args.taken rest s) = (true, s₁) →
      passedGas env args.initialGas s₁.gas (args.cost env isNew) = some passed →
      (args.cost env isNew + passed) % 2 ^ 64 ≤ s₁.gas → args.value.getD 0 ≠ 0 →
      CallBuilt env op args rest s
        (.bad (some (callContract env op (toAddress args.addr) args.value (args.given passed) code input)))
        { s₁ with gas := s₁.gas - (args.cost env isNew + passed) % 2 ^ 64 }
  | ready {s₁ : State} {isNew : Bool} {passed : Nat} {code input : Bytes} :
      args.allocate (args.taken rest s) = (true, s₁) →
      passedGas env args.initialGas s₁.gas (args.cost env isNew) = some passed →
      (args.cost env isNew + passed) % 2 ^ 64 ≤ s₁.gas →
      CallBuilt env op args rest s
        (.ready (callContract env op (toAddress args.addr) args.value (args.given passed) code input)
          (uint64 args.retOffset) (uint64 args.retSize))
        { s₁ with gas := s₁.gas - (args.cost env isNew + passed) % 2 ^ 64 }

theorem keeps_callBuilt (hvalue : args.value.isSome = takesValue op) (hstack : s.stack = args.push rest) :
    Keeps env terms (buildCallContract env op) (CallBuilt env op args rest s) s := by
  rw [buildCallContract, keeps_bind, keeps_popWord hstack, keeps_bind, keeps_popAddr rfl]
  refine .bind (keeps_popValue hvalue rfl ?_)
  rw [keeps_bind, keeps_popWord rfl, keeps_bind, keeps_popWord rfl, keeps_bind, keeps_popWord rfl,
    keeps_bind, keeps_popWord rfl]
  refine .bind (keeps_input ?_ fun input s' hin => ?_)
  · intro s₁ hin
    exact keeps_pure.mpr (.unallocated (args.allocate_of_false hin))
  refine .bind (keeps_allocateMemory_exact fun ok s₁ hret => ?_)
  rw [← args.allocate_of_true hin] at hret
  cases ok with
  | false => exact keeps_pure.mpr (.unallocated hret)
  | true =>
    refine .bind (.bind (keeps_callsNewAccount fun isNew => keeps_pure.mpr (.bind (keeps_gas.mpr ?_))))
    split
    next heq =>
      have hpassed : passedGas env args.initialGas s₁.gas (args.cost env isNew) = none := heq
      refine .bind (keeps_exit.mpr (keeps_pure.mpr (.unpaid isNew hret fun passed h => ?_)))
      cases hpassed.symm.trans h
    next passed heq =>
      have hpassed : passedGas env args.initialGas s₁.gas (args.cost env isNew) = some passed := heq
      by_cases hgas : s₁.gas < (args.cost env isNew + passed) % 2 ^ 64
      · refine .bind ((keeps_consumeGas_of_lt hgas).mpr (keeps_pure.mpr ?_))
        refine .unpaid isNew hret fun passed' h => ?_
        cases hpassed.symm.trans h
        exact hgas
      · refine .bind ((keeps_consumeGas_of_le (not_lt.mp hgas)).mpr ?_)
        refine .bind (keeps_host (fun _ => rfl) fun code => ?_)
        have hgiven : (if args.value.getD 0 ≠ 0 then (passed + 2300) % 2 ^ 64 else passed) =
            args.given passed := rfl
        simp only [hgiven]
        split_ifs with htransfer
        · refine .bind (keeps_host (fun _ => rfl) fun balance => ?_)
          split_ifs
          · exact keeps_pure.mpr (.bad hret hpassed (not_lt.mp hgas) htransfer)
          · exact keeps_pure.mpr (.ready hret hpassed (not_lt.mp hgas))
        · exact keeps_pure.mpr (.ready hret hpassed (not_lt.mp hgas))

theorem keeps_buildCallContract
    {post : Built → State → Prop} (hvalue : args.value.isSome = takesValue op)
    (hstack : s.stack = args.push rest)
    (hmetered : terms.metered → env.config.eip150 = true ∧ s.gas < 2 ^ 64)
    (hstopped : ∀ s', Stopped s s' → post .stopped s')
    (hbad : ∀ contract s', Moves s s' → (terms.metered → s'.gas + contract.gas < s.gas) →
      post (.bad (some contract)) s')
    (hready : ∀ passed code input gas cost unused, (terms.metered → gas + passed < s.gas) →
      Window args.retOffset args.retSize →
      post (.ready (callContract env op (toAddress args.addr) args.value passed code input)
          (uint64 args.retOffset) (uint64 args.retSize))
        { s with stack := rest, unused := unused, memory := args.expand s.memory, gas := gas,
                 lastGasCost := cost }) :
    Keeps env terms (buildCallContract env op) post s := by
  -- what is left to the caller and given to the contract is less than there was
  have hsum : ∀ {gas : Nat} {isNew : Bool} {passed : Nat}, gas ≤ s.gas →
      passedGas env args.initialGas gas (args.cost env isNew) = some passed →
      (args.cost env isNew + passed) % 2 ^ 64 ≤ gas → terms.metered →
      gas - (args.cost env isNew + passed) % 2 ^ 64 + args.given passed < s.gas := by
    intro gas isNew passed hgas hpassed hpaid hm
    obtain ⟨hcost, hcost', htransfers⟩ := args.cost_bounds env isNew
    obtain ⟨heip150, hlt⟩ := hmetered hm
    have hle := passedGas_le heip150 (hgas.trans_lt hlt) hcost' hpassed hpaid
    rw [Nat.mod_eq_of_lt (hle.trans_lt (hgas.trans_lt hlt))]
    unfold CallOperands.given
    split_ifs with htransfer
    · have hprice := htransfers htransfer
      omega
    · omega
  refine (keeps_callBuilt hvalue hstack).mono fun built s' hbuilt => ?_
  cases hbuilt with
  | unallocated h =>
    refine hstopped _ (Moves.stopped ?_ (CallOperands.allocate_false h))
    exact ⟨rfl, rfl, le_rfl⟩
  | unpaid _ h _ =>
    obtain ⟨gas, cost, rfl, _, hgas⟩ := CallOperands.allocate_true h
    exact hstopped _ ⟨⟨rfl, rfl, hgas⟩, rfl, rfl⟩
  | bad h hpassed hpaid _ =>
    obtain ⟨gas, cost, rfl, _, hgas⟩ := CallOperands.allocate_true h
    refine hbad _ _ ⟨rfl, rfl, (Nat.sub_le _ _).trans hgas⟩ ?_
    rw [gas_callContract]
    exact hsum hgas hpassed hpaid
  | ready h hpassed hpaid =>
    obtain ⟨gas, cost, rfl, hwindow, hgas⟩ := CallOperands.allocate_true h
    exact hready _ _ _ _ cost _ (hsum hgas hpassed hpaid) hwindow

theorem keeps_giveBack {contract : Contract} (h : post () { s with gas := (s.gas + contract.gas) % 2 ^ 64 }) :
    Keeps env terms (giveBack (some contract)) post s := keeps_addGas.mpr h

theorem keeps_returned {offset size : Nat} {result : Runtime.ExecutionResult} (hlt : offset + size < 2 ^ 64)
    (hroom : s.memory.bytes.length < offset + size → terms.overreach ∧ size = 0)
    (hcopied : (result.succeeded || result.reverted) = true → result.returnValue ≠ [] →
      ∀ memory, s.memory.copySlice offset (offset + size) result.returnValue = .ok memory → ∀ stack unused, post ()
          { s with stack := stack, unused := unused, memory := memory,
                   gas := (s.gas + result.gasLeft) % 2 ^ 64, returnData := result.returnValue })
    (hkept : ((result.succeeded || result.reverted) = true → result.returnValue = []) → ∀ stack unused, post ()
        { s with stack := stack, unused := unused, gas := (s.gas + result.gasLeft) % 2 ^ 64,
                 returnData := result.returnValue }) :
    Keeps env terms (returned offset size result) post s := by
  rw [returned, keeps_bind, keeps_push, Nat.mod_eq_of_lt hlt]
  by_cases hcopies : ((result.succeeded || result.reverted) && result.returnValue.length ≠ 0) = true
  · rw [if_pos hcopies]
    rw [Bool.and_eq_true] at hcopies
    refine .bind (keeps_copySlice (Nat.le_add_right _ _) ?_ fun memory hmemory => ?_)
    · intro hfar
      obtain ⟨hoverreach, hsize⟩ := hroom hfar
      exact ⟨hoverreach, by omega⟩
    · refine .bind (keeps_addGas.mpr (keeps_setReturnData.mpr ?_))
      exact hcopied hcopies.1 (by simpa using hcopies.2) memory hmemory _ _
  · rw [if_neg hcopies]
    refine .bind (keeps_addGas.mpr (keeps_setReturnData.mpr ?_))
    refine hkept ?_ _ _
    intro hcond
    simpa [hcond] using hcopies

theorem keeps_writesInStatic {post : Bool → State → Prop} (hvalue : args.value.isSome = takesValue op)
    (hstack : s.stack = args.push rest)
    (hrefused : op = OpCode.call → env.msg.static = true → args.value.getD 0 ≠ 0 → post true s)
    (hgo : (op = OpCode.call → env.msg.static = true → ∀ v ∈ args.value, v = 0) → post false s) :
    Keeps env terms (writesInStatic env op) post s := by
  unfold writesInStatic
  by_cases hstatic : (op = OpCode.call && env.msg.static) = true
  · rw [if_pos hstatic]
    rw [Bool.and_eq_true, decide_eq_true_eq] at hstatic
    have hsome : args.value.isSome = true := by rw [hvalue, hstatic.1]; rfl
    obtain ⟨v, hv⟩ := Option.isSome_iff_exists.mp hsome
    have hpeek : s.peekAt 3 = some v := by
      unfold State.peekAt
      rw [hstack, CallOperands.push, hv]
      rfl
    refine .bind ((keeps_peekAt (by decide) hpeek).mpr (keeps_pure.mpr ?_))
    by_cases hzero : v = 0
    · have hdone := hgo fun _ _ w hw => by
        rw [hv] at hw
        exact (Option.some.inj hw).symm.trans hzero
      rw [hzero]
      exact hdone
    · have hpos : 0 < bitLen v := by
        rw [bitLen, if_neg hzero]
        exact Nat.succ_pos _
      rw [decide_eq_true hpos]
      refine hrefused hstatic.1 hstatic.2 ?_
      rw [hv]
      exact hzero
  · rw [if_neg hstatic]
    refine keeps_pure.mpr (hgo fun hop hs => absurd ?_ hstatic)
    rw [hop, hs]
    rfl

theorem keeps_opCall {type : CallType} (htype : callType op = some type) (hcalls : terms.calls)
    (hgas : terms.gas = s.gas) (hvalue : args.value.isSome = takesValue op) (hstack : s.stack = args.push rest)
    (hmetered : terms.metered → env.config.eip150 = true ∧ s.gas < 2 ^ 64)
    (hoverreach : args.retSize = 0 → s.memory.bytes.length < args.retOffset → terms.overreach)
    (hstopped : ∀ s', Stopped s s' → post () s')
    (hpaid : ∀ s', s'.bitmap = s.bitmap → s'.ip = s.ip → (terms.metered → s'.gas < s.gas) → post () s') :
    Keeps env terms (opCall op env) post s := by
  have hreset : Moves s { s with returnData := [] } := ⟨rfl, rfl, le_rfl⟩
  rw [opCall, keeps_bind, keeps_setReturnData]
  refine .bind (keeps_writesInStatic hvalue hstack (fun _ _ _ => ?_) fun hzero => ?_)
  · exact keeps_exit.mpr (hstopped _ (hreset.stopped (stopped_exit _ _)))
  rw [if_neg Bool.false_ne_true]
  split
  · exact keeps_exit.mpr (hstopped _ (hreset.stopped (stopped_exit _ _)))
  split
  · exact keeps_exit.mpr (hstopped _ (hreset.stopped (stopped_exit _ _)))
  rw [htype]
  refine .bind (keeps_buildCallContract hvalue hstack hmetered ?_ ?_ ?_)
  · exact fun s' hstop => keeps_pure.mpr (hstopped s' (hreset.stopped hstop))
  · intro contract s' hmoves hsum
    refine .bind (keeps_push.mpr (keeps_giveBack ?_))
    refine hpaid _ hmoves.bitmap hmoves.ip fun hm => ?_
    exact (Nat.mod_le _ _).trans_lt (hsum hm)
  · intro passed code input gas cost unused hsum hwindow
    refine .bind (keeps_callx ⟨hcalls, ?_, ?_⟩ fun result hresult => ?_)
    · intro hm
      have hlt : gas + passed < s.gas := hsum hm
      rw [gas_callContract]
      omega
    · intro hstatic
      refine ⟨static_callContract env op _ _ _ _ _ hstatic, callType_ne_create htype, ?_⟩
      rintro rfl
      have hop := callType_eq_call htype
      rw [value_callContract env op _ _ _ _ _ (by rw [hop]; decide)]
      exact hzero hop hstatic
    · have hleft : terms.metered → (gas + result.gasLeft) % 2 ^ 64 < s.gas := by
        intro hm
        have hlt : gas + passed < s.gas := hsum hm
        have hle := hresult hm
        rw [gas_callContract] at hle
        exact (Nat.mod_le _ _).trans_lt (by omega)
      refine keeps_returned ?_ ?_ ?_ ?_
      · by_cases hsize : args.retSize = 0
        · rw [hsize]
          exact uint64_lt _
        · exact hwindow.lt hsize
      · intro hfar
        have hfar : (args.expand s.memory).bytes.length < uint64 args.retOffset + uint64 args.retSize := hfar
        have hsize : args.retSize = 0 := by
          by_contra hsize
          exact absurd (Slice.le_length_expand _ args.retOffset hsize) (not_le.mpr hfar)
        refine ⟨hoverreach hsize ?_, by rw [hsize]; rfl⟩
        have hprefix := (s.memory.prefix_expand args.inOffset args.inSize).length_le
        rw [CallOperands.expand, hsize, Slice.expand_zero] at hfar
        have hoffset := coe_uint64 hwindow.isUint64_offset
        have hzero : uint64 0 = 0 := rfl
        omega
      · exact fun _ _ memory _ stack unused => hpaid _ rfl rfl hleft
      · exact fun _ stack unused => hpaid _ rfl rfl hleft

theorem keeps_lacksValue {value : Int} {post : Bool → State → Prop} (h : ∀ answer, post answer s) :
    Keeps env terms (lacksValue env value) post s := by
  unfold lacksValue
  split
  · exact .bind (keeps_host (fun _ => rfl) fun _ => keeps_pure.mpr (h _))
  · exact keeps_pure.mpr (h _)

theorem keeps_popSalt {α : Type} {post : α → State → Prop} {f : Option Int → Prog α}
    (hlength : op = OpCode.create2 → 1 ≤ s.stack.length)
    (h : ∀ (salt : Option Int) s₁, Moves s s₁ → s₁.stack = s.stack.drop (if op = OpCode.create2 then 1 else 0) →
      (op = OpCode.create2 → salt.isSome = true) → Keeps env terms (f salt) post s₁) :
    Keeps env terms (if op = OpCode.create2 then pop >>= f else pure none >>= f) post s := by
  by_cases hop : op = OpCode.create2
  · rw [if_pos hop, keeps_bind, keeps_pop (hlength hop)]
    match hstack : s.stack, hlength hop with
    | salt :: rest, _ =>
      unfold State.pop
      rw [hstack]
      exact h (some salt) _ ⟨rfl, rfl, le_rfl⟩ (by rw [hstack, if_pos hop]; rfl) fun _ => rfl
  · rw [if_neg hop]
    exact h none s (.refl s) (by rw [if_neg hop]; rfl) fun h => absurd h hop

theorem keeps_payHash {price : Nat} {post : Bool → State → Prop} (hfail : post false (s.exit .outOfGas))
    (hok : ∀ gas ≤ s.gas, post true { s with gas := gas }) :
    Keeps env terms (if op = OpCode.create2 then consumeGas price else pure true) post s := by
  split
  · exact keeps_consumeGas hfail fun _ => hok _ (Nat.sub_le _ _)
  · exact keeps_pure.mpr (hok s.gas le_rfl)

def createdWord (env : Env) (op : OpCode) (address : Address) (result : Runtime.ExecutionResult) : Int :=
  if op = OpCode.create && env.config.homestead && result.err = some .codeStoreOutOfGas then 0
  else if result.failed && result.err ≠ some .codeStoreOutOfGas then 0
  else ofBytes address.toBytes

omit [SliceGrowth] in
theorem created_eq (env : Env) (op : OpCode) (address : Address) (result : Runtime.ExecutionResult) :
    created env op address result = (do
      push (createdWord env op address result)
      addGas result.gasLeft
      if result.reverted then setReturnData result.returnValue) := by
  unfold created createdWord
  by_cases hstore : (op = OpCode.create && env.config.homestead && result.err = some .codeStoreOutOfGas) = true
  · rw [if_pos hstore, if_pos hstore]
  rw [if_neg hstore, if_neg hstore]
  by_cases hfailed : (result.failed && result.err ≠ some .codeStoreOutOfGas) = true
  · rw [if_pos hfailed, if_pos hfailed]
  · rw [if_neg hfailed, if_neg hfailed]

theorem keeps_created {address : Address} {result : Runtime.ExecutionResult}
    (h : ∀ unused returnData, post ()
      { s with stack := createdWord env op address result :: s.stack, unused := unused,
               returnData := returnData, gas := (s.gas + result.gasLeft) % 2 ^ 64 }) :
    Keeps env terms (created env op address result) post s := by
  rw [created_eq, keeps_bind, keeps_push]
  refine .bind (keeps_addGas.mpr ?_)
  split
  · exact keeps_setReturnData.mpr (h _ _)
  · exact keeps_pure.mpr (h _ _)

variable [Keccak]

variable (hop : op = OpCode.create ∨ op = OpCode.create2)

include hop

theorem keeps_newAddress {salt : Option Int} {input : Bytes} {post : Address → State → Prop}
    (hsalt : op = OpCode.create2 → salt.isSome = true) (h : ∀ address, post address s) :
    Keeps env terms (newAddress env op salt input) post s := by
  unfold newAddress
  split
  · exact .bind (keeps_host (fun _ => rfl) fun _ => keeps_pure.mpr (h _))
  · rename_i hcreate
    obtain ⟨v, rfl⟩ := Option.isSome_iff_exists.mp (hsalt (hop.resolve_left hcreate))
    exact keeps_pure.mpr (h _)

theorem keeps_buildCreateContract {post : Built → State → Prop}
    (hlength : (if op = OpCode.create2 then 4 else 3) ≤ s.stack.length)
    (hstopped : ∀ s', Stopped s s' → post .stopped s')
    (hbad : ∀ s', Moves s s' → s'.stack = s.stack.drop (if op = OpCode.create2 then 4 else 3) → post (.bad none) s')
    (hready : ∀ contract s', Moves s s' → s'.stack = s.stack.drop (if op = OpCode.create2 then 4 else 3) →
      s'.gas + contract.gas ≤ s.gas → post (.ready contract 0 0) s') :
    Keeps env terms (buildCreateContract env op) post s := by
  match hstack : s.stack, (by split_ifs at hlength <;> omega : 3 ≤ s.stack.length) with
  | value :: offset :: length :: rest, _ =>
    rw [buildCreateContract, keeps_bind, keeps_popWord hstack, keeps_bind, keeps_popWord rfl,
      keeps_bind, keeps_popWord rfl]
    refine keeps_popSalt ?_ fun salt s₁ hmoves hrest hsalt => ?_
    · intro hcreate2
      rw [if_pos hcreate2, hstack] at hlength
      have hfour : 4 ≤ rest.length + 3 := hlength
      show 1 ≤ rest.length
      omega
    replace hrest : s₁.stack = s.stack.drop (if op = OpCode.create2 then 4 else 3) := by
      rw [hrest, hstack]
      split_ifs <;> rfl
    replace hmoves : Moves s s₁ := ⟨hmoves.bitmap, hmoves.ip, hmoves.gas⟩
    refine .bind (keeps_get2 ?_ fun input gas₁ cost₁ hgas₁ => ?_)
    · exact fun s' hstop => keeps_pure.mpr (hstopped s' (hmoves.stopped hstop))
    replace hgas₁ : gas₁ ≤ s.gas := hgas₁.trans hmoves.gas
    refine .bind (keeps_lacksValue fun lacks => ?_)
    cases lacks with
    | true => exact keeps_pure.mpr (hbad _ ⟨hmoves.bitmap, hmoves.ip, hgas₁⟩ hrest)
    | false =>
      refine .bind (keeps_payHash ?_ fun gas₂ hgas₂ => ?_)
      · exact keeps_pure.mpr (hstopped _ ⟨⟨hmoves.bitmap, hmoves.ip, hgas₁⟩, rfl, rfl⟩)
      replace hgas₂ : gas₂ ≤ s.gas := hgas₂.trans hgas₁
      refine .bind (keeps_gas.mpr ?_)
      generalize (if (env.config.eip150 || op = OpCode.create2) = true then gas₂ - gas₂ / 64
        else gas₂) = passed
      refine .bind (keeps_consumeGas ?_ fun hpassed => ?_)
      · exact keeps_pure.mpr (hstopped _ ⟨⟨hmoves.bitmap, hmoves.ip, hgas₂⟩, rfl, rfl⟩)
      refine .bind (keeps_newAddress hop hsalt fun address => keeps_pure.mpr ?_)
      refine hready _ _ ⟨hmoves.bitmap, hmoves.ip, (Nat.sub_le _ _).trans hgas₂⟩ hrest ?_
      have hsum : gas₂ - passed + passed ≤ s.gas := by
        have hle : passed ≤ gas₂ := hpassed
        omega
      exact hsum

theorem keeps_opCreate (hcalls : terms.calls) (hgas : terms.metered → s.gas < terms.gas)
    (hlength : (if op = OpCode.create2 then 4 else 3) ≤ s.stack.length)
    (h : ∀ s', s'.bitmap = s.bitmap → s'.ip = s.ip → (terms.metered → s'.gas ≤ s.gas) → post () s') :
    Keeps env terms (opCreate op env) post s := by
  unfold opCreate
  by_cases hstatic : env.msg.static = true
  · rw [if_pos hstatic]
    exact keeps_exit.mpr (h _ rfl rfl fun _ => le_rfl)
  rw [if_neg hstatic]
  split
  · exact keeps_exit.mpr (h _ rfl rfl fun _ => le_rfl)
  rw [keeps_bind, keeps_setReturnData]
  refine .bind (keeps_buildCreateContract hop hlength ?_ ?_ ?_)
  · exact fun s' hstop => keeps_pure.mpr (h s' hstop.bitmap hstop.ip fun _ => hstop.gas)
  · intro s' hmoves _
    exact .bind (keeps_push.mpr (keeps_pure.mpr (h _ hmoves.bitmap hmoves.ip fun _ => hmoves.gas)))
  · intro contract s' hmoves _ hsum
    have hsum : s'.gas + contract.gas ≤ s.gas := hsum
    refine .bind (keeps_callx ⟨hcalls, ?_, fun hs => absurd hs hstatic⟩ fun result hresult => ?_)
    · intro hm
      have := hgas hm
      show contract.gas < terms.gas
      omega
    · refine keeps_created fun unused returnData => h _ hmoves.bitmap hmoves.ip fun hm => ?_
      have hleft : result.gasLeft ≤ contract.gas := hresult hm
      exact (Nat.mod_le _ _).trans (by omega)

end Nxchain.Evm
