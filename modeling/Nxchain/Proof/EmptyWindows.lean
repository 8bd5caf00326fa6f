import Nxchain.Proof.CallGas

namespace Nxchain.Evm

open Prog Word
open Program (Follows)

inductive EmptyAccess where
  | callDataCopy (memOffset dataOffset : Int)
  | codeCopy (memOffset dataOffset : Int)
  | extCodeCopy (addr memOffset codeOffset : Int)
  | sha3 (offset : Int)
  | ret (offset : Int)
  | log (mStart : Int) (topics : List Int)

namespace EmptyAccess

def operands : EmptyAccess → List Int
  | callDataCopy memOffset dataOffset | codeCopy memOffset dataOffset => [memOffset, dataOffset, 0]
  | extCodeCopy addr memOffset codeOffset => [addr, memOffset, codeOffset, 0]
  | sha3 offset | ret offset => [offset, 0]
  | log mStart topics => mStart :: 0 :: topics

def inst [Keccak] : EmptyAccess → Instruction
  | callDataCopy .. => opCallDataCopy
  | codeCopy .. => opCodeCopy
  | extCodeCopy .. => opExtCodeCopy
  | sha3 _ => opSha3
  | ret _ => opHalt OpCode.ret
  | log _ topics => opLog (topics.length + 1)

def price (config : ForksInTime) : EmptyAccess → Nat
  | extCodeCopy .. => if config.eip150 then 700 else 20
  | log _ topics => topics.length * 375 % 2 ^ 64
  | _ => 0

def Permitted (env : Env) : EmptyAccess → Prop
  | log .. => env.msg.static = false
  | _ => True

def Placed : EmptyAccess → Prop
  | callDataCopy memOffset _ | codeCopy memOffset _ | extCodeCopy _ memOffset _ =>
    0 ≤ memOffset ∧ memOffset < 2 ^ 64
  | _ => True

end EmptyAccess

structure NoMemory (s : State) (price : Nat) (s' : State) : Prop where
  err : s'.err = s.err
  memory : s'.memory = s.memory
  lastGasCost : s'.lastGasCost = s.lastGasCost
  gas : s'.gas = s.gas - price

section Accesses

variable [SliceGrowth] {env : Env} {terms : Terms} {s : State} {rest : List Int}

theorem State.allocateMemory_wide (s : State) {offset : Int} (size : Int) (h : isUint64 offset = false) :
    s.allocateMemory offset size = (false, s.exit .gasUintOverflow) := by
  rw [allocateMemory, h]
  rfl

theorem keeps_copyToMemory_wide {memOffset dataOffset : Int} {charge : Prog Bool} {input : Prog Bytes}
    (hoffset : isUint64 memOffset = false) :
    Keeps env terms (copyToMemory memOffset dataOffset 0 charge input)
      (fun _ s' => s'.err = some .gasUintOverflow) s := by
  refine .bind (keeps_allocateMemory_exact fun ok s₁ h => ?_)
  cases h.symm.trans (s.allocateMemory_wide 0 hoffset)
  exact keeps_pure.mpr rfl

theorem keeps_copyToMemory_zero {memOffset dataOffset : Int} {charge : Prog Bool} {input : Prog Bytes}
    (price : Nat) (hoffset : isUint64 memOffset = true)
    (hcharge : ∀ (s₁ : State) (paid : Bool → State → Prop), s₁.gas = s.gas →
      paid true { s₁ with gas := s₁.gas - price } → Keeps env terms charge paid s₁)
    (hinput : ∀ s₁ (given : Bytes → State → Prop), (∀ data, given data s₁) → Keeps env terms input given s₁) :
    Keeps env terms (copyToMemory memOffset dataOffset 0 charge input)
      (fun _ s' => NoMemory s price s') s := by
  refine .bind (keeps_allocateMemory_exact fun ok s₁ h => ?_)
  cases h.symm.trans (State.allocateMemory_zero s hoffset)
  refine .bind ((keeps_consumeGas_of_le (Nat.zero_le _)).mpr ?_)
  refine .bind (hcharge _ _ rfl ?_)
  refine .bind (hinput _ _ fun data => ?_)
  exact keeps_pure.mpr ⟨rfl, rfl, rfl, rfl⟩

theorem keeps_copyData_zero {memOffset dataOffset : Int} (data : Bytes)
    (hstack : s.stack = memOffset :: dataOffset :: 0 :: rest) (hoffset : isUint64 memOffset = true) :
    Keeps env terms (do
      let memOffset ← popWord
      let dataOffset ← popWord
      let length ← popWord
      copyToMemory memOffset dataOffset length (pure true) (pure data)) (fun _ s' => NoMemory s 0 s') s := by
  refine .bind ((keeps_popWord hstack).mpr ?_)
  refine .bind ((keeps_popWord rfl).mpr (.bind ((keeps_popWord rfl).mpr ?_)))
  refine (keeps_copyToMemory_zero 0 hoffset ?_ ?_).mono fun _ s' h => ?_
  · exact fun s₁ paid _ h => keeps_pure.mpr h
  · exact fun s₁ given h => keeps_pure.mpr (h data)
  · exact ⟨h.err, h.memory, h.lastGasCost, h.gas⟩

theorem keeps_getTmp_zero {offset : Int} {post : Bool → State → Prop} :
    Keeps env terms (getTmp offset 0) post s ↔ post true { s with tmp := [] } := by
  exact keeps_bind.trans keeps_setTmp

theorem keeps_opLog_empty {mStart : Int} {topics : List Int} (hstatic : env.msg.static = false)
    (hstack : s.stack = mStart :: 0 :: topics ++ rest) (hgas : topics.length * 375 % 2 ^ 64 ≤ s.gas) :
    Keeps env terms (opLog (topics.length + 1) env)
      (fun _ s' => NoMemory s (topics.length * 375 % 2 ^ 64) s') s := by
  have hlength : 2 + topics.length ≤ s.stack.length := by
    rw [hstack, List.length_append, List.length_cons, List.length_cons]
    omega
  unfold opLog
  rw [if_neg (by simp [hstatic]), keeps_bind, keeps_stackAtLeast, Nat.add_sub_cancel,
    if_pos (decide_eq_true hlength), keeps_bind, keeps_popWord hstack, keeps_bind, keeps_popWord rfl]
  refine .bind (keeps_popTopics ?_ fun hashes stack unused => ?_)
  · change topics.length ≤ (topics ++ rest).length
    rw [List.length_append]
    exact Nat.le_add_right _ _
  refine .bind (keeps_getTmp_zero.mpr ?_)
  refine .bind (keeps_tmp.mpr (.bind (keeps_host ?_ fun _ => ?_)))
  · intro hs
    cases hs.symm.trans hstatic
  refine .bind ((keeps_consumeGas_of_le ?_).mpr ?_)
  · exact hgas
  refine .bind ((keeps_consumeGas_of_le (Nat.zero_le _)).mpr (keeps_pure.mpr ?_))
  exact ⟨rfl, rfl, rfl, rfl⟩

variable [Keccak]

theorem keeps_emptyAccess (access : EmptyAccess) (hstack : s.stack = access.operands ++ rest)
    (hgas : access.price env.config ≤ s.gas) (hpermitted : access.Permitted env) (hplaced : access.Placed) :
    Keeps env terms (access.inst env) (fun _ s' => NoMemory s (access.price env.config) s') s := by
  cases access with
  | callDataCopy memOffset dataOffset =>
    exact keeps_copyData_zero env.msg.input hstack (isUint64_iff.mpr hplaced)
  | codeCopy memOffset dataOffset =>
    exact keeps_copyData_zero env.msg.code hstack (isUint64_iff.mpr hplaced)
  | extCodeCopy addr memOffset codeOffset =>
    refine .bind ((keeps_popAddr hstack).mpr (.bind ((keeps_popWord rfl).mpr ?_)))
    refine .bind ((keeps_popWord rfl).mpr (.bind ((keeps_popWord rfl).mpr ?_)))
    refine (keeps_copyToMemory_zero (if env.config.eip150 then 700 else 20)
      (isUint64_iff.mpr hplaced) ?_ ?_).mono fun _ s' h => ?_
    · intro s₁ paid hs₁ h
      refine (keeps_consumeGas_of_le ?_).mpr h
      rw [hs₁]
      exact hgas
    · exact fun s₁ given h => keeps_host (fun _ => rfl) h
    · exact ⟨h.err, h.memory, h.lastGasCost, h.gas⟩
  | sha3 offset =>
    refine .bind ((keeps_popWord hstack).mpr (.bind ((keeps_popWord rfl).mpr ?_)))
    refine .bind (keeps_getTmp_zero.mpr ?_)
    refine .bind ((keeps_consumeGas_of_le (Nat.zero_le _)).mpr ?_)
    refine .bind (keeps_tmp.mpr (.bind (keeps_setTmp.mpr ?_)))
    exact .bind (keeps_tmp.mpr (keeps_push.mpr ⟨rfl, rfl, rfl, rfl⟩))
  | ret offset =>
    refine .bind ((keeps_popWord hstack).mpr (.bind ((keeps_popWord rfl).mpr ?_)))
    refine .bind (keeps_pure.mpr (.bind (keeps_setRet.mpr (keeps_halt.mpr ?_))))
    exact ⟨rfl, rfl, rfl, rfl⟩
  | log mStart topics => exact keeps_opLog_empty hpermitted hstack hgas

theorem keeps_unplaced (access : EmptyAccess) (hstack : s.stack = access.operands ++ rest)
    (hplaced : ¬ access.Placed) :
    Keeps env terms (access.inst env) (fun _ s' => s'.err = some .gasUintOverflow) s := by
  cases access with
  | callDataCopy memOffset dataOffset | codeCopy memOffset dataOffset =>
    have hoffset := Bool.eq_false_iff.mpr (isUint64_iff.not.mpr hplaced)
    refine .bind ((keeps_popWord hstack).mpr ?_)
    refine .bind ((keeps_popWord rfl).mpr (.bind ((keeps_popWord rfl).mpr ?_)))
    exact keeps_copyToMemory_wide hoffset
  | extCodeCopy addr memOffset codeOffset =>
    have hoffset := Bool.eq_false_iff.mpr (isUint64_iff.not.mpr hplaced)
    refine .bind ((keeps_popAddr hstack).mpr (.bind ((keeps_popWord rfl).mpr ?_)))
    refine .bind ((keeps_popWord rfl).mpr (.bind ((keeps_popWord rfl).mpr ?_)))
    exact keeps_copyToMemory_wide hoffset
  | sha3 | ret | log => exact absurd trivial hplaced

def EmptyAccess.TakesNone (answer : (request : Request) → Path → request.Answer) (env : Env)
    (access : EmptyAccess) (s : State) : Prop :=
  ∃ s' path, runInstruction answer (access.inst env) s = .ok ((), s', path) ∧
    NoMemory s (access.price env.config) s'

end Accesses

section Calls

variable [SliceGrowth] {args : CallOperands}

def CallOperands.needed (args : CallOperands) (s : State) : Bool × State :=
  let (ok, s) := if args.inSize = 0 then (true, s) else s.allocateMemory args.inOffset args.inSize
  if ok then
    if args.retSize = 0 then (true, s) else s.allocateMemory args.retOffset args.retSize
  else (false, s)

def CallOperands.Unplaced (args : CallOperands) (s₀ : State) : Prop :=
  args.retSize = 0 ∧ isUint64 args.retOffset = false ∧ (args.input s₀).1 = true

theorem CallOperands.allocate_eq_needed (args : CallOperands) {s₀ : State}
    (hplaced : ¬ args.Unplaced s₀) : args.allocate s₀ = args.needed s₀ := by
  unfold allocate needed
  unfold Unplaced input at hplaced
  cases hin : if args.inSize = 0 then (true, s₀) else s₀.allocateMemory args.inOffset args.inSize with
  | mk ok s₁ =>
    cases ok with
    | false => rfl
    | true =>
      rw [hin] at hplaced
      by_cases hzero : args.retSize = 0
      · have huint : isUint64 args.retOffset = true := by
          by_contra hwide
          exact hplaced ⟨hzero, Bool.eq_false_iff.mpr hwide, rfl⟩
        simp only [hzero, if_true]
        exact State.allocateMemory_zero s₁ huint
      · simp only [if_neg hzero]

theorem CallOperands.Unplaced.allocate_eq {s₀ : State} (h : args.Unplaced s₀) :
    args.allocate s₀ = (false, (args.input s₀).2.exit .gasUintOverflow) := by
  obtain ⟨_, hoffset, hinput⟩ := h
  rw [args.allocate_of_true (Prod.ext hinput rfl), State.allocateMemory_wide _ _ hoffset]

theorem CallOperands.Unplaced.needed_eq {s₀ : State} (h : args.Unplaced s₀) :
    args.needed s₀ = (true, (args.input s₀).2) := by
  obtain ⟨hsize, _, hinput⟩ := h
  have hneeded : args.needed s₀ = if (args.input s₀).1 then
      if args.retSize = 0 then (true, (args.input s₀).2)
      else (args.input s₀).2.allocateMemory args.retOffset args.retSize
    else (false, (args.input s₀).2) := rfl
  rw [hneeded, if_pos hinput, if_pos hsize]

inductive NeededOnly (env : Env) (args : CallOperands) (s₀ : State) (path : Path) (s' : State) : Prop
  | unallocated : args.needed s₀ = (false, s') → NeededOnly env args s₀ path s'
  | unpaid {s₁ : State} (isNew : Bool) : args.needed s₀ = (true, s₁) →
      (∀ passed, passedGas env args.initialGas s₁.gas (args.cost env isNew) = some passed →
        s₁.gas < (args.cost env isNew + passed) % 2 ^ 64) →
      s' = s₁.exit .outOfGas → NeededOnly env args s₀ path s'
  | bad {s₁ : State} {isNew : Bool} {passed : Nat} : args.needed s₀ = (true, s₁) →
      passedGas env args.initialGas s₁.gas (args.cost env isNew) = some passed →
      (args.cost env isNew + passed) % 2 ^ 64 ≤ s₁.gas → args.value.getD 0 ≠ 0 →
      s' = { s₁.push 0 with
        gas := (s₁.gas - (args.cost env isNew + passed) % 2 ^ 64 + args.given passed) % 2 ^ 64 } →
      NeededOnly env args s₀ path s'
  | called {s₁ : State} {isNew : Bool} {passed : Nat} {c : Contract}
      {answer : Runtime.ExecutionResult} {memory : Slice} : args.needed s₀ = (true, s₁) →
      passedGas env args.initialGas s₁.gas (args.cost env isNew) = some passed →
      (args.cost env isNew + passed) % 2 ^ 64 ≤ s₁.gas →
      c.gas = args.given passed → ⟨.callx c, answer⟩ ∈ path →
      memory.bytes.length = s₁.memory.bytes.length →
      s' = State.settle { s₁ with gas := s₁.gas - (args.cost env isNew + passed) % 2 ^ 64 } answer
        memory →
      NeededOnly env args s₀ path s'

def CallTakesNeeded (env : Env) (op : OpCode) (args : CallOperands) (rest : List Int) (s : State)
    (path : Path) (result : Except Fault (Unit × State)) : Prop :=
  ∃ s', result = .ok ((), s') ∧
    ((∃ err, Refused env op args err ∧ s' = State.exit { s with returnData := [] } err) ∨
      NeededOnly env args (args.taken rest { s with returnData := [] }) path s')

variable {env : Env} {op : OpCode} {rest : List Int} {s : State} {type : CallType} {path : Path}
  {result : Except Fault (Unit × State)}

theorem CallOperands.Unplaced.not_neededOnly {s₀ : State} (h : args.Unplaced s₀)
    (hcalls : Behind path []) :
    ¬ NeededOnly env args s₀ path ((args.input s₀).2.exit .gasUintOverflow) := by
  intro hneeded
  cases hneeded with
  | unallocated hneeded => cases h.needed_eq.symm.trans hneeded
  | unpaid _ hneeded _ hexit =>
    cases h.needed_eq.symm.trans hneeded
    cases congrArg State.err hexit
  | bad hneeded _ _ _ hpushed =>
    cases h.needed_eq.symm.trans hneeded
    exact List.cons_ne_self _ _ (congrArg State.stack hpushed).symm
  | called _ _ _ _ hmem => cases hcalls.mem_iff.mp hmem

theorem callTakesNeeded_iff (htype : callType op = some type)
    (hvalue : args.value.isSome = takesValue op) (hstack : s.stack = args.push rest)
    (h : Follows Action.exec (opCall op env) s path result) :
    CallTakesNeeded env op args rest s path result ↔
      ((∀ err, ¬ Refused env op args err) →
        ¬ args.Unplaced (args.taken rest { s with returnData := [] })) ∧
      ¬ Overreaches args s path := by
  obtain ⟨left, hcalls, ⟨err, hrefused, rfl, rfl⟩ | ⟨hallowed, built, s₁, hbuilt, hend⟩⟩ :=
    opCall_ends htype hvalue hstack h
  · exact iff_of_true ⟨_, rfl, .inl ⟨err, hrefused, rfl⟩⟩
      ⟨fun hallowed => absurd hrefused (hallowed err), not_overreaches_of_behind hcalls⟩
  by_cases hplaced : args.Unplaced (args.taken rest { s with returnData := [] })
  · -- the allocation fails at the offset of an empty window, which the call does not need
    refine iff_of_false ?_ fun hcond => hcond.1 hallowed hplaced
    rintro ⟨s', rfl, ⟨err, hrefused, _⟩ | hneeded⟩
    · exact hallowed err hrefused
    · cases hbuilt with
      | unallocated halloc =>
        cases hplaced.allocate_eq.symm.trans halloc
        cases hend
        exact hplaced.not_neededOnly hcalls hneeded
      | unpaid _ halloc => cases hplaced.allocate_eq.symm.trans halloc
      | bad halloc => cases hplaced.allocate_eq.symm.trans halloc
      | ready halloc => cases hplaced.allocate_eq.symm.trans halloc
  · have hneeded := args.allocate_eq_needed hplaced
    cases hbuilt with
    | unallocated halloc =>
      cases hend
      exact iff_of_true ⟨_, rfl, .inr (.unallocated (hneeded.symm.trans halloc))⟩
        ⟨fun _ => hplaced, not_overreaches_of_behind hcalls⟩
    | unpaid isNew halloc hunpaid =>
      cases hend
      exact iff_of_true ⟨_, rfl, .inr (.unpaid isNew (hneeded.symm.trans halloc) hunpaid rfl)⟩
        ⟨fun _ => hplaced, not_overreaches_of_behind hcalls⟩
    | bad halloc hpassed hpaid htransfer =>
      cases hend
      rw [gas_callContract]
      exact iff_of_true
        ⟨_, rfl, .inr (.bad (hneeded.symm.trans halloc) hpassed hpaid htransfer rfl)⟩
        ⟨fun _ => hplaced, not_overreaches_of_behind hcalls⟩
    | ready halloc hpassed hpaid =>
      have halloc' := hneeded.symm.trans halloc
      obtain ⟨gas, cost, rfl, hwindow, _⟩ := CallOperands.allocate_true halloc
      cases hend with
      | called hcopied =>
        have hcalled := hcalls.mem_iff.mpr (List.mem_singleton.mpr rfl)
        refine iff_of_true ⟨_, rfl, .inr ?_⟩ ⟨fun _ => hplaced, ?_⟩
        · refine .called halloc' hpassed hpaid ?_ hcalled (copiedResult_length hcopied) rfl
          exact gas_callContract ..
        · rw [overreaches_iff hcalls, ← copiedResult_error_iff hwindow]
          rintro ⟨p, herror⟩
          cases hcopied.symm.trans herror
      | overreached hpanic =>
        refine iff_of_false ?_ fun hcond => hcond.2 ?_
        · rintro ⟨_, hok, _⟩
          cases hok
        · rw [overreaches_iff hcalls, ← copiedResult_error_iff hwindow]
          exact ⟨_, hpanic⟩

variable [Keccak]

theorem empty_windows_take_no_memory_iff (env : Env) :
    (∀ (answer : (request : Request) → Path → request.Answer) (access : EmptyAccess)
      (rest : List Int) (s : State), s.stack = access.operands ++ rest →
      access.price env.config ≤ s.gas → access.Permitted env →
      (access.Placed → access.TakesNone answer env s) ∧
        (s.err = none → access.TakesNone answer env s → access.Placed)) ∧
    (∀ (op : OpCode) (type : CallType) (args : CallOperands) (rest : List Int) (s : State)
      (path : Path) (result : Except Fault (Unit × State)), callType op = some type →
      args.value.isSome = takesValue op → s.stack = args.push rest →
      Follows Action.exec (opCall op env) s path result →
      (CallTakesNeeded env op args rest s path result ↔
        ((∀ err, ¬ Refused env op args err) →
          ¬ args.Unplaced (args.taken rest { s with returnData := [] })) ∧
        ¬ Overreaches args s path)) := by
  refine ⟨fun answer access rest s hstack hgas hpermitted => ⟨fun hplaced => ?_, ?_⟩, ?_⟩
  · have hkeeps : Keeps env (safeTerms s) (access.inst env)
        (fun _ s' => NoMemory s (access.price env.config) s') s :=
      keeps_emptyAccess access hstack hgas hpermitted hplaced
    exact runInstruction_of_keeps answer hkeeps
  · rintro herr ⟨s', path, hrun, hnone⟩
    by_contra hplaced
    have hunplaced : Keeps env (safeTerms s) (access.inst env) _ s :=
      keeps_unplaced access hstack hplaced
    have hwide := post_of_runInstruction id hunplaced hrun
    cases (hwide.symm.trans hnone.err).trans herr
  · exact fun op type args rest s path result htype hvalue hstack h =>
      callTakesNeeded_iff htype hvalue hstack h

end Calls

section Sample

local instance windowKeccak : Keccak := sampleKeccak

local instance windowGrowth : SliceGrowth := ⟨fun _ _ => 0⟩

theorem empty_windows_take_no_memory_iff_sha3 : ∃ s' path,
    runInstruction oneByteAnswer (opSha3 copyEnv) (copyingState [2 ^ 256 - 1, 0]) = .ok ((), s', path) ∧
      s'.memory = (copyingState []).memory ∧ s'.gas = 1000 := by
  obtain ⟨s', path, hrun, hnone⟩ := ((empty_windows_take_no_memory_iff copyEnv).1 oneByteAnswer
    (.sha3 (2 ^ 256 - 1)) [] (copyingState [2 ^ 256 - 1, 0]) rfl (by decide) trivial).1 trivial
  exact ⟨s', path, hrun, hnone.memory, hnone.gas⟩

theorem empty_window_offset_is_checked :
    ((runInstruction oneByteAnswer (opCallDataCopy copyEnv) (copyingState [2 ^ 64, 0, 0])).map
        fun r => (r.2.1.stop, r.2.1.err)) = .ok (true, some .gasUintOverflow) ∧
      ((runInstruction oneByteAnswer (opCall OpCode.staticCall copyEnv)
          (copyingState [0, 5, 0, 0, 2 ^ 64, 0])).map fun r => (r.2.1.stop, r.2.1.err)) =
        .ok (true, some .gasUintOverflow) := by
  decide +kernel

end Sample

end Nxchain.Evm
