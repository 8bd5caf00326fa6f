import Nxchain.Proof.ReturnData

namespace Nxchain.Evm

open Prog Word
open Program (Performs)

def required (op : OpCode) : Nat :=
  let code := op.toNat
  -- DUP, SWAP and LOG
  if 0x80 ≤ code ∧ code ≤ 0x8f then code - 0x80 + 1
  else if 0x90 ≤ code ∧ code ≤ 0x9f then code - 0x90 + 2
  else if 0xa0 ≤ code ∧ code ≤ 0xa4 then code - 0xa0 + 2
  -- the calls
  else if code = 0xf1 ∨ code = 0xf2 then 7
  else if code = 0xf4 ∨ code = 0xfa then 6
  -- EXTCODECOPY and CREATE2
  else if code = 0x3c ∨ code = 0xf5 then 4
  -- ADDMOD, MULMOD, the other copies and CREATE
  else if code ∈ [0x08, 0x09, 0x37, 0x39, 0x3e, 0xf0] then 3
  -- the binary operations, SHA3, MSTORE, MSTORE8, SSTORE, JUMPI, RETURN and REVERT
  else if 0x01 ≤ code ∧ code ≤ 0x07 ∨ code = 0x0a ∨ code = 0x0b ∨ 0x10 ≤ code ∧ code ≤ 0x14 ∨
      0x16 ≤ code ∧ code ≤ 0x18 ∨ 0x1a ≤ code ∧ code ≤ 0x1d ∨
      code ∈ [0x20, 0x52, 0x53, 0x55, 0x57, 0xf3, 0xfd] then 2
  -- ISZERO, NOT, BALANCE, CALLDATALOAD, EXTCODESIZE, EXTCODEHASH, BLOCKHASH, POP, MLOAD, SLOAD, JUMP
  -- and SELFDESTRUCT
  else if code ∈ [0x15, 0x19, 0x31, 0x35, 0x3b, 0x3f, 0x40, 0x50, 0x51, 0x54, 0x56, 0xff] then 1
  else 0

section Depth

variable [SliceGrowth] [Keccak] {env : Env} {terms : Terms} {s : State} {op : OpCode}

def Detects (op : OpCode) (handler : Handler) : Prop :=
  ∀ (env : Env) (terms : Terms) (s : State), s.stack.length < required op → missing op s = false →
    Keeps env terms (dispatch env handler) (fun _ s' => Failed s') s

omit [Keccak] in
theorem detects_of_le {inst : Instruction} {n gas : Nat} (h : required op ≤ n) : Detects op ⟨inst, n, gas⟩ := by
  intro env terms s hshort _
  refine .bind (keeps_stackAtLeast.mpr ?_)
  rw [if_neg (by simpa using hshort.trans_le h)]
  exact keeps_exit.mpr ⟨rfl, rfl⟩

omit [Keccak] in
theorem detects_of_inst {inst : Instruction} {gas : Nat}
    (h : ∀ (env : Env) (terms : Terms) (s : State), s.stack.length < required op →
      Keeps env terms (inst env) (fun _ s' => Failed s') s) : Detects op ⟨inst, 0, gas⟩ := by
  intro env terms s hshort _
  refine .bind (keeps_stackAtLeast.mpr ?_)
  rw [if_pos (decide_eq_true (Nat.zero_le _))]
  refine keeps_paying ⟨rfl, rfl⟩ fun _ => keeps_bind.mpr ?_
  refine (h env terms { s with gas := s.gas - gas } hshort).mono fun _ s' hfailed => ?_
  refine .bind (keeps_stackSize.mpr ?_)
  split
  · exact keeps_exit.mpr ⟨rfl, rfl⟩
  · exact .bind (keeps_ip.mpr (keeps_setIp.mpr hfailed))

omit [Keccak] in
theorem detects_opDup {gas n : Nat} (h : required op = n) : Detects op ⟨opDup n, 0, gas⟩ := by
  refine detects_of_inst fun env terms s hshort => .bind (keeps_stackAtLeast.mpr ?_)
  rw [if_neg (by simpa [h] using hshort)]
  exact keeps_exit.mpr ⟨rfl, rfl⟩

omit [Keccak] in
theorem detects_opSwap {gas n : Nat} (h : required op = n + 1) : Detects op ⟨opSwap n, 0, gas⟩ := by
  refine detects_of_inst fun env terms s hshort => .bind (keeps_stackAtLeast.mpr ?_)
  rw [if_neg (by simpa [h] using hshort)]
  exact keeps_exit.mpr ⟨rfl, rfl⟩

omit [Keccak] in
theorem detects_opLog {gas n : Nat} (h : required op = n + 2) : Detects op ⟨opLog (n + 1), 0, gas⟩ := by
  refine detects_of_inst fun env terms s hshort => ?_
  unfold opLog
  split
  · exact keeps_exit.mpr ⟨rfl, rfl⟩
  · refine .bind (keeps_stackAtLeast.mpr ?_)
    rw [if_neg (by simp; omega)]
    exact keeps_exit.mpr ⟨rfl, rfl⟩

omit [Keccak] in
theorem detects_opSignExtension : Detects 0x0b ⟨opSignExtension, 1, 5⟩ := by
  intro env terms s hshort hmissing
  have htwo : s.stack.length < 2 := hshort
  have hpaid : s.stack.length = 1 → s.gas < 5 := by simpa [missing] using hmissing
  refine .bind (keeps_stackAtLeast.mpr ?_)
  by_cases hone : s.stack.length = 1
  · rw [if_pos (by simp [hone])]
    exact .bind ((keeps_consumeGas_of_lt (hpaid hone)).mpr (keeps_pure.mpr ⟨rfl, rfl⟩))
  · have hnone : s.stack.length = 0 := by omega
    rw [if_neg (by simp [hnone])]
    exact keeps_exit.mpr ⟨rfl, rfl⟩

omit [Keccak] in
theorem detects_registerRange {start : OpCode} {count gas : Nat} {factory : Nat → Instruction}
    (h : ∀ i < count, Detects (start + UInt8.ofNat i) ⟨factory (i + 1), 0, gas⟩) :
    ∀ entry ∈ registerRange start count factory gas, Detects entry.1 entry.2 := by
  intro entry hentry
  obtain ⟨i, hi, rfl⟩ := List.mem_map.mp hentry
  exact h i (List.mem_range.mp hi)

theorem registered_detects : ∀ entry ∈ registered, Detects entry.1 entry.2 := by
  have hpush : ∀ i < 32, required (0x60 + UInt8.ofNat i) = 0 := by decide
  have hdup : ∀ i < 16, required (0x80 + UInt8.ofNat i) = i + 1 := by decide
  have hswap : ∀ i < 16, required (0x90 + UInt8.ofNat i) = i + 1 + 1 := by decide
  have hlog : ∀ i < 5, required (0xa0 + UInt8.ofNat i) = i + 2 := by decide
  unfold registered
  simp only [List.forall_mem_append, List.forall_mem_cons, List.not_mem_nil, false_imp_iff, implies_true, and_true]
  refine ⟨⟨⟨⟨⟨?_, ?_⟩, ?_⟩, ?_⟩, ?_⟩, ?_⟩
  · and_intros
    all_goals exact detects_of_le (by decide)
  · exact detects_registerRange fun i hi => detects_of_le (hpush i hi).le
  · exact detects_registerRange fun i hi => detects_opDup (hdup i hi)
  · exact detects_registerRange fun i hi => detects_opSwap (hswap i hi)
  · exact detects_registerRange fun i hi => detects_opLog (hlog i hi)
  · and_intros
    all_goals first
      | exact detects_opSignExtension
      | exact detects_of_le (by decide)

theorem dispatchTable_detects {handler : Handler} (h : dispatchTable op = some handler) :
    Detects op handler := registered_detects (op, handler) (mem_registered h)

def UnderflowDetected (env : Env) (s : State) (op : OpCode) : Prop :=
  (s.stack.length < required op → ∀ answer : (request : Request) → Path → request.Answer,
    ∃ s' path, runInstruction answer (step env) s = .ok ((), s', path) ∧ Failed s') ∧
  ∀ path action s₁, Performs Action.exec (step env) s path action s₁ → action.Supplied s₁

theorem underflowDetected_of_not_missing (hready : Ready env s) {handler : Handler}
    (hat : opAt env s = some op) (hentry : dispatchTable op = some handler)
    (hmissing : missing op s = false) : UnderflowDetected env s op := by
  constructor
  · intro hshort answer
    have hkeeps : Keeps env (safeTerms s) (step env) (fun _ s' => Failed s') s := by
      rw [keeps_step_iff hready.ip, hat]
      dsimp only
      rw [hentry]
      exact dispatchTable_detects hentry env (safeTerms s) s hshort hmissing
    exact runInstruction_of_keeps answer hkeeps
  · intro path action s₁ hperforms
    have hpath : ∀ call ∈ path, (promise env (stepTerms env False s)).returns call.1 call.2 :=
      fun call _ => returns_unmetered call.1 call.2 s
    obtain ⟨_, hpresent⟩ := hperforms.oblige (keeps_step hready False.elim) hpath
    refine hpresent.resolve_right fun (h : (opAt env s).any (missing · s) = true) => ?_
    rw [hat, Option.any_some, hmissing] at h
    cases h

omit [SliceGrowth] [Keccak] in
theorem currentOpCode_of_opAt (hip : 0 ≤ s.ip) (hat : opAt env s = some op) :
    currentOpCode env s.ip = .ok (some op) := by
  rw [opAt, if_pos hip] at hat
  have hlt := (List.getElem?_eq_some_iff.mp hat).1
  rw [currentOpCode, if_neg (by omega), if_neg (by omega), hat]

theorem performs_top_of_missing (hip : 0 ≤ s.ip) (hat : opAt env s = some 0x0b)
    (hone : s.stack.length = 1) (hgas : 5 ≤ s.gas) :
    ∃ s₁, Performs Action.exec (step env) s [] .top s₁ ∧ s₁.stack = [] := by
  obtain ⟨ext, hstack⟩ := List.length_eq_one_iff.mp hone
  have hpop : Action.exec .pop { s with gas := s.gas - 5 } =
      .ok (some ext, { s with gas := s.gas - 5, stack := [], unused := ext :: s.unused }) := by
    simp only [Action.exec, State.pop, hstack]
  have hpaid : Action.exec (.consumeGas 5) s = .ok (true, { s with gas := s.gas - 5 }) :=
    congrArg Except.ok (State.consumeGas_of_le s hgas)
  have hextends : Performs Action.exec (dispatch env ⟨opSignExtension, 1, 5⟩) s [] .top
      { s with gas := s.gas - 5, stack := [], unused := ext :: s.unused } := by
    refine .act rfl ?_
    change Performs Action.exec (if decide (1 ≤ s.stack.length) = true then _ else _) _ _ _ _
    rw [if_pos (by simp [hone])]
    exact .act hpaid (.act hpop (.here _))
  refine ⟨{ s with gas := s.gas - 5, stack := [], unused := ext :: s.unused }, .act rfl ?_, rfl⟩
  change Performs Action.exec (ofExcept (currentOpCode env s.ip) >>= _) _ _ _ _
  rw [currentOpCode_of_opAt hip hat]
  exact hextends

theorem stack_underflow_is_detected_iff (hready : Ready env s) {handler : Handler}
    (hat : opAt env s = some op) (hentry : dispatchTable op = some handler) :
    UnderflowDetected env s op ↔ op ≠ 0x0b ∨ s.stack.length ≠ 1 ∨ s.gas < 5 := by
  constructor
  · intro hdetected
    by_contra hmissing
    obtain ⟨rfl, hone, hgas⟩ : op = 0x0b ∧ s.stack.length = 1 ∧ 5 ≤ s.gas := by
      simpa only [not_or, not_not, not_lt, ne_eq] using hmissing
    obtain ⟨s₁, hperforms, hempty⟩ := performs_top_of_missing hready.ip hat hone hgas
    have hsupplied : 1 ≤ s₁.stack.length := hdetected.2 [] .top s₁ hperforms
    rw [hempty] at hsupplied
    exact absurd hsupplied (by decide)
  · intro hsupplied
    refine underflowDetected_of_not_missing hready hat hentry ?_
    simp only [missing, Bool.and_eq_false_iff, decide_eq_false_iff_not, not_le, or_assoc]
    exact hsupplied

end Depth

section Sample

local instance depthKeccak : Keccak := sampleKeccak

local instance depthGrowth : SliceGrowth := ⟨fun _ _ => 0⟩

def shallowEnv (op : OpCode) : Env := ⟨codeContract [op], sampleEnv.config⟩

def shallowState (op : OpCode) : State := { State.new.start (codeContract [op]) with stack := [5] }

theorem stack_underflow_is_detected_iff_add : ∃ s' path,
    runInstruction oneByteAnswer (step (shallowEnv 0x01)) (shallowState 0x01) = .ok ((), s', path) ∧
      Failed s' := by
  have hready : Ready (shallowEnv 0x01) (shallowState 0x01) := ⟨by decide, by decide⟩
  have hdetected := (stack_underflow_is_detected_iff hready rfl rfl).mpr (.inl (by decide))
  exact hdetected.1 (by decide) oneByteAnswer

theorem short_extension_goes_on :
    (shallowState 0x0b).stack.length < required 0x0b ∧
      (runInstruction oneByteAnswer (step (shallowEnv 0x0b)) (shallowState 0x0b)).map
        (fun r => (r.2.1.stop, r.2.1.err, r.2.1.stack)) = .ok (false, none, []) := by
  decide +kernel

end Sample

end Nxchain.Evm
