import Nxchain.Proof.CallCourse

namespace Nxchain.Evm

open Prog Word
open Program (Follows follows_run)

structure Copied (before : Bytes) (offset : Int) (data : Bytes) (start count : Int) (after : Bytes) :
    Prop where
  source : 0 ≤ start ∧ 0 ≤ count ∧ start + count ≤ data.length
  target : 0 ≤ offset ∧ (0 < count → offset + count ≤ after.length)
  copied : ∀ i : Nat, i < count → after[offset.toNat + i]? = data[start.toNat + i]?
  kept : ∀ i : Nat, i < offset ∨ offset + count ≤ i → after[i]? = before[i]?

theorem copied_nothing (bytes data : Bytes) {offset : Int} (hoffset : 0 ≤ offset) :
    Copied bytes offset data 0 0 bytes := by
  refine ⟨⟨le_rfl, le_rfl, by omega⟩, ⟨hoffset, fun h => absurd h (lt_irrefl _)⟩, ?_, fun _ _ => rfl⟩
  intro i hi
  omega

theorem copied_overwrite {before data : Bytes} {offset start count : Nat}
    (hsource : start + count ≤ data.length) (htarget : offset + count ≤ before.length) :
    Copied before offset data start count
      (Slice.overwrite before offset ((data.take (start + count)).drop start)) := by
  have hlength : ((data.take (start + count)).drop start).length = count := by
    rw [List.length_drop, List.length_take_of_le hsource]
    omega
  have hfits : offset + ((data.take (start + count)).drop start).length ≤ before.length := by
    rw [hlength]
    exact htarget
  refine ⟨⟨by omega, by omega, by exact_mod_cast hsource⟩, ⟨by omega, fun _ => ?_⟩, ?_, ?_⟩
  · rw [Slice.length_overwrite hfits]
    exact_mod_cast htarget
  · intro i hi
    have hlt : i < count := by exact_mod_cast hi
    rw [Int.toNat_natCast, Int.toNat_natCast, Slice.getElem?_overwrite hfits, hlength,
      if_pos ⟨by omega, by omega⟩, Nat.add_sub_cancel_left, List.getElem?_drop,
      List.getElem?_take_of_lt (by omega)]
  · intro i hi
    rw [Slice.getElem?_overwrite hfits, hlength, if_neg (by omega)]

theorem Slice.copyTail_nil {b : Slice} {lo : Nat} (h : lo ≤ b.bytes.length) :
    b.copyTail lo [] = .ok b := by
  rw [copyTail, if_pos h, List.take_nil, overwrite_nil]

section Copies

variable [SliceGrowth] {env : Env} {s : State}

theorem State.allocateMemory_zero (s : State) {offset : Int} (h : isUint64 offset = true) :
    s.allocateMemory offset 0 = (true, s) := by
  have huint : ¬(!isUint64 offset || !isUint64 0) = true := by
    rw [h]
    decide
  rw [allocateMemory, if_neg huint, if_pos rfl]

section ReturnDataCopy

variable {memOffset dataOffset length : Int} {rest : List Int}

theorem keeps_copied (hstack : s.stack = memOffset :: dataOffset :: length :: rest)
    (hplace : length = 0 → dataOffset ≤ s.returnData.length → memOffset ≤ s.memory.bytes.length) :
    Keeps env (safeTerms s) (opReturnDataCopy env)
      (fun _ s' => s'.stop = true ∧ s'.err.isSome = true ∨
        Copied (s.memory.expand memOffset length).bytes memOffset s.returnData dataOffset length
          s'.memory.bytes) s := by
  refine keeps_opReturnDataCopy hstack ?_ ?_ ?_
  · exact fun hzero hdata hfar => absurd (hplace hzero hdata) (not_le.mpr hfar)
  · exact fun s' hstopped => .inl ⟨hstopped.stop, hstopped.err⟩
  · intro memory gas cost _ hwindow hdata hend hle hmemory
    refine .inr ?_
    have hmem := coe_uint64 hwindow.isUint64_offset
    have hlen := coe_uint64 hwindow.isUint64_size
    have hstart := coe_uint64 hdata
    have hsum : uint64 (dataOffset + length) = uint64 dataOffset + uint64 length := by
      have hcoe := coe_uint64 hend
      omega
    have hroom :
        uint64 memOffset + uint64 length ≤ (s.memory.expand memOffset length).bytes.length := by
      by_cases hzero : length = 0
      · have hplace := hplace hzero (by omega)
        rw [hzero, Slice.expand_zero]
        rw [hzero] at hlen
        omega
      · exact s.memory.le_length_expand memOffset hzero
    have hsource : uint64 dataOffset + uint64 length ≤ s.returnData.length := by omega
    have hcopied := copied_overwrite hsource hroom
    rw [hmem, hlen, hstart] at hcopied
    rw [Slice.copyTail, if_pos ((Nat.le_add_right _ _).trans hroom), hsum] at hmemory
    obtain rfl := Except.ok.inj hmemory
    rw [List.take_of_length_le]
    · exact hcopied
    · rw [List.length_drop, List.length_take]
      omega

theorem keeps_misplaced (hstack : s.stack = memOffset :: dataOffset :: 0 :: rest)
    (hfar : s.memory.bytes.length < memOffset) :
    Keeps env { safeTerms s with misplaced := True } (opReturnDataCopy env)
      (fun _ s' => s'.stop = true) s := by
  refine keeps_opReturnDataCopy hstack ?_ ?_ ?_
  · exact fun _ _ _ => trivial
  · exact fun s' hstopped => hstopped.stop
  · intro memory gas cost _ hwindow _ _ _ hmemory
    have hmem := coe_uint64 hwindow.isUint64_offset
    rw [Slice.expand_zero, Slice.copyTail, if_neg (by omega)] at hmemory
    cases hmemory

theorem keeps_copyNothing (hbyzantium : env.config.byzantium = true)
    (hstack : s.stack = memOffset :: dataOffset :: 0 :: rest) (hmemOffset : 0 ≤ memOffset)
    (hdataOffset : 0 ≤ dataOffset) (hmemory : s.memory.bytes.length < 2 ^ 63)
    (hreturned : s.returnData.length < 2 ^ 63) (hplace : memOffset ≤ s.memory.bytes.length)
    (hdata : dataOffset ≤ s.returnData.length) :
    Keeps env (safeTerms s) (opReturnDataCopy env)
      (fun _ s' => s' =
        { s with stack := rest, unused := 0 :: dataOffset :: memOffset :: s.unused }) s := by
  have hmem : isUint64 memOffset = true := isUint64_iff.mpr ⟨hmemOffset, by omega⟩
  have hstart : isUint64 dataOffset = true := isUint64_iff.mpr ⟨hdataOffset, by omega⟩
  have hlo : uint64 memOffset ≤ s.memory.bytes.length := by
    have hcoe := coe_uint64 hmem
    omega
  have hin : (isUint64 (dataOffset + 0) && uint64 (dataOffset + 0) ≤ s.returnData.length) = true := by
    have hcoe := coe_uint64 hstart
    rw [add_zero, hstart, Bool.true_and, decide_eq_true_eq]
    omega
  rw [opReturnDataCopy, if_pos hbyzantium, keeps_bind, keeps_popWord hstack, keeps_bind,
    keeps_popWord rfl, keeps_bind, keeps_popWord rfl]
  dsimp only
  have hpaid : ∀ c : State, c.consumeGas (wordGas (uint64 0) copyGas) = (true, c) := fun c => rfl
  refine .bind ((keeps_act (.allocateMemory memOffset 0) trivial (.inl trivial)
    (congrArg Except.ok (State.allocateMemory_zero _ hmem))).mpr ?_)
  rw [if_pos rfl, if_pos hstart]
  refine .bind ((keeps_act (.consumeGas (wordGas (uint64 0) copyGas)) trivial (.inl trivial)
    (congrArg Except.ok (hpaid _))).mpr ?_)
  rw [if_pos rfl, keeps_bind, keeps_returnData, if_pos hin]
  refine keeps_copyTail (fun hfar => absurd hlo (not_le.mpr hfar)) fun memory hmemory => ?_
  rw [add_zero, List.drop_take, Nat.sub_self, List.take_zero, Slice.copyTail_nil hlo] at hmemory
  obtain rfl := Except.ok.inj hmemory
  rfl

def CopyIsExact (answer : (request : Request) → Path → request.Answer) (env : Env) (s : State)
    (memOffset dataOffset length : Int) (rest : List Int) : Prop :=
  ∃ s' path, runInstruction answer (opReturnDataCopy env) s = .ok ((), s', path) ∧
    (s'.stop = true ∧ s'.err.isSome = true ∨
      s.memory.bytes <+: (s.memory.expand memOffset length).bytes ∧
        Copied (s.memory.expand memOffset length).bytes memOffset s.returnData dataOffset length
          s'.memory.bytes) ∧
    (length = 0 → dataOffset ≤ s.returnData.length → s' =
      { s with stack := rest, unused := length :: dataOffset :: memOffset :: s.unused })

theorem return_data_copy_is_exact_iff (answer : (request : Request) → Path → request.Answer)
    (hbyzantium : env.config.byzantium = true)
    (hstack : s.stack = memOffset :: dataOffset :: length :: rest)
    (hmemOffset : 0 ≤ memOffset) (hdataOffset : 0 ≤ dataOffset)
    (hmemory : s.memory.bytes.length < 2 ^ 63) (hreturned : s.returnData.length < 2 ^ 63) :
    ((length = 0 → dataOffset ≤ s.returnData.length → memOffset ≤ s.memory.bytes.length) →
      CopyIsExact answer env s memOffset dataOffset length rest) ∧
    (s.stop = false → CopyIsExact answer env s memOffset dataOffset length rest →
      length = 0 → dataOffset ≤ s.returnData.length → memOffset ≤ s.memory.bytes.length) := by
  constructor
  · intro hplace
    have hkeeps : Keeps env (safeTerms s) (opReturnDataCopy env) _ s := keeps_copied hstack hplace
    obtain ⟨s', path, hrun, hcopied⟩ := runInstruction_of_keeps answer hkeeps
    refine ⟨s', path, hrun, hcopied.imp_right fun h => ⟨Slice.prefix_expand _ _ _, h⟩, ?_⟩
    rintro rfl hdata
    obtain ⟨s'', path', hrun', hs'⟩ := runInstruction_of_keeps answer
      (keeps_copyNothing hbyzantium hstack hmemOffset hdataOffset hmemory hreturned
        (hplace rfl hdata) hdata)
    cases hrun.symm.trans hrun'
    exact hs'
  · rintro hrunning ⟨s', path, hrun, _, hunchanged⟩ rfl hdata
    by_contra hfar
    have hstopped := post_of_runInstruction id (keeps_misplaced hstack (not_le.mp hfar)) hrun
    rw [hunchanged rfl hdata] at hstopped
    cases hrunning.symm.trans hstopped

end ReturnDataCopy

section Calls

variable {path : Path} {result : Except Fault (Unit × State)} {args : CallOperands} {rest : List Int}
  {op : OpCode} {type : CallType}

def ResultCopied (args : CallOperands) (s : State) (answer : Runtime.ExecutionResult) (s' : State) :
    Prop :=
  if answer.succeeded || answer.reverted then
    Copied (args.expand s.memory).bytes args.retOffset answer.returnValue 0
      (min args.retSize answer.returnValue.length) s'.memory.bytes
  else s'.memory = args.expand s.memory

def CallDone (args : CallOperands) (s : State) (path : Path) (result : Except Fault (Unit × State)) :
    Prop :=
  ∃ s', result = .ok ((), s') ∧ s.memory.bytes <+: (args.expand s.memory).bytes ∧
    ∀ c answer, ⟨.callx c, answer⟩ ∈ path → ResultCopied args s answer s'

def Overreaches (args : CallOperands) (s : State) (path : Path) : Prop :=
  args.retSize = 0 ∧ (s.memory.expand args.inOffset args.inSize).cap < args.retOffset ∧
    ∃ c answer, ⟨.callx c, answer⟩ ∈ path ∧ (answer.succeeded || answer.reverted) = true ∧
      answer.returnValue ≠ []

theorem not_overreaches_of_behind (hcalls : Behind path []) : ¬ Overreaches args s path := by
  rintro ⟨_, _, c, answer, hmem, _⟩
  cases hcalls.mem_iff.mp hmem

theorem overreaches_iff {c : Contract} {answer : Runtime.ExecutionResult}
    (hcalls : Behind path [⟨.callx c, answer⟩]) : Overreaches args s path ↔
      args.retSize = 0 ∧ (s.memory.expand args.inOffset args.inSize).cap < args.retOffset ∧
        (answer.succeeded || answer.reverted) = true ∧ answer.returnValue ≠ [] := by
  constructor
  · rintro ⟨hsize, hfar, c', answer', hmem, hcopies⟩
    cases List.mem_singleton.mp (hcalls.mem_iff.mp hmem)
    exact ⟨hsize, hfar, hcopies⟩
  · rintro ⟨hsize, hfar, hcopies⟩
    exact ⟨hsize, hfar, c, answer, hcalls.mem_iff.mpr (List.mem_singleton.mpr rfl), hcopies⟩

theorem prefix_expandCall (args : CallOperands) (memory : Slice) :
    memory.bytes <+: (args.expand memory).bytes :=
  (Slice.prefix_expand _ _ _).trans (Slice.prefix_expand _ _ _)

theorem le_length_expandCall (memory : Slice) (hsize : args.retSize ≠ 0) :
    uint64 args.retOffset + uint64 args.retSize ≤ (args.expand memory).bytes.length :=
  Slice.le_length_expand _ _ hsize

theorem callDone_of_behind (hcalls : Behind path []) (s' : State) :
    CallDone args s path (.ok ((), s')) := by
  refine ⟨s', rfl, prefix_expandCall args s.memory, fun c answer hmem => ?_⟩
  cases hcalls.mem_iff.mp hmem

theorem copiedResult_error_iff {memory : Slice} {answer : Runtime.ExecutionResult}
    (hwindow : Window args.retOffset args.retSize) :
    (∃ p, copiedResult (args.expand memory) (uint64 args.retOffset) (uint64 args.retSize) answer
        = .error p) ↔
      args.retSize = 0 ∧ (memory.expand args.inOffset args.inSize).cap < args.retOffset ∧
        (answer.succeeded || answer.reverted) = true ∧ answer.returnValue ≠ [] := by
  have hoffset := coe_uint64 hwindow.isUint64_offset
  have hcopies : ((answer.succeeded || answer.reverted) && answer.returnValue.length ≠ 0) = true ↔
      (answer.succeeded || answer.reverted) = true ∧ answer.returnValue ≠ [] := by simp
  unfold copiedResult
  by_cases hcopied : (answer.succeeded || answer.reverted) = true ∧ answer.returnValue ≠ []
  · rw [if_pos (hcopies.mpr hcopied)]
    by_cases hsize : args.retSize = 0
    · have hzero : uint64 args.retSize = 0 := by rw [hsize]; rfl
      rw [hzero, Nat.add_zero, Nat.mod_eq_of_lt (uint64_lt _), CallOperands.expand, hsize,
        Slice.expand_zero]
      unfold Slice.copySlice
      split
      · exact iff_of_false (by simp) fun h => absurd h.2.1 (by omega)
      · exact iff_of_true ⟨_, rfl⟩ ⟨rfl, by omega, hcopied⟩
    · rw [Nat.mod_eq_of_lt (hwindow.lt hsize),
        Slice.copySlice_of_le (Nat.le_add_right _ _) (le_length_expandCall memory hsize)]
      exact iff_of_false (by simp) fun h => hsize h.1
  · rw [if_neg (hcopies.not.mpr hcopied)]
    exact iff_of_false (by simp) fun h => hcopied h.2.2

theorem resultCopied_settle {answer : Runtime.ExecutionResult} {s₁ : State} {memory : Slice}
    (hwindow : Window args.retOffset args.retSize) (hmemory : s₁.memory = args.expand s.memory)
    (h : copiedResult s₁.memory (uint64 args.retOffset) (uint64 args.retSize) answer = .ok memory) :
    ResultCopied args s answer (s₁.settle answer memory) := by
  have hoffset := coe_uint64 hwindow.isUint64_offset
  have hsize := coe_uint64 hwindow.isUint64_size
  rw [hmemory] at h
  unfold ResultCopied
  change if (answer.succeeded || answer.reverted) = true then
    Copied _ _ _ _ _ memory.bytes else memory = args.expand s.memory
  unfold copiedResult at h
  split at h
  · rename_i hcopies
    rw [Bool.and_eq_true] at hcopies
    rw [if_pos hcopies.1]
    by_cases hzero : args.retSize = 0
    · rw [hzero, show uint64 0 = 0 from rfl, Nat.add_zero, Nat.mod_eq_of_lt (uint64_lt _)] at h
      rw [Slice.copySlice_self h, hzero, min_eq_left (Int.natCast_nonneg _)]
      exact copied_nothing _ _ (by omega)
    · have hroom := le_length_expandCall s.memory hzero
      rw [Nat.mod_eq_of_lt (hwindow.lt hzero),
        Slice.copySlice_of_le (Nat.le_add_right _ _) hroom, Nat.add_sub_cancel_left] at h
      obtain rfl := Except.ok.inj h
      have hsource : 0 + min (uint64 args.retSize) answer.returnValue.length
          ≤ answer.returnValue.length := by omega
      have hwritten := copied_overwrite hsource
        (show uint64 args.retOffset + _ ≤ (args.expand s.memory).bytes.length from
          (Nat.add_le_add_left (Nat.min_le_left _ _) _).trans hroom)
      rw [Nat.zero_add, ← List.take_take, List.take_length, hoffset, Nat.cast_min, hsize]
        at hwritten
      exact hwritten
  · rename_i hcopies
    obtain rfl := Except.ok.inj h
    split
    · rename_i hkind
      have hempty : answer.returnValue = [] := by simpa [hkind] using hcopies
      rw [hempty, List.length_nil, Nat.cast_zero, min_eq_right (by omega)]
      exact copied_nothing _ _ (by omega)
    · rfl

theorem call_result_is_exact_iff (htype : callType op = some type)
    (hvalue : args.value.isSome = takesValue op) (hstack : s.stack = args.push rest)
    (h : Follows Action.exec (opCall op env) s path result) :
    CallDone args s path result ↔ ¬ Overreaches args s path := by
  obtain ⟨left, hcalls, ⟨err, _, rfl, rfl⟩ | ⟨_, built, s₁, hbuilt, hend⟩⟩ :=
    opCall_ends htype hvalue hstack h
  · exact iff_of_true (callDone_of_behind hcalls _) (not_overreaches_of_behind hcalls)
  · cases hend with
    | stopped => exact iff_of_true (callDone_of_behind hcalls _) (not_overreaches_of_behind hcalls)
    | bad => exact iff_of_true (callDone_of_behind hcalls _) (not_overreaches_of_behind hcalls)
    | called hcopied =>
      cases hbuilt with
      | ready halloc =>
        obtain ⟨gas, cost, rfl, hwindow, _⟩ := CallOperands.allocate_true halloc
        rw [overreaches_iff hcalls, ← copiedResult_error_iff hwindow]
        refine iff_of_true ⟨_, rfl, prefix_expandCall args s.memory, fun c answer hmem => ?_⟩ ?_
        · cases List.mem_singleton.mp (hcalls.mem_iff.mp hmem)
          exact resultCopied_settle hwindow rfl hcopied
        · rintro ⟨p, herror⟩
          cases hcopied.symm.trans herror
    | overreached hpanic =>
      cases hbuilt with
      | ready halloc =>
        obtain ⟨gas, cost, rfl, hwindow, _⟩ := CallOperands.allocate_true halloc
        rw [overreaches_iff hcalls, ← copiedResult_error_iff hwindow]
        refine iff_of_false ?_ (not_not_intro ⟨_, hpanic⟩)
        rintro ⟨_, hok, _⟩
        cases hok

end Calls

end Copies

section Sample

local instance copyKeccak : Keccak := sampleKeccak

local instance copyGrowth : SliceGrowth := ⟨fun _ _ => 0⟩

def oneByteAnswer : (request : Request) → Path → request.Answer
  | .host call, _ => ((Txn.newTxn richSnapshot).answer sampleEnv call).1
  | .callx _, _ => ⟨[1], 0, none⟩

def copyEnv : Env := ⟨codeContract [], sampleEnv.config⟩

def copyingState (stack : List Int) : State :=
  { State.new with stack := stack, gas := 1000, returnData := [1, 2, 3, 4] }

theorem return_data_copy_is_exact_iff_sample : ∃ s' path,
    runInstruction oneByteAnswer (opReturnDataCopy copyEnv) (copyingState [0, 1, 2, 7]) =
      .ok ((), s', path) ∧ s'.memory.bytes[1]? = some 3 := by
  have hgoes : (runInstruction oneByteAnswer (opReturnDataCopy copyEnv)
      (copyingState [0, 1, 2, 7])).toOption.map (·.2.1.stop) = some false := by decide +kernel
  obtain ⟨s', path, hrun, hcopied, _⟩ := (return_data_copy_is_exact_iff oneByteAnswer
    (show copyEnv.config.byzantium = true from rfl)
    (show (copyingState [0, 1, 2, 7]).stack = _ from rfl)
    (by decide) (by decide) (by decide) (by decide)).1 (by decide)
  refine ⟨s', path, hrun, ?_⟩
  rw [hrun] at hgoes
  rcases hcopied with ⟨hstop, _⟩ | ⟨_, hcopied⟩
  · cases hstop.symm.trans (Option.some.inj hgoes)
  · exact hcopied.copied 1 (by decide)

theorem empty_copy_panics :
    (runInstruction oneByteAnswer (opReturnDataCopy copyEnv) (copyingState [1, 0, 0])).map
        (fun _ => ()) = .error (.panic .indexOutOfRange) := by
  decide +kernel

def staticOperands (retSize : Int) : CallOperands := ⟨0, 5, none, 0, 0, 1, retSize⟩

def callValues (path : Path) : List Bytes :=
  path.filterMap fun
    | ⟨.callx _, answer⟩ => some answer.returnValue
    | ⟨.host _, _⟩ => none

theorem call_result_is_exact_iff_sample : ∃ path s', callValues path = [[1]] ∧
    ∀ c answer, ⟨.callx c, answer⟩ ∈ path →
      ResultCopied (staticOperands 1) (copyingState ((staticOperands 1).push [])) answer s' := by
  obtain ⟨path, result, hfollows, hrun⟩ := follows_run (β := Event) oneByteAnswer
    (opCall OpCode.staticCall copyEnv) (copyingState ((staticOperands 1).push [])) []
  have hcalls : (runInstruction oneByteAnswer (opCall OpCode.staticCall copyEnv)
      (copyingState ((staticOperands 1).push []))).map (fun r => callValues r.2.2) = .ok [[1]] := by
    decide +kernel
  obtain ⟨s', rfl, _, hcopied⟩ := (call_result_is_exact_iff
    (show callType OpCode.staticCall = some .staticCall from rfl)
    (show (staticOperands 1).value.isSome = takesValue OpCode.staticCall from rfl)
    (show (copyingState ((staticOperands 1).push [])).stack = _ from rfl) hfollows).mpr
    (fun h => absurd h.1 (by decide))
  rw [runInstruction, hrun] at hcalls
  exact ⟨path, s', Except.ok.inj hcalls, hcopied⟩

theorem empty_window_panics :
    (runInstruction oneByteAnswer (opCall OpCode.staticCall copyEnv)
      (copyingState ((staticOperands 0).push []))).map (fun _ => ()) =
        .error (.panic .indexOutOfRange) := by
  decide +kernel

end Sample

end Nxchain.Evm
