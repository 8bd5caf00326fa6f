import Nxchain.Proof.CallRules

namespace Nxchain.Evm

open Prog Word

variable {post : Unit → State → Prop} {gas n : Nat} {inst : Instruction} {handler : Handler}

def outputOperand (op : OpCode) : Option Nat :=
  if takesValue op then some 5
  else if op = OpCode.delegateCall || op = OpCode.staticCall then some 4
  else none

def overreaches (op : OpCode) (s : State) : Bool :=
  (outputOperand op).any fun i =>
    s.stack[i + 1]? = some 0 && (s.stack[i]?).any fun (offset : Int) => s.memory.bytes.length < offset

def misplaced (op : OpCode) (s : State) : Bool :=
  if op = 0x3e then
    s.stack[2]? = some 0 && (s.stack[0]?).any fun (memOffset : Int) => s.memory.bytes.length < memOffset
  else if op = 0x52 then (s.stack[1]?).any fun val => 2 ^ 256 ≤ val.natAbs
  else if op = 0x0b then (s.stack[0]?).any fun ext => ext < 0
  else false

def missing (op : OpCode) (s : State) : Bool := op = 0x0b && s.stack.length = 1 && 5 ≤ s.gas

variable {env : Env} {terms : Terms} {s : State} {op : OpCode}

theorem overreaches_push {args : CallOperands} {rest : List Int} {type : CallType} (htype : callType op = some type)
    (hvalue : args.value.isSome = takesValue op) (hstack : s.stack = args.push rest) (hsize : args.retSize = 0)
    (hoffset : s.memory.bytes.length < args.retOffset) : overreaches op s = true := by
  unfold overreaches outputOperand
  cases hv : args.value with
  | some v =>
    have htakes : takesValue op = true := by rw [← hvalue, hv]; rfl
    rw [if_pos htakes, hstack, CallOperands.push, hv]
    simp [hsize, hoffset]
  | none =>
    rw [hv] at hvalue
    have hop : (op = OpCode.delegateCall || op = OpCode.staticCall) = true := by
      have hcalls : (op = OpCode.call || op = OpCode.callCode) = false := hvalue.symm
      rw [Bool.or_eq_false_iff, decide_eq_false_iff_not, decide_eq_false_iff_not] at hcalls
      unfold callType at htype
      rw [if_neg hcalls.1, if_neg hcalls.2] at htype
      rw [Bool.or_eq_true, decide_eq_true_eq, decide_eq_true_eq]
      by_contra hnone
      rw [not_or] at hnone
      rw [if_neg hnone.1, if_neg hnone.2] at htype
      cases htype
    rw [if_neg (by rw [← hvalue]; exact Bool.false_ne_true), if_pos hop, hstack, CallOperands.push, hv]
    simp [hsize, hoffset]

variable [SliceGrowth]

theorem keeps_opMStore (h : 2 ≤ s.stack.length) (hsafe : misplaced 0x52 s = true → terms.misplaced) :
    Keeps env terms (opMStore env) (fun _ s' => Moves s s') s := by
  match hstack : s.stack, h with
  | offset :: val :: rest, _ =>
    rw [opMStore, keeps_bind, keeps_popWord hstack, keeps_bind, keeps_popWord rfl]
    refine .bind (keeps_allocateMemory ?_ fun gas cost hwindow hgas => ?_)
    · exact fun s' hstopped => ⟨hstopped.bitmap, hstopped.ip, hstopped.gas⟩
    have hroom : uint64 offset + 32 ≤ (s.memory.expand offset wordSize).bytes.length :=
      s.memory.le_length_expand offset (by decide : wordSize ≠ 0)
    have hlt : uint64 offset + 32 < 2 ^ 64 := hwindow.lt (by decide)
    simp only [Nat.mod_eq_of_lt hlt]
    refine .bind (keeps_slice (Nat.le_add_right _ _) hroom ?_)
    generalize List.drop (uint64 offset) _ = buf
    cases hfill : fillSlot val buf with
    | ok b =>
      refine .bind (keeps_pure.mpr (keeps_copySlice (Nat.le_add_right _ _) ?_ ?_))
      · exact fun hfar => absurd hroom (not_le.mpr hfar)
      · exact fun memory _ => ⟨rfl, rfl, hgas⟩
    | error p =>
      refine .bind (keeps_panic (hsafe ?_))
      unfold misplaced
      rw [if_pos rfl, hstack]
      refine decide_eq_true (not_lt.mp fun hval => ?_)
      obtain ⟨b, hb, _⟩ := fillSlot_eq hval buf
      cases hfill.symm.trans hb

theorem keeps_opSignExtension (h : 1 ≤ s.stack.length) (hsafe : misplaced 0x0b s = true → terms.misplaced)
    (hmissing : s.stack.length = 1 → terms.missing) :
    Keeps env terms (opSignExtension env) (fun _ s' => Moves s s') s := by
  match hstack : s.stack, h with
  | ext :: rest, _ =>
    rw [opSignExtension, keeps_bind, keeps_popWord hstack]
    match rest with
    | [] =>
      refine .bind ((keeps_top (.inr (hmissing ?_))).mpr (keeps_pure.mpr ⟨rfl, rfl, le_rfl⟩))
      rw [hstack]
      rfl
    | x :: rest =>
      refine .bind ((keeps_top (.inl (one_le_length rfl))).mpr ?_)
      dsimp only [List.head?_cons]
      by_cases hle : ext ≤ 32
      · rw [if_pos hle]
        by_cases hbit : (uint64 ext * 8 + 7) % 2 ^ 64 < 2 ^ 63
        · rw [if_pos hbit]
          exact (keeps_setTop rfl).mpr ⟨rfl, rfl, le_rfl⟩
        · rw [if_neg hbit]
          refine keeps_panic (hsafe ?_)
          unfold misplaced
          rw [if_neg (by decide), if_pos rfl, hstack]
          refine decide_eq_true ?_
          by_contra hneg
          have hsmall : uint64 ext ≤ 32 := by
            unfold uint64
            omega
          omega
      · rw [if_neg hle]
        exact keeps_pure.mpr ⟨rfl, rfl, le_rfl⟩

theorem keeps_opReturnDataCopy {memOffset dataOffset length : Int} {rest : List Int}
    (hstack : s.stack = memOffset :: dataOffset :: length :: rest)
    (hsafe : length = 0 → dataOffset ≤ s.returnData.length → s.memory.bytes.length < memOffset →
      terms.misplaced)
    (hstopped : ∀ s', Stopped s s' → post () s')
    (hcopied : ∀ memory gas cost, gas ≤ s.gas → Window memOffset length →
      isUint64 dataOffset = true → isUint64 (dataOffset + length) = true →
      dataOffset + length ≤ s.returnData.length → (s.memory.expand memOffset length).copyTail (uint64 memOffset)
        ((s.returnData.take (uint64 (dataOffset + length))).drop (uint64 dataOffset)) = .ok memory →
      post () { s with stack := rest, unused := length :: dataOffset :: memOffset :: s.unused,
                       memory := memory, gas := gas, lastGasCost := cost }) :
    Keeps env terms (opReturnDataCopy env) post s := by
  unfold opReturnDataCopy
  split
  · rw [keeps_bind, keeps_popWord hstack, keeps_bind, keeps_popWord rfl, keeps_bind, keeps_popWord rfl]
    refine .bind (keeps_allocateMemory ?_ fun gas cost hwindow hgas => ?_)
    · intro s' hstop
      refine keeps_pure.mpr (hstopped s' (Moves.stopped ?_ hstop))
      exact ⟨rfl, rfl, le_rfl⟩
    rw [if_pos rfl]
    split
    · rename_i hdata
      refine keeps_paying (hstopped _ ⟨⟨rfl, rfl, hgas⟩, rfl, rfl⟩) fun _ => ?_
      refine .bind (keeps_returnData.mpr ?_)
      split
      · rename_i hend
        rw [Bool.and_eq_true, decide_eq_true_eq] at hend
        have hle : dataOffset + length ≤ s.returnData.length := by
          rw [← coe_uint64 hend.1]
          exact_mod_cast hend.2
        refine keeps_copyTail ?_ fun memory hmemory => ?_
        · intro hfar
          have hzero : length = 0 := by
            by_contra hzero
            have hroom := s.memory.le_length_expand memOffset hzero
            exact absurd hfar (not_lt.mpr ((Nat.le_add_right _ _).trans hroom))
          refine hsafe hzero (by omega) ?_
          rw [← coe_uint64 hwindow.isUint64_offset]
          rw [hzero] at hfar
          exact_mod_cast hfar
        · exact hcopied memory _ cost ((Nat.sub_le _ _).trans hgas) hwindow hdata hend.1 hle hmemory
      · refine keeps_exit.mpr (hstopped _ ?_)
        exact ⟨⟨rfl, rfl, (Nat.sub_le _ _).trans hgas⟩, rfl, rfl⟩
    · exact keeps_exit.mpr (hstopped _ ⟨⟨rfl, rfl, hgas⟩, rfl, rfl⟩)
  · exact keeps_exit.mpr (hstopped _ (stopped_exit _ _))

structure Begun (env : Env) (terms : Terms) (op : OpCode) (s : State) : Prop where
  ip : 0 ≤ s.ip
  bitmap : s.bitmap.bytes.length = env.msg.code.length / 8 + 1
  gas : terms.gas = s.gas
  calls : terms.calls
  metered : terms.metered → env.config.eip150 = true ∧ s.gas < 2 ^ 64
  overreach : overreaches op s = true → terms.overreach
  misplaced : misplaced op s = true → terms.misplaced
  missing : missing op s = true → terms.missing

structure Advanced (terms : Terms) (s s' : State) : Prop where
  bitmap : s'.bitmap = s.bitmap
  ip : -1 ≤ s'.ip
  gas : terms.metered → s'.gas ≤ s.gas
  falls : terms.metered → s'.stop = true ∨ s'.gas < s.gas

def State.pay (s : State) (gas : Nat) : State := { s with gas := s.gas - gas }

def Handler.Sound (op : OpCode) (handler : Handler) : Prop :=
  ∀ env terms s, Begun env terms op s → handler.stack ≤ s.stack.length → handler.gas ≤ s.gas →
    Keeps env terms (handler.inst env) (fun _ s' => Advanced terms s s') (s.pay handler.gas)

omit [SliceGrowth] in
theorem State.pay_lt (s : State) (hpos : 0 < gas) (hle : gas ≤ s.gas) :
    (s.pay gas).gas < s.gas := Nat.sub_lt_self hpos hle

omit [SliceGrowth] in
theorem Begun.advanced {s' : State} (hbegun : Begun env terms op s) (hbitmap : s'.bitmap = s.bitmap)
    (hip : s'.ip = s.ip) (hgas : terms.metered → s'.gas ≤ s.gas)
    (hfalls : terms.metered → s'.stop = true ∨ s'.gas < s.gas) : Advanced terms s s' :=
  ⟨hbitmap, by have := hbegun.ip; omega, hgas, hfalls⟩

omit [SliceGrowth] in
theorem Begun.moved {s' : State} (hbegun : Begun env terms op s) (hpos : 0 < gas) (hle : gas ≤ s.gas)
    (hmoves : Moves (s.pay gas) s') : Advanced terms s s' := by
  have hlt : s'.gas < s.gas := hmoves.gas.trans_lt (s.pay_lt hpos hle)
  exact hbegun.advanced hmoves.bitmap hmoves.ip (fun _ => hlt.le) fun _ => .inr hlt

omit [SliceGrowth] in
theorem Begun.stopped {s' : State} (hbegun : Begun env terms op s) (hmoves : Moves (s.pay gas) s')
    (hstop : s'.stop = true) : Advanced terms s s' :=
  hbegun.advanced hmoves.bitmap hmoves.ip (fun _ => hmoves.gas.trans (Nat.sub_le _ _)) fun _ => .inl hstop

theorem Quiet.sound (h : Quiet n inst) (hgas : 0 < gas := by decide) :
    Handler.Sound op ⟨inst, n, gas⟩ := fun env terms s hbegun hstack hle =>
  (h env terms (s.pay gas) hstack).mono fun _ _ => hbegun.moved hgas hle

theorem Charging.sound (h : Charging n inst) : Handler.Sound op ⟨inst, n, gas⟩ := by
  intro env terms s hbegun hstack hle
  refine (h env terms (s.pay gas) hstack).mono fun _ s' hpaid => ?_
  have hpay : (s.pay gas).gas ≤ s.gas := Nat.sub_le _ _
  refine hbegun.advanced hpaid.bitmap hpaid.ip (fun _ => hpaid.gas.trans hpay) fun _ => ?_
  exact hpaid.falls.imp_right fun hlt => hlt.trans_le hpay

theorem Halting.sound (h : Halting n inst) : Handler.Sound op ⟨inst, n, gas⟩ :=
  fun env terms s hbegun hstack _ =>
    (h env terms (s.pay gas) hstack).mono fun _ _ hhalts => hbegun.stopped hhalts.1 hhalts.2

theorem sound_opMStore : Handler.Sound 0x52 ⟨opMStore, 2, 3⟩ := fun _ _ _ hbegun hstack hle =>
  Keeps.mono (keeps_opMStore hstack hbegun.misplaced) fun _ _ => hbegun.moved three_pos hle

theorem sound_opSignExtension : Handler.Sound 0x0b ⟨opSignExtension, 1, 5⟩ := by
  intro env terms s hbegun hstack hle
  have hmissing : s.stack.length = 1 → terms.missing := fun hone =>
    hbegun.missing (by simpa [missing, hone] using hle)
  refine Keeps.mono (keeps_opSignExtension hstack hbegun.misplaced hmissing) fun _ _ => ?_
  exact hbegun.moved (by decide) hle

theorem sound_opReturnDataCopy : Handler.Sound 0x3e ⟨opReturnDataCopy, 3, 3⟩ := by
  intro env terms s hbegun h hle
  match hstack : s.stack, h with
  | memOffset :: dataOffset :: length :: rest, _ =>
    refine keeps_opReturnDataCopy hstack ?_ ?_ ?_
    · intro hzero _ hfar
      apply hbegun.misplaced
      unfold misplaced
      rw [hstack, hzero]
      have hbehind : (s.memory.bytes.length : Int) < memOffset := hfar
      simpa using hbehind
    · exact fun s' hstop => hbegun.stopped hstop.toMoves hstop.stop
    · exact fun memory gas cost hgas _ _ _ _ _ => hbegun.moved three_pos hle ⟨rfl, rfl, hgas⟩

theorem sound_opPush (n : Nat) : Handler.Sound op ⟨opPush n, 0, 3⟩ := by
  intro env terms s hbegun hstack hle
  have hpaid : 3 ≤ s.gas := hle
  refine .bind (keeps_ip.mpr (.bind (keeps_push.mpr (keeps_setIp.mpr ?_))))
  refine ⟨rfl, ?_, fun _ => Nat.sub_le _ _, fun _ => .inr (s.pay_lt three_pos hpaid)⟩
  have hip := hbegun.ip
  show -1 ≤ s.ip + n
  omega

omit [SliceGrowth] in
theorem natAbs_lt_of_bitLen {x : Int} (h : bitLen x ≤ n) : x.natAbs < 2 ^ n := by
  unfold bitLen at h
  split_ifs at h with hzero
  · rw [hzero]
    exact Nat.two_pow_pos n
  · exact (Nat.log2_lt (Int.natAbs_ne_zero.mpr hzero)).mp h

theorem keeps_jump {dest : Int} (hbitmap : s.bitmap.bytes.length = env.msg.code.length / 8 + 1)
    (hstopped : ∀ s', Stopped s s' → post () s') (hjumps : ∀ i, -1 ≤ i → post () { s with ip := i }) :
    Keeps env terms (jump env dest) post s := by
  unfold jump validJumpdest
  by_cases hfar : (63 ≤ bitLen dest || env.msg.code.length ≤ uint64 dest) = true
  · rw [if_pos hfar]
    exact .bind (keeps_pure.mpr (keeps_exit.mpr (hstopped _ (stopped_exit _ _))))
  · rw [if_neg hfar]
    rw [Bool.or_eq_true, decide_eq_true_eq, decide_eq_true_eq, not_or, not_le] at hfar
    have hsmall : dest.natAbs < 2 ^ 62 := natAbs_lt_of_bitLen (by omega)
    refine .bind (keeps_isSet (by omega) fun answer => ?_)
    cases answer with
    | true =>
      refine keeps_setIp.mpr (hjumps _ ?_)
      unfold toInt64 sub64 uint64
      split_ifs <;> omega
    | false => exact keeps_exit.mpr (hstopped _ (stopped_exit _ _))

theorem sound_jump {dest : Int} {stack unused : List Int} (hbegun : Begun env terms op s) (hpos : 0 < gas)
    (hle : gas ≤ s.gas) : Keeps env terms (jump env dest) (fun _ s' => Advanced terms s s')
      { s.pay gas with stack := stack, unused := unused } := by
  refine keeps_jump hbegun.bitmap ?_ ?_
  · exact fun s' hstop => hbegun.stopped ⟨hstop.bitmap, hstop.ip, hstop.gas⟩ hstop.stop
  · exact fun i hi => ⟨rfl, hi, fun _ => Nat.sub_le _ _, fun _ => .inr (s.pay_lt hpos hle)⟩

theorem sound_opJump : Handler.Sound op ⟨opJump, 1, 8⟩ := by
  intro env terms s hbegun h hle
  match hstack : s.stack, h with
  | dest :: rest, _ =>
    have hpopped : (s.pay 8).stack = dest :: rest := hstack
    exact .bind ((keeps_popWord hpopped).mpr (sound_jump hbegun (by decide) hle))

theorem sound_opJumpi : Handler.Sound op ⟨opJumpi, 2, 10⟩ := by
  intro env terms s hbegun h hle
  match hstack : s.stack, h with
  | dest :: cond :: rest, _ =>
    have hpopped : (s.pay 10).stack = dest :: cond :: rest := hstack
    refine .bind ((keeps_popWord hpopped).mpr (.bind ((keeps_popWord rfl).mpr ?_)))
    split
    · exact sound_jump hbegun (by decide) hle
    · exact keeps_pure.mpr (hbegun.moved (by decide) hle ⟨rfl, rfl, le_rfl⟩)

theorem sound_opCall {type : CallType} (htype : callType op = some type) :
    Handler.Sound op ⟨opCall op, operandCount op, 0⟩ := by
  intro env terms s hbegun h _
  obtain ⟨args, rest, hstack, hvalue⟩ := exists_callOperands h
  refine keeps_opCall htype hbegun.calls hbegun.gas hvalue hstack hbegun.metered ?_ ?_ ?_
  · exact fun hsize hoffset => hbegun.overreach (overreaches_push htype hvalue hstack hsize hoffset)
  · exact fun s' hstop =>
      hbegun.advanced hstop.bitmap hstop.ip (fun _ => hstop.gas) fun _ => .inl hstop.stop
  · intro s' hbitmap hip hgas
    exact hbegun.advanced hbitmap hip (fun hm => (hgas hm).le) fun hm => .inr (hgas hm)

theorem sound_registerRange {start : OpCode} {count : Nat} {factory : Nat → Instruction}
    (h : ∀ op i, Handler.Sound op ⟨factory (i + 1), 0, gas⟩) :
    ∀ entry ∈ registerRange start count factory gas, entry.2.Sound entry.1 := by
  intro entry hentry
  obtain ⟨i, _, rfl⟩ := List.mem_map.mp hentry
  exact h _ i

variable [Keccak]

theorem sound_opCreate (hpos : 0 < gas) (hop : op = OpCode.create ∨ op = OpCode.create2) :
    Handler.Sound op ⟨opCreate op, if op = OpCode.create2 then 4 else 3, gas⟩ := by
  intro env terms s hbegun h hle
  have hlt : (s.pay gas).gas < s.gas := s.pay_lt hpos hle
  refine keeps_opCreate hop hbegun.calls ?_ h ?_
  · intro _
    rw [hbegun.gas]
    exact hlt
  · intro s' hbitmap hip hgas
    refine hbegun.advanced hbitmap hip (fun hm => ?_) fun hm => .inr ?_
    · exact (hgas hm).trans hlt.le
    · exact (hgas hm).trans_lt hlt

theorem registered_sound : ∀ entry ∈ registered, entry.2.Sound entry.1 := by
  have hcreate : Handler.Sound OpCode.create ⟨opCreate OpCode.create, 3, 32000⟩ :=
    sound_opCreate (by decide) (.inl rfl)
  have hcreate2 : Handler.Sound OpCode.create2 ⟨opCreate OpCode.create2, 4, 32000⟩ :=
    sound_opCreate (by decide) (.inr rfl)
  unfold registered
  simp only [List.forall_mem_append, List.forall_mem_cons, List.not_mem_nil, false_imp_iff, implies_true, and_true]
  refine ⟨⟨⟨⟨⟨?_, ?_⟩, ?_⟩, ?_⟩, ?_⟩, ?_⟩
  · exact ⟨halting_opStop.sound, (quiet_binary _).sound, (quiet_binary _).sound,
      (quiet_binary _).sound, (quiet_binary _).sound, (quiet_binary _).sound,
      (quiet_binary _).sound, (quiet_binary _).sound, quiet_opExp.sound⟩
  · exact sound_registerRange fun op i => sound_opPush (i + 1)
  · exact sound_registerRange fun op i => (quiet_opDup i).sound
  · exact sound_registerRange fun op i => (quiet_opSwap (i + 1)).sound
  · exact sound_registerRange fun op i => (quiet_opLog (i + 1)).sound
  · exact ⟨(quiet_ternary _).sound, (quiet_ternary _).sound,
      (quiet_binary _).sound, (quiet_binary _).sound, (quiet_binary _).sound, (quiet_binary _).sound,
      (quiet_unary fun _ => _).sound, (quiet_unary fun _ => _).sound,
      (quiet_binary _).sound, (quiet_binary _).sound, (quiet_binary _).sound, (quiet_binary _).sound,
      (quiet_binary _).sound, sound_opSignExtension,
      (quiet_shift _).sound, (quiet_shift _).sound, (quiet_shift _).sound, hcreate, hcreate2,
      sound_opCall rfl, sound_opCall rfl, sound_opCall rfl, sound_opCall rfl,
      (halting_opHalt _).sound, (halting_opHalt _).sound,
      quiet_opMload.sound, sound_opMStore, quiet_opMStore8.sound,
      charging_opSload.sound, charging_opSStore.sound, quiet_opSha3.sound,
      quiet_opPop.sound, charging_opExtCodeHash.sound,
      (quiet_push _).sound, charging_opBalance.sound, quiet_opSelfBalance.sound,
      (quiet_pushContext _).sound, (quiet_push _).sound, (quiet_push _).sound,
      (quiet_unary _).sound, (quiet_push _).sound, (quiet_push _).sound,
      charging_opExtCodeSize.sound, (quiet_pushContext _).sound, quiet_opReturnDataSize.sound,
      quiet_opChainID.sound, quiet_opPC.sound, quiet_opMSize.sound, quiet_opGas.sound,
      charging_opExtCodeCopy.sound, (quiet_of_copyToMemory (·.msg.input) _ fun _ => rfl).sound,
      sound_opReturnDataCopy, (quiet_of_copyToMemory (·.msg.code) _ fun _ => rfl).sound,
      quiet_opBlockHash.sound, (quiet_pushContext _).sound, (quiet_pushContext _).sound,
      (quiet_pushContext _).sound, (quiet_pushContext _).sound, (quiet_pushContext _).sound,
      halting_opSelfDestruct.sound, sound_opJump, sound_opJumpi, quiet_opJumpDest.sound⟩

omit [SliceGrowth] in
theorem mem_registered (h : dispatchTable op = some handler) : (op, handler) ∈ registered := by
  obtain ⟨before, after, hregistered, _⟩ := List.lookup_eq_some_iff.mp h
  rw [hregistered]
  exact List.mem_append_right _ List.mem_cons_self

theorem dispatchTable_sound (h : dispatchTable op = some handler) :
    handler.Sound op := registered_sound (op, handler) (mem_registered h)

def opAt (env : Env) (s : State) : Option OpCode :=
  if 0 ≤ s.ip then env.msg.code[s.ip.toNat]? else none

def stepTerms (env : Env) (metered : Prop) (s : State) : Terms where
  gas := s.gas
  metered := metered
  calls := True
  overreach := (opAt env s).any (overreaches · s) = true
  misplaced := (opAt env s).any (misplaced · s) = true
  missing := (opAt env s).any (missing · s) = true

structure Ready (env : Env) (s : State) : Prop where
  ip : 0 ≤ s.ip
  bitmap : s.bitmap.bytes.length = env.msg.code.length / 8 + 1

structure Stepped (metered : Prop) (s s' : State) : Prop where
  bitmap : s'.bitmap = s.bitmap
  ip : s'.stop = true ∨ 0 ≤ s'.ip
  gas : metered → s'.gas ≤ s.gas
  falls : metered → s'.stop = true ∨ s'.gas < s.gas

variable {metered : Prop}

omit [SliceGrowth] [Keccak] in
theorem stepped_of_stop {s' : State} (hmoves : Moves s s') (hstop : s'.stop = true) : Stepped metered s s' :=
  ⟨hmoves.bitmap, .inl hstop, fun _ => hmoves.gas, fun _ => .inl hstop⟩

omit [Keccak] in
theorem keeps_dispatch (hbegun : Begun env terms op s) (hsound : handler.Sound op) :
    Keeps env terms (dispatch env handler) (fun _ s' => Stepped terms.metered s s') s := by
  refine .bind (keeps_stackAtLeast.mpr ?_)
  by_cases hstack : handler.stack ≤ s.stack.length
  · rw [if_pos (decide_eq_true hstack)]
    refine keeps_paying (stepped_of_stop (stopped_exit s _).toMoves rfl) fun hpaid => ?_
    refine .bind ((hsound env terms s hbegun hstack hpaid).mono fun _ s' hadvanced => ?_)
    refine .bind (keeps_stackSize.mpr ?_)
    split
    · refine keeps_exit.mpr ⟨hadvanced.bitmap, .inl rfl, hadvanced.gas, fun _ => .inl rfl⟩
    · refine .bind (keeps_ip.mpr (keeps_setIp.mpr ?_))
      refine ⟨hadvanced.bitmap, .inr ?_, hadvanced.gas, hadvanced.falls⟩
      have hip := hadvanced.ip
      show 0 ≤ s'.ip + 1
      omega
  · rw [if_neg (by simpa using hstack)]
    exact keeps_exit.mpr (stepped_of_stop (stopped_exit s _).toMoves rfl)

theorem keeps_step_iff (hip : 0 ≤ s.ip) :
    Keeps env terms (step env) post s ↔ Keeps env terms (match opAt env s with
      | none => halt
      | some op =>
        match dispatchTable op with
        | none => exit .opCodeNotFound
        | some handler => dispatch env handler) post s := by
  rw [step, keeps_bind, keeps_ip, currentOpCode, opAt, if_pos hip]
  by_cases hend : (env.msg.code.length : Int) ≤ s.ip
  · rw [if_pos hend, List.getElem?_eq_none (by omega)]
    exact keeps_bind
  · rw [if_neg hend, if_neg (not_lt.mpr hip)]
    exact keeps_bind

theorem keeps_step (hready : Ready env s) (hmetered : metered → env.config.eip150 = true ∧ s.gas < 2 ^ 64) :
    Keeps env (stepTerms env metered s) (step env) (fun _ s' => Stepped metered s s') s := by
  rw [keeps_step_iff hready.ip]
  cases hat : opAt env s with
  | none => exact keeps_halt.mpr (stepped_of_stop ⟨rfl, rfl, le_rfl⟩ rfl)
  | some op =>
    dsimp only
    cases hentry : dispatchTable op with
    | none => exact keeps_exit.mpr (stepped_of_stop (stopped_exit s _).toMoves rfl)
    | some handler =>
      refine keeps_dispatch ?_ (dispatchTable_sound hentry)
      refine ⟨hready.ip, hready.bitmap, rfl, trivial, hmetered, ?_, ?_, ?_⟩
      all_goals
        intro h
        unfold stepTerms
        rw [hat]
        exact h

end Nxchain.Evm
