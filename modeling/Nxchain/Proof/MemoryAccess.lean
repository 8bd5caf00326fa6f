import Nxchain.Proof.JumpTargets

namespace Nxchain.Evm

open Prog Word
open Program (Follows follows_run)

def Slice.image (b : Slice) : Nat → UInt8 := fun i => b.bytes.getD i 0

def written (image : Nat → UInt8) (start size : Nat) (f : Nat → UInt8) : Nat → UInt8 := fun i =>
  if start ≤ i ∧ i < start + size then f (i - start) else image i

theorem written_congr {image : Nat → UInt8} {start size : Nat} {f g : Nat → UInt8} (h : ∀ i < size, f i = g i) :
    written image start size f = written image start size g := by
  funext i
  unfold written
  split_ifs with hin
  · exact h _ (by omega)
  · rfl

def numberAt (image : Nat → UInt8) (start size : Nat) : Nat :=
  Rlp.ofBigEndian ((List.range size).map fun i => image (start + i))

namespace Slice

variable {b : Slice}

theorem image_overwrite {lo : Nat} {data : Bytes} (h : data ≠ [] → lo + data.length ≤ b.bytes.length) :
    image ⟨overwrite b.bytes lo data, b.rest⟩ = written b.image lo data.length (data.getD · 0) := by
  funext i
  unfold image written
  by_cases hdata : data = []
  · rw [hdata, overwrite_nil, if_neg (by simp)]
  · simp only [List.getD_eq_getElem?_getD, getElem?_overwrite (h hdata)]
    split <;> rfl

theorem image_set {i : Nat} (h : i < b.bytes.length) (v : UInt8) :
    image ⟨b.bytes.set i v, b.rest⟩ = written b.image i 1 fun _ => v := by
  funext j
  unfold image written
  simp only [List.getD_eq_getElem?_getD, List.getElem?_set]
  by_cases hj : i = j
  · rw [if_pos hj, if_pos h, if_pos (by omega)]
    rfl
  · rw [if_neg hj, if_neg (by omega)]

theorem image_expand [SliceGrowth] (h : b.Clean) (offset size : Int) : (b.expand offset size).image = b.image := by
  unfold expand
  split
  · rfl
  · funext i
    unfold image
    rw [(extendByteSlice_eq h (by omega)).1]
    simp only [List.getD_eq_getElem?_getD, List.getElem?_append, List.getElem?_replicate]
    rcases Nat.lt_or_ge i b.bytes.length with hlt | hge
    · rw [if_pos hlt]
    · rw [if_neg (by omega), List.getElem?_eq_none hge]
      split <;> rfl

theorem take_drop_eq_image {lo size : Nat} (h : lo + size ≤ b.bytes.length) :
    (b.bytes.take (lo + size)).drop lo = (List.range size).map fun i => b.image (lo + i) := by
  apply List.ext_getElem?
  intro i
  rw [List.getElem?_drop, List.getElem?_map]
  rcases Nat.lt_or_ge i size with hlt | hge
  · have hget : b.bytes[lo + i]? = some b.bytes[lo + i] := List.getElem?_eq_getElem (by omega)
    rw [List.getElem?_take_of_lt (by omega), List.getElem?_range hlt]
    simp [image, hget]
  · rw [List.getElem?_eq_none (by simp; omega), List.getElem?_eq_none (by simpa using hge)]
    rfl

end Slice

theorem isUint64_ofWord {x : BitVec 256} : isUint64 (ofWord x) = true ↔ x.toNat < 2 ^ 64 := by
  rw [isUint64_iff, ofWord]
  omega

theorem getD_setBytes {input : Bytes} (hinput : input.length ≤ 2 ^ 64) {size i : Nat} (hi : i < size)
    (dataOffset : BitVec 256) :
    (setBytes input size (ofWord dataOffset)).getD i 0 = input.getD (dataOffset.toNat + i) 0 := by
  unfold setBytes
  simp only [List.getD_eq_getElem?_getD]
  split
  · rename_i huint
    rw [uint64_ofWord (isUint64_ofWord.mp huint)]
    generalize dataOffset.toNat = offset
    rcases Nat.lt_or_ge (offset + i) input.length with hin | hout
    · rw [List.getElem?_append_left (by simp; omega), List.getElem?_take_of_lt (by omega),
        List.getElem?_drop, Nat.min_eq_left (by omega)]
    · rw [List.getElem?_append_right (by simp; omega), List.getElem?_replicate, List.getElem?_eq_none hout]
      split <;> rfl
  · rename_i huint
    have hge : 2 ^ 64 ≤ dataOffset.toNat := not_lt.mp (huint ∘ isUint64_ofWord.mpr)
    rw [List.getElem?_replicate_of_lt hi, List.getElem?_eq_none (by omega)]
    rfl

inductive MemoryOp where
  | mload (offset : BitVec 256)
  | mstore (offset val : BitVec 256)
  | mstore8 (offset val : BitVec 256)
  | callDataCopy (memOffset dataOffset length : BitVec 256)
  | codeCopy (memOffset dataOffset length : BitVec 256)
  | extCodeCopy (addr memOffset codeOffset length : BitVec 256)

namespace MemoryOp

def operands : MemoryOp → List (BitVec 256)
  | mload offset => [offset]
  | mstore offset val | mstore8 offset val => [offset, val]
  | callDataCopy memOffset dataOffset length | codeCopy memOffset dataOffset length =>
    [memOffset, dataOffset, length]
  | extCodeCopy addr memOffset codeOffset length => [addr, memOffset, codeOffset, length]

def inst : MemoryOp → Instruction
  | mload _ => opMload
  | mstore .. => opMStore
  | mstore8 .. => opMStore8
  | callDataCopy .. => opCallDataCopy
  | codeCopy .. => opCodeCopy
  | extCodeCopy .. => opExtCodeCopy

def next (source : Bytes) (image : Nat → UInt8) : MemoryOp → Nat → UInt8
  | mload _ => image
  | mstore offset val => written image offset.toNat 32 fun i => UInt8.ofNat (val.toNat / 256 ^ (31 - i))
  | mstore8 offset val => written image offset.toNat 1 fun _ => UInt8.ofNat (val.toNat % 256)
  | callDataCopy memOffset dataOffset length | codeCopy memOffset dataOffset length
  | extCodeCopy _ memOffset dataOffset length =>
    written image memOffset.toNat length.toNat fun i => source.getD (dataOffset.toNat + i) 0

def pushed (image : Nat → UInt8) : MemoryOp → List Int
  | mload offset => [(numberAt image offset.toNat 32 : Nat)]
  | _ => []

def Source (env : Env) (path : Path) (source : Bytes) : MemoryOp → Prop
  | callDataCopy .. => source = env.msg.input
  | codeCopy .. => source = env.msg.code
  | extCodeCopy addr .. => path = [⟨.host (.getCode (toAddress (ofWord addr))), source⟩]
  | _ => source = []

end MemoryOp

structure GoesOn (image : Nat → UInt8) (stack : List Int) (s s' : State) : Prop where
  image : s'.memory.image = image
  stack : s'.stack = stack
  err : s'.err = s.err
  stop : s'.stop = s.stop

def Performed (op : MemoryOp) (source : Bytes) (rest : List Int) (s s' : State) : Prop :=
  GoesOn (op.next source s.memory.image) (op.pushed s.memory.image ++ rest) s s'

section Instructions

variable [SliceGrowth] {env : Env} {terms : Terms} {s : State} {rest : List Int}

variable {offset memOffset dataOffset length : BitVec 256} {data : Bytes} {path : Path} {amount : Nat}
  {s' : State}

theorem windowBytes_expand {b : Slice} {size : Int} (hclean : b.Clean) (hwindow : Window (ofWord offset) size)
    (hsize : size ≠ 0) :
    windowBytes (b.expand (ofWord offset) size) (ofWord offset) size =
      (List.range (uint64 size)).map fun i => b.image (offset.toNat + i) := by
  have hbytes := Slice.take_drop_eq_image (b.le_length_expand (ofWord offset) hsize)
  rw [Slice.image_expand hclean] at hbytes
  rw [← uint64_ofWord (isUint64_ofWord.mp hwindow.isUint64_offset)]
  exact hbytes

theorem keeps_mload (hclean : s.memory.Clean) (hstack : s.stack = ofWord offset :: rest) :
    Keeps env terms (opMload env)
      (fun _ s' => Failed s' ∨ Performed (.mload offset) [] rest s s') s := by
  refine .bind ((keeps_popWord hstack).mpr ?_)
  refine .bind (.bind (keeps_get2_exact ?_ ?_ ?_))
  · exact fun h => absurd h (by decide)
  · intro s' _ halloc
    refine .bind (keeps_setTmp.mpr (keeps_pure.mpr (keeps_pure.mpr (.inl ?_))))
    exact (allocateMemory_false halloc).1.failed
  · intro s' hsize halloc
    obtain ⟨gas, cost, rfl, hwindow, _⟩ := allocateMemory_true halloc
    refine .bind (keeps_setTmp.mpr (keeps_pure.mpr ?_))
    refine .bind (keeps_tmp.mpr (keeps_push.mpr (.inr ⟨?_, ?_, rfl, rfl⟩)))
    · exact Slice.image_expand hclean _ _
    · rw [windowBytes_expand hclean hwindow hsize]
      rfl

theorem keeps_mstore {val : BitVec 256} (hclean : s.memory.Clean)
    (hstack : s.stack = ofWord offset :: ofWord val :: rest) :
    Keeps env terms (opMStore env)
      (fun _ s' => Failed s' ∨ Performed (.mstore offset val) [] rest s s') s := by
  refine .bind ((keeps_popWord hstack).mpr (.bind ((keeps_popWord rfl).mpr ?_)))
  refine .bind (keeps_allocateMemory ?_ ?_)
  · exact fun s' hstopped => .inl hstopped.failed
  intro gas cost hwindow _
  have hoffset := uint64_ofWord (isUint64_ofWord.mp hwindow.isUint64_offset)
  have hroom : offset.toNat + 32 ≤ (s.memory.expand (ofWord offset) wordSize).bytes.length := by
    rw [← hoffset]
    exact s.memory.le_length_expand (ofWord offset) (by decide : wordSize ≠ 0)
  have hlt : offset.toNat + 32 < 2 ^ 64 := hoffset ▸ hwindow.lt (by decide)
  simp only [hoffset, Nat.mod_eq_of_lt hlt]
  refine .bind (keeps_slice (Nat.le_add_right _ _) hroom ?_)
  have hval : (ofWord val).natAbs < 2 ^ 256 := val.isLt
  obtain ⟨b, hfill, hbytes⟩ := fillSlot_eq hval
    (((s.memory.expand (ofWord offset) wordSize).bytes.take (offset.toNat + 32)).drop offset.toNat)
  obtain ⟨hlength, hbytes⟩ := hbytes (by
    rw [List.length_drop, List.length_take_of_le hroom, Nat.add_sub_cancel_left])
  rw [hfill]
  refine .bind (keeps_pure.mpr (keeps_copySlice (Nat.le_add_right _ _) ?_ fun memory hcopy => ?_))
  · exact fun hfar => absurd hroom (not_le.mpr hfar)
  cases hcopy.symm.trans (Slice.copySlice_of_le (Nat.le_add_right _ _) hroom b)
  rw [Nat.add_sub_cancel_left, List.take_of_length_le hlength.le]
  refine .inr ⟨?_, rfl, rfl, rfl⟩
  rw [Slice.image_overwrite fun _ => hlength.symm ▸ hroom, Slice.image_expand hclean, hlength]
  exact written_congr hbytes

theorem keeps_mstore8 {val : BitVec 256} (hclean : s.memory.Clean)
    (hstack : s.stack = ofWord offset :: ofWord val :: rest) :
    Keeps env terms (opMStore8 env)
      (fun _ s' => Failed s' ∨ Performed (.mstore8 offset val) [] rest s s') s := by
  refine .bind ((keeps_popWord hstack).mpr (.bind ((keeps_popWord rfl).mpr ?_)))
  refine .bind (keeps_allocateMemory ?_ ?_)
  · exact fun s' hstopped => .inl hstopped.failed
  intro gas cost hwindow _
  have hoffset := uint64_ofWord (isUint64_ofWord.mp hwindow.isUint64_offset)
  have hroom : uint64 (ofWord offset) < (s.memory.expand (ofWord offset) 1).bytes.length :=
    s.memory.le_length_expand (ofWord offset) one_ne_zero
  refine keeps_setIndex hroom (.inr ⟨?_, rfl, rfl, rfl⟩)
  have hbyte : UInt8.ofNat (uint64 (ofWord val)) = UInt8.ofNat (val.toNat % 256) := by
    apply UInt8.toNat_inj.mp
    rw [UInt8.toNat_ofNat', UInt8.toNat_ofNat', Nat.mod_mod]
    exact Nat.mod_mod_of_dvd val.toNat (by decide : 256 ∣ 2 ^ 64)
  rw [Slice.image_set hroom, Slice.image_expand hclean, hoffset, hbyte]
  rfl

theorem keeps_copy {charge : Prog Bool}
    (hclean : s.memory.Clean)
    (hcharge : ∀ s₁ (paid : Bool → State → Prop), (∀ s₂, Stopped s₁ s₂ → paid false s₂) →
      (∀ gas, gas + 0 ≤ s₁.gas → paid true { s₁ with gas := gas }) → Keeps env terms charge paid s₁) :
    Keeps env terms (copyToMemory (ofWord memOffset) (ofWord dataOffset) (ofWord length) charge (pure data))
      (fun _ s' => Failed s' ∨ (data.length ≤ 2 ^ 64 → GoesOn (written s.memory.image memOffset.toNat length.toNat
          fun i => data.getD (dataOffset.toNat + i) 0) s.stack s s')) s := by
  refine keeps_copyToMemory 0 (· = data) hcharge ?_ ?_ ?_
  · exact fun s₁ given h => keeps_pure.mpr (h data rfl)
  · exact fun s' hstopped => .inl hstopped.failed
  intro data' gas cost hdata' hwindow _
  rw [hdata', uint64_ofWord (isUint64_ofWord.mp hwindow.isUint64_offset),
    uint64_ofWord (isUint64_ofWord.mp hwindow.isUint64_size)]
  refine .inr fun hdata => ⟨?_, rfl, rfl, rfl⟩
  have hcopied := length_setBytes data length.toNat (ofWord dataOffset)
  have hroom : setBytes data length.toNat (ofWord dataOffset) ≠ [] →
      memOffset.toNat + (setBytes data length.toNat (ofWord dataOffset)).length ≤
        (s.memory.expand (ofWord memOffset) (ofWord length)).bytes.length := by
    intro hsome
    have hne : ofWord length ≠ 0 := by
      intro hzero
      rw [ofWord, Int.natCast_eq_zero] at hzero
      exact hsome (List.eq_nil_of_length_eq_zero (hcopied.trans hzero))
    have hle := s.memory.le_length_expand (ofWord memOffset) hne
    rw [uint64_ofWord (isUint64_ofWord.mp hwindow.isUint64_offset),
      uint64_ofWord (isUint64_ofWord.mp hwindow.isUint64_size)] at hle
    rw [hcopied]
    exact hle
  rw [Slice.image_overwrite hroom, Slice.image_expand hclean, hcopied]
  exact written_congr fun i hi => getD_setBytes hdata hi dataOffset

theorem keeps_copyFrame (hclean : s.memory.Clean)
    (hstack : s.stack = ofWord memOffset :: ofWord dataOffset :: ofWord length :: rest) :
    Keeps env terms (do
      let memOffset ← popWord
      let dataOffset ← popWord
      let length ← popWord
      copyToMemory memOffset dataOffset length (pure true) (pure data))
      (fun _ s' => Failed s' ∨ (data.length ≤ 2 ^ 64 → GoesOn (written s.memory.image memOffset.toNat length.toNat
          fun i => data.getD (dataOffset.toNat + i) 0) rest s s')) s := by
  refine .bind ((keeps_popWord hstack).mpr ?_)
  refine .bind ((keeps_popWord rfl).mpr (.bind ((keeps_popWord rfl).mpr ?_)))
  refine Keeps.mono (keeps_copy hclean ?_) fun _ s' h => h.imp_right fun hcopied hdata => ?_
  · exact fun s₁ paid _ hok => keeps_pure.mpr (hok s₁.gas le_rfl)
  · have hdone := hcopied hdata
    exact ⟨hdone.image, hdone.stack, hdone.err, hdone.stop⟩

theorem follows_pop {k : Option Int → Prog Unit} {v : Int} {result : Except Fault (Unit × State)}
    (hstack : s.stack = v :: rest) (h : Follows Action.exec (.act .pop k) s path result) :
    Follows Action.exec (k (some v)) { s with stack := rest, unused := v :: s.unused } path result := by
  have hpop : Action.exec .pop s = .ok (some v, { s with stack := rest, unused := v :: s.unused }) := by
    simp only [Action.exec, State.pop, hstack]
  cases h with
  | act hop hrest =>
    cases hop.symm.trans hpop
    exact hrest
  | fault hop => cases hop.symm.trans hpop

theorem follows_paying {body : Prog Unit}
    (h : Follows Action.exec (do if ← consumeGas amount then body) s path (.ok ((), s'))) :
    Failed s' ∨ ∃ s₁, Action.exec (.consumeGas amount) s = .ok (true, s₁) ∧
      Follows Action.exec body s₁ path (.ok ((), s')) := by
  cases h with
  | @act _ _ _ s₁ paid _ _ hop hrest =>
    cases paid with
    | true => exact .inr ⟨s₁, hop, hrest⟩
    | false =>
      cases hrest
      rcases Nat.lt_or_ge s.gas amount with hlt | hge
      · cases hop.symm.trans (congrArg Except.ok (s.consumeGas_of_lt hlt))
        exact .inl ⟨rfl, rfl⟩
      · cases hop.symm.trans (congrArg Except.ok (s.consumeGas_of_le hge))

theorem follows_allocating {offset size : Int} {body : Prog Unit}
    (h : Follows Action.exec (do if ← allocateMemory offset size then body) s path (.ok ((), s'))) :
    Failed s' ∨ ∃ s₁, Action.exec (.allocateMemory offset size) s = .ok (true, s₁) ∧
      Follows Action.exec body s₁ path (.ok ((), s')) := by
  cases h with
  | @act _ _ _ s₁ ok _ _ hop hrest =>
    cases ok with
    | true => exact .inr ⟨s₁, hop, hrest⟩
    | false =>
      cases hrest
      exact .inl (allocateMemory_false (Except.ok.inj hop)).1.failed

theorem follows_copyCode {memOffset dataOffset length : Int} {address : Address} (h : Follows Action.exec (copyToMemory memOffset dataOffset length (consumeGas amount)
      (host (.getCode address))) s path (.ok ((), s'))) :
    Failed s' ∨ ∃ code, path = [⟨.host (.getCode address), code⟩] ∧
      Follows Action.exec (copyToMemory memOffset dataOffset length (consumeGas amount) (pure code)) s []
        (.ok ((), s')) := by
  rcases follows_allocating h with hfailed | ⟨s₁, halloc, hpays⟩
  · exact .inl hfailed
  rcases follows_paying hpays with hfailed | ⟨s₂, hwords, hcharges⟩
  · exact .inl hfailed
  rcases follows_paying hcharges with hfailed | ⟨s₃, hcharge, hasks⟩
  · exact .inl hfailed
  cases hasks with
  | @ask _ _ _ code path _ hcopies =>
    obtain rfl : path = [] := by
      split at hcopies
      · cases hcopies with
        | act _ hdone => cases hdone; rfl
      · cases hcopies; rfl
    exact .inr ⟨code, rfl, .act halloc (.act hwords (.act hcharge hcopies))⟩

theorem copied_of_follows (env : Env) (h : Follows Action.exec (copyToMemory (ofWord memOffset) (ofWord dataOffset)
      (ofWord length) (consumeGas amount) (pure data)) s path (.ok ((), s'))) (hclean : s.memory.Clean) :
    Failed s' ∨ (data.length ≤ 2 ^ 64 → GoesOn (written s.memory.image memOffset.toNat length.toNat
        fun i => data.getD (dataOffset.toNat + i) 0) s.stack s s') := by
  have hkeeps : Keeps env (safeTerms s) (copyToMemory (ofWord memOffset) (ofWord dataOffset)
      (ofWord length) (consumeGas amount) (pure data)) _ s := keeps_copy hclean fun s₁ paid hfail hok =>
    keeps_consumeGas (hfail _ (stopped_exit s₁ _)) fun _ => hok _ (Nat.sub_le _ _)
  obtain ⟨_, _, _, hok, hdone⟩ := follows_keeps hkeeps h
  cases hok
  exact hdone

theorem performed_of_extCodeCopy {addr codeOffset : BitVec 256} (hclean : s.memory.Clean)
    (hstack : s.stack = ofWord addr :: ofWord memOffset :: ofWord codeOffset :: ofWord length :: rest)
    (h : Follows Action.exec (opExtCodeCopy env) s path (.ok ((), s'))) :
    Failed s' ∨ ∃ code, path = [⟨.host (.getCode (toAddress (ofWord addr))), code⟩] ∧
      (code.length ≤ 2 ^ 64 → Performed (.extCodeCopy addr memOffset codeOffset length) code rest s s') := by
  have hcopy := follows_pop rfl (follows_pop rfl (follows_pop rfl (follows_pop hstack h)))
  rcases follows_copyCode hcopy with hfailed | ⟨code, rfl, hcopies⟩
  · exact .inl hfailed
  refine (copied_of_follows env hcopies hclean).imp_right fun hcopied => ⟨code, rfl, fun hcode => ?_⟩
  have hdone := hcopied hcode
  exact ⟨hdone.image, hdone.stack, hdone.err, hdone.stop⟩

theorem memory_is_a_byte_array (answer : (request : Request) → Path → request.Answer) (env : Env) (op : MemoryOp)
    (s : State) (rest : List Int) (hstack : s.stack = op.operands.map ofWord ++ rest) (hclean : s.memory.Clean) :
    ∃ s' path, runInstruction answer (op.inst env) s = .ok ((), s', path) ∧
      (Failed s' ∨ ∃ source, op.Source env path source ∧
        (source.length ≤ 2 ^ 64 → Performed op source rest s s')) := by
  -- the source of all but one is known before
  have hknown : ∀ source, (∀ path, op.Source env path source) → Keeps env (safeTerms s) (op.inst env)
        (fun _ s' => Failed s' ∨ (source.length ≤ 2 ^ 64 → Performed op source rest s s')) s →
      ∃ s' path, runInstruction answer (op.inst env) s = .ok ((), s', path) ∧
        (Failed s' ∨ ∃ source, op.Source env path source ∧
          (source.length ≤ 2 ^ 64 → Performed op source rest s s')) := by
    intro source hsource hkeeps
    obtain ⟨s', path, hrun, hdone⟩ := runInstruction_of_keeps answer hkeeps
    exact ⟨s', path, hrun, hdone.imp_right fun h => ⟨source, hsource path, h⟩⟩
  cases op with
  | mload offset =>
    refine hknown [] (fun _ => rfl) ((keeps_mload hclean hstack).mono fun _ s' h => ?_)
    exact h.imp_right fun hdone _ => hdone
  | mstore offset val =>
    refine hknown [] (fun _ => rfl) ((keeps_mstore hclean hstack).mono fun _ s' h => ?_)
    exact h.imp_right fun hdone _ => hdone
  | mstore8 offset val =>
    refine hknown [] (fun _ => rfl) ((keeps_mstore8 hclean hstack).mono fun _ s' h => ?_)
    exact h.imp_right fun hdone _ => hdone
  | callDataCopy memOffset dataOffset length =>
    exact hknown env.msg.input (fun _ => rfl) (keeps_copyFrame hclean hstack)
  | codeCopy memOffset dataOffset length =>
    exact hknown env.msg.code (fun _ => rfl) (keeps_copyFrame hclean hstack)
  | extCodeCopy addr memOffset codeOffset length =>
    obtain ⟨path, result, hfollows, hrun⟩ := follows_run (β := Event) answer (opExtCodeCopy env) s []
    have hkeeps : Keeps env (safeTerms s) (opExtCodeCopy env) (fun _ s' => Paid s s') s :=
      charging_opExtCodeCopy env (safeTerms s) s (by rw [hstack]; simp [MemoryOp.operands])
    obtain ⟨_, _, s', rfl, _⟩ := follows_keeps hkeeps hfollows
    exact ⟨s', path, hrun, performed_of_extCodeCopy hclean hstack hfollows⟩

end Instructions

section Sample

local instance accessGrowth : SliceGrowth := ⟨fun _ _ => 0⟩

theorem memory_is_a_byte_array_mstore : ∃ s' path,
    runInstruction oneByteAnswer (opMStore copyEnv) (copyingState [1, 2 ^ 248]) = .ok ((), s', path) ∧
      s'.memory.image 1 = 1 ∧ s'.memory.image 0 = 0 := by
  have hgoes : (runInstruction oneByteAnswer (opMStore copyEnv) (copyingState [1, 2 ^ 248])).map
      (fun r => r.2.1.err) = .ok none := by decide +kernel
  obtain ⟨s', path, hrun, hdone⟩ := memory_is_a_byte_array oneByteAnswer copyEnv
    (.mstore (BitVec.ofNat 256 1) (BitVec.ofNat 256 (2 ^ 248))) (copyingState [1, 2 ^ 248]) [] (by decide)
    (fun v hv => absurd hv List.not_mem_nil)
  change runInstruction oneByteAnswer (opMStore copyEnv) (copyingState [1, 2 ^ 248]) = _ at hrun
  rw [hrun] at hgoes
  have herr : s'.err = none := Except.ok.inj hgoes
  obtain ⟨source, rfl, hdone⟩ := hdone.resolve_left fun hfailed => by simp [Failed, herr] at hfailed
  have himage := (hdone (Nat.zero_le _)).image
  exact ⟨s', path, hrun, (congrFun himage 1).trans (by decide), (congrFun himage 0).trans (by decide)⟩

end Sample

end Nxchain.Evm
