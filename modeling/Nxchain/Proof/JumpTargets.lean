import Nxchain.Proof.WordArithmetic

namespace Nxchain.Evm

open Prog Word Traced

def immediateSize (op : OpCode) : Nat := if 0x60 ≤ op ∧ op ≤ 0x7f then op.toNat - 0x60 + 1 else 0

inductive ParsedFrom (code : Bytes) : Nat → Nat → Prop
  | here (i : Nat) : ParsedFrom code i i
  | next {i j : Nat} {op : OpCode} : code[i]? = some op → ParsedFrom code (i + 1 + immediateSize op) j →
      ParsedFrom code i j

def JumpTarget (code : Bytes) (dest : Int) : Prop :=
  ∃ i : Nat, dest = i ∧ i < code.length ∧ code[i]? = some 0x5b ∧ ParsedFrom code 0 i

theorem parsedFrom_iff {code : Bytes} {i j : Nat} {op : OpCode} (h : code[i]? = some op) :
    ParsedFrom code i j ↔ i = j ∨ ParsedFrom code (i + 1 + immediateSize op) j := by
  constructor
  · intro hparsed
    cases hparsed with
    | here => exact .inl rfl
    | next hop hrest => exact .inr (Option.some.inj (hop.symm.trans h) ▸ hrest)
  · rintro (rfl | hrest)
    · exact .here i
    · exact .next h hrest

theorem not_parsedFrom {code : Bytes} {i j : Nat} (h : code[i]? = none) (hj : code[j]? ≠ none) :
    ¬ParsedFrom code i j := by
  intro hparsed
  cases hparsed with
  | here => exact hj h
  | next hop => cases h.symm.trans hop

theorem isPushOp_iff {op : OpCode} : Bitmap.isPushOp op = true ↔ 0x60 ≤ op ∧ op ≤ 0x7f := by
  unfold Bitmap.isPushOp
  rw [decide_eq_true_eq, Nat.shiftRight_eq_div_pow, UInt8.le_iff_toNat_le]
  change op.toNat / 32 = 3 ↔ 96 ≤ op.toNat ∧ op.toNat ≤ 127
  omega

namespace Bitmap

def bit (buf : Bytes) (j : Nat) : Bool := (buf[j / 8]?).any (·.toNat.testBit (j % 8))

theorem bit_set {buf : Bytes} {i : Nat} (hi : i / 8 < buf.length) (j : Nat) :
    bit (set buf i) j = (decide (j = i) || bit buf j) := by
  have hpower : (UInt8.ofNat (2 ^ (i % 8))).toNat = 2 ^ (i % 8) := by
    have hlt : 2 ^ (i % 8) < 2 ^ 8 := Nat.pow_lt_pow_right (by decide) (Nat.mod_lt _ (by decide))
    exact UInt8.toNat_ofNat_of_lt' hlt
  unfold bit set bitmapSize
  rw [List.getElem?_modify]
  by_cases hbyte : i / 8 = j / 8
  · have hsome : buf[j / 8]? = some buf[i / 8] := by
      rw [← hbyte]
      exact List.getElem?_eq_getElem hi
    simp only [hsome, if_pos hbyte]
    change (buf[i / 8] ||| UInt8.ofNat (2 ^ (i % 8))).toNat.testBit (j % 8) =
      (decide (j = i) || buf[i / 8].toNat.testBit (j % 8))
    rw [UInt8.toNat_or, Nat.testBit_or, hpower, Nat.testBit_two_pow, Bool.or_comm]
    congr 2
    rw [eq_iff_iff]
    omega
  · have hne : j ≠ i := fun h => hbyte (congrArg (· / 8) h.symm)
    simp [hbyte, hne]

theorem bit_setCodeLoop {code : Bytes} (rounds : Nat) (j : Nat) :
    ∀ i buf, code.length ≤ i + rounds → code.length / 8 < buf.length →
      (bit (setCodeLoop code rounds i buf) j = true ↔
        bit buf j = true ∨ code[j]? = some 0x5b ∧ ParsedFrom code i j) := by
  -- at the end of the code nothing is left to be set
  have hend : ∀ i buf, code[i]? = none →
      (bit buf j = true ↔ bit buf j = true ∨ code[j]? = some 0x5b ∧ ParsedFrom code i j) := by
    intro i buf hi
    refine (or_iff_left ?_).symm
    rintro ⟨hj, hparsed⟩
    exact not_parsedFrom hi (by simp [hj]) hparsed
  induction rounds with
  | zero =>
    intro i buf hlen _
    exact hend i buf (List.getElem?_eq_none hlen)
  | succ rounds ih =>
    intro i buf hlen hbuf
    unfold setCodeLoop
    cases hi : code[i]? with
    | none => exact hend i buf hi
    | some op =>
      rw [parsedFrom_iff hi]
      dsimp only
      by_cases hpush : isPushOp op = true
      · have hsize : i + (op.toNat - 0x60 + 2) = i + 1 + immediateSize op := by
          rw [immediateSize, if_pos (isPushOp_iff.mp hpush)]
          omega
        have hop : op ≠ 0x5b := by
          rintro rfl
          cases hpush
        rw [if_pos hpush, hsize, ih _ _ (by omega) hbuf]
        refine or_congr_right (and_congr_right fun hj => (or_iff_right ?_).symm)
        rintro rfl
        exact hop (Option.some.inj (hi.symm.trans hj))
      · have hsize : immediateSize op = 0 := by
          rw [immediateSize, if_neg (fun h => hpush (isPushOp_iff.mpr h))]
        have hi' : i < code.length := (List.getElem?_eq_some_iff.mp hi).1
        have hroom : i / 8 < buf.length := by omega
        rw [if_neg hpush, hsize]
        by_cases hop : op = 0x5b
        · rw [if_pos hop, ih _ _ (by omega) (by rwa [set, List.length_modify]), bit_set hroom,
            Bool.or_eq_true, decide_eq_true_eq]
          constructor
          · rintro ((rfl | hset) | ⟨hj, hparsed⟩)
            · exact .inr ⟨hop ▸ hi, .inl rfl⟩
            · exact .inl hset
            · exact .inr ⟨hj, .inr hparsed⟩
          · rintro (hset | ⟨hj, rfl | hparsed⟩)
            · exact .inl (.inr hset)
            · exact .inl (.inl rfl)
            · exact .inr ⟨hj, hparsed⟩
        · rw [if_neg hop, ih _ _ (by omega) hbuf]
          refine or_congr_right (and_congr_right fun hj => (or_iff_right ?_).symm)
          rintro rfl
          exact hop (Option.some.inj (hi.symm.trans hj))

theorem isSet_of_lt {buf : Slice} {i : Nat} (h : i / 8 < buf.bytes.length) :
    isSet buf i = .ok (bit buf.bytes i) := by
  unfold isSet Slice.index bit bitmapSize
  rw [List.getElem?_eq_getElem h]
  rfl

theorem bit_setCode [SliceGrowth] {buf : Slice} (hempty : buf.bytes = []) (hclean : buf.Clean) (code : Bytes)
    (j : Nat) : bit (setCode buf code).bytes j = true ↔ code[j]? = some 0x5b ∧ ParsedFrom code 0 j := by
  have hzeros : (buf.extendByteSlice (code.length / bitmapSize + 1)).bytes =
      List.replicate (code.length / 8 + 1) 0 := by
    rw [(Slice.extendByteSlice_eq hclean (by rw [hempty]; exact Nat.zero_le _)).1, hempty]
    rfl
  have hbit : bit (List.replicate (code.length / 8 + 1) 0) j = false := by
    unfold bit
    rw [List.getElem?_replicate]
    split_ifs
    · exact Nat.zero_testBit _
    · rfl
  unfold setCode
  dsimp only
  rw [hzeros, bit_setCodeLoop code.length j 0 _ (by omega) (by simp), hbit]
  exact or_iff_right Bool.false_ne_true

end Bitmap

section Frames

variable [SliceGrowth]

theorem run_isSet {τ : Type} {serve : (request : Request) → τ → Run (request.Answer × τ)} {s : State} {t : τ}
    {i : Nat} {b : Bool} (h : Bitmap.isSet s.bitmap i = .ok b) :
    ((Prog.isSet i).run Action.exec serve s t).outcome = .ok (b, s, t) := by
  have hexec : (Action.isSet i).exec s = .ok (b, s) := by
    change s.look (Bitmap.isSet s.bitmap i) = _
    rw [h]
    rfl
  unfold Prog.isSet Prog.act Program.perform Program.run
  rw [hexec]
  rfl

variable [Keccak] {τ : Type}

inductive FrameState (serve : (request : Request) → τ → Run (request.Answer × τ)) (env : Env) (s₀ : State)
    (t₀ : τ) : State → τ → Prop
  | start : FrameState serve env s₀ t₀ s₀ t₀
  | next {s s' : State} {t t' : τ} : FrameState serve env s₀ t₀ s t → s.stop = false →
      ((step env).run Action.exec serve s t).outcome = .ok ((), s', t') →
      FrameState serve env s₀ t₀ s' t'

variable {serve : (request : Request) → τ → Run (request.Answer × τ)} {env : Env} {s₀ s : State} {t₀ t : τ}

theorem FrameState.loop_outcome (h : FrameState serve env s₀ t₀ s t) :
    ∃ steps, ∀ fuel, (loop serve env (fuel + steps) s₀ t₀).outcome = (loop serve env fuel s t).outcome := by
  induction h with
  | start => exact ⟨0, fun _ => rfl⟩
  | next _ hstop hstep ih =>
    obtain ⟨steps, hsteps⟩ := ih
    refine ⟨steps + 1, fun fuel => ?_⟩
    rw [← Nat.add_assoc, Nat.add_right_comm, hsteps, loop, if_neg (by simp [hstop]), emit_bind, bind_of_ok hstep]

theorem FrameState.bitmap (h : FrameState serve env s₀ t₀ s t) (hready : Ready env s₀) :
    s.bitmap = s₀.bitmap ∧ (s.stop = true ∨ Ready env s) := by
  induction h with
  | start => exact ⟨rfl, .inr hready⟩
  | @next s s' t t' _ hstop hstep ih =>
    have hready' : Ready env s := ih.2.resolve_left (by simp [hstop])
    exact ⟨(stepped_of_run hready' hstep).bitmap.trans ih.1, ready_of_step hready' hstep⟩

theorem jump_targets_are_exact {p : State} (hp : Recycled p) (c : Contract) (config : ForksInTime)
    (hcode : c.code.length ≤ 2 ^ 62) (h : FrameState serve ⟨c, config⟩ (p.start c) t₀ s t) (dest : Int)
    (hdest : 0 ≤ dest ∧ dest < 2 ^ 256) :
    ∃ valid, ((validJumpdest ⟨c, config⟩ dest).run Action.exec serve s t).outcome = .ok (valid, s, t) ∧
      (valid = true ↔ JumpTarget c.code dest) := by
  have hreleased := released_of_recycled hp
  obtain ⟨hbitmap, _⟩ := h.bitmap (ready_start p c config hreleased.ip)
  have hlength : s.bitmap.bytes.length = c.code.length / 8 + 1 := by
    rw [hbitmap]
    exact (ready_start p c config hreleased.ip).bitmap
  by_cases hfar : (63 ≤ bitLen dest || c.code.length ≤ uint64 dest) = true
  · refine ⟨false, ?_, iff_of_false Bool.false_ne_true ?_⟩
    · rw [validJumpdest, if_pos hfar]
      rfl
    · rintro ⟨i, rfl, hi, _⟩
      have hsmall : bitLen (i : Int) ≤ 62 := bitLen_le.mpr (by simpa using hi.trans_le hcode)
      have hlow : uint64 (i : Int) = i := Nat.mod_eq_of_lt (by simp; omega)
      rw [Bool.or_eq_true, decide_eq_true_eq, decide_eq_true_eq, hlow] at hfar
      omega
  · rw [Bool.or_eq_true, decide_eq_true_eq, decide_eq_true_eq, not_or, not_le, not_le] at hfar
    obtain ⟨i, rfl⟩ := Int.eq_ofNat_of_zero_le hdest.1
    have hsmall : (i : Int).natAbs < 2 ^ 62 := bitLen_le.mp (Nat.le_of_lt_succ hfar.1)
    have hlow : uint64 (i : Int) = i := Nat.mod_eq_of_lt (by simp at hsmall ⊢; omega)
    rw [hlow] at hfar
    refine ⟨Bitmap.bit s.bitmap.bytes i, ?_, ?_⟩
    · rw [validJumpdest, if_neg (by simp [hlow]; omega), hlow]
      exact run_isSet (Bitmap.isSet_of_lt (by omega))
    · have hbit : Bitmap.bit s.bitmap.bytes i = true ↔ c.code[i]? = some 0x5b ∧ ParsedFrom c.code 0 i := by
        rw [hbitmap]
        exact Bitmap.bit_setCode hreleased.bitmap hreleased.bitmap_rest c.code i
      rw [hbit]
      constructor
      · rintro ⟨hop, hparsed⟩
        exact ⟨i, rfl, hfar.2, hop, hparsed⟩
      · rintro ⟨j, hij, _, hop, hparsed⟩
        obtain rfl := Int.ofNat_inj.mp hij
        exact ⟨hop, hparsed⟩

end Frames

section Sample

local instance jumpKeccak : Keccak := sampleKeccak

local instance jumpGrowth : SliceGrowth := ⟨fun _ _ => 0⟩

def pushedTarget : Bytes := [0x60, 0x5b, 0x5b]

theorem jump_targets_are_exact_pushedTarget :
    JumpTarget pushedTarget 2 ∧ ∃ s t,
      ((validJumpdest ⟨codeContract pushedTarget, sampleEnv.config⟩ 2).run Action.exec oneByteHost s t).outcome =
        .ok (true, s, t) := by
  have hpush : pushedTarget[0]? = some 0x60 := rfl
  have htarget : JumpTarget pushedTarget 2 := ⟨2, rfl, by decide, rfl, .next hpush (.here 2)⟩
  have hstart : FrameState oneByteHost ⟨codeContract pushedTarget, sampleEnv.config⟩
      (usedState.start (codeContract pushedTarget)) ⟨Txn.newTxn richSnapshot, 0⟩
      (usedState.start (codeContract pushedTarget)) ⟨Txn.newTxn richSnapshot, 0⟩ := .start
  obtain ⟨valid, hrun, hvalid⟩ := jump_targets_are_exact recycled_usedState (codeContract pushedTarget)
    sampleEnv.config (by decide) hstart 2 (by decide)
  rw [hvalid.mpr htarget] at hrun
  exact ⟨htarget, _, _, hrun⟩

end Sample

end Nxchain.Evm
