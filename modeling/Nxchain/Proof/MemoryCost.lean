import Nxchain.Proof.JumpTargets

namespace Nxchain.Evm

open Prog Word Traced

def exactCost (w : Nat) : Nat := 3 * w + w * w / 512

theorem memoryCost_eq {w : Nat} (h : w < 2 ^ 32) : State.memoryCost w = exactCost w := by
  have hsquare : w * w < 2 ^ 64 :=
    calc w * w < 2 ^ 32 * 2 ^ 32 := Nat.mul_lt_mul'' h h
      _ = 2 ^ 64 := by norm_num
  unfold State.memoryCost exactCost
  rw [Nat.mod_eq_of_lt hsquare]
  omega

theorem exactCost_mono {v w : Nat} (h : v ≤ w) : exactCost v ≤ exactCost w := by
  have hsquare : v * v ≤ w * w := Nat.mul_le_mul h h
  unfold exactCost
  omega

theorem le_memoryCost {w : Nat} (h : w < 2 ^ 60) : 3 * w ≤ State.memoryCost w := by
  unfold State.memoryCost
  omega

section Frames

variable [SliceGrowth] {s s' s₀ : State} {charged : Nat} {offset size : Int}

theorem allocateMemory_eq_true (h : s.allocateMemory offset size = (true, s')) :
    isUint64 offset = true ∧ isUint64 size = true ∧
      ((size = 0 ∨ uint64 offset + uint64 size ≤ s.memory.bytes.length) ∧ s' = s ∨
        s.memory.bytes.length < uint64 offset + uint64 size ∧ uint64 offset + uint64 size ≤ 2 * 0xffffffffe0 ∧
          sub64 (State.memoryCost (wordsFor offset size)) s.lastGasCost ≤ s.gas ∧ s' = { s with
            memory := s.memory.extendByteSlice (wordsFor offset size * 32)
            lastGasCost := State.memoryCost (wordsFor offset size)
            gas := s.gas - sub64 (State.memoryCost (wordsFor offset size)) s.lastGasCost }) := by
  have hends := allocateMemory_ends s offset size
  rw [h] at hends
  cases hends with
  | inside hwindow hroom => exact ⟨hwindow.isUint64_offset, hwindow.isUint64_size, .inl ⟨hroom, rfl⟩⟩
  | grown hwindow _ hroom hend hcost hprice hgas =>
    subst hcost hprice
    exact ⟨hwindow.isUint64_offset, hwindow.isUint64_size, .inr ⟨hroom, hend, hgas, rfl⟩⟩

theorem allocateMemory_grows (hoffset : isUint64 offset = true) (hsize : isUint64 size = true) (hzero : size ≠ 0)
    (hlarge : uint64 offset ≤ 0xffffffffe0 ∧ uint64 size ≤ 0xffffffffe0)
    (hroom : s.memory.bytes.length < uint64 offset + uint64 size)
    (hgas : sub64 (State.memoryCost (wordsFor offset size)) s.lastGasCost ≤ s.gas) :
    s.allocateMemory offset size = (true, { s with
      memory := s.memory.extendByteSlice (wordsFor offset size * 32)
      lastGasCost := State.memoryCost (wordsFor offset size)
      gas := s.gas - sub64 (State.memoryCost (wordsFor offset size)) s.lastGasCost }) := by
  have hwords : (uint64 offset + uint64 size + 31) / 32 = wordsFor offset size := rfl
  unfold State.allocateMemory
  rw [if_neg (by simp [hoffset, hsize]), if_neg hzero]
  dsimp only
  rw [if_neg (by simp; omega), if_pos hroom, hwords]
  generalize State.memoryCost (wordsFor offset size) = newCost at hgas ⊢
  rw [State.consumeGas_of_le { s with lastGasCost := newCost } hgas]

theorem allocateMemory_bytes (hclean : s.memory.Clean) (hwords : s.memory.bytes.length % 32 = 0) (hsize : 0 < size)
    (h : s.allocateMemory offset size = (true, s')) :
    s'.memory.bytes.length = max s.memory.bytes.length (wordsFor offset size * 32) ∧
      s'.memory.bytes = s.memory.bytes ++
        List.replicate (s'.memory.bytes.length - s.memory.bytes.length) 0 ∧ s'.memory.Clean := by
  obtain ⟨_, _, ⟨hfits, rfl⟩ | ⟨hroom, _, _, rfl⟩⟩ := allocateMemory_eq_true h
  · have hle := hfits.resolve_left (by omega)
    refine ⟨?_, by simp, hclean⟩
    unfold wordsFor
    omega
  · have hle : s.memory.bytes.length ≤ wordsFor offset size * 32 := by
      unfold wordsFor
      omega
    obtain ⟨hbytes, hclean'⟩ := Slice.extendByteSlice_eq hclean hle
    refine ⟨?_, ?_, hclean'⟩
    · rw [max_eq_right hle]
      exact length_extendByteSlice _ _
    · rw [length_extendByteSlice]
      exact hbytes

inductive Charged (s₀ : State) : State → Nat → Prop
  | start : Charged s₀ s₀ 0
  | allocate {s s' : State} {charged : Nat} {offset size : Int} : Charged s₀ s charged →
      s.allocateMemory offset size = (true, s') → Charged s₀ s' (charged + (s.gas - s'.gas))
  | act {s s' : State} {charged : Nat} {op : Action} {answer : op.Answer} : Charged s₀ s charged →
      (∀ offset size, op ≠ .allocateMemory offset size) → op.Within s ∨ op.Vacuous →
      op.exec s = .ok (answer, s') → Charged s₀ s' charged

structure PaidFor (s : State) (charged : Nat) : Prop where
  clean : s.memory.Clean
  words : s.memory.bytes.length % 32 = 0
  paid : s.memory.bytes.length ≤ 2 ^ 37 - 32 →
    s.lastGasCost = charged ∧ charged = exactCost (s.memory.bytes.length / 32)

theorem PaidFor.allocate (hpaid : PaidFor s charged) (h : s.allocateMemory offset size = (true, s')) :
    PaidFor s' (charged + (s.gas - s'.gas)) := by
  obtain ⟨_, _, ⟨_, rfl⟩ | ⟨hroom, hend, hgas, rfl⟩⟩ := allocateMemory_eq_true h
  · rw [Nat.sub_self]
    exact hpaid
  · have hle : s.memory.bytes.length ≤ wordsFor offset size * 32 := by
      unfold wordsFor
      omega
    refine ⟨(Slice.extendByteSlice_eq hpaid.clean hle).2, ?_, fun hsmall => ?_⟩
    · rw [length_extendByteSlice]
      exact Nat.mul_mod_left _ _
    · rw [length_extendByteSlice] at hsmall
      obtain ⟨hlast, hcharged⟩ := hpaid.paid (hle.trans hsmall)
      have hcost := memoryCost_eq (show wordsFor offset size < 2 ^ 32 by omega)
      have hmono : exactCost (s.memory.bytes.length / 32) ≤ exactCost (wordsFor offset size) :=
        exactCost_mono (by omega)
      have hbound : exactCost (wordsFor offset size) < 2 ^ 64 := hcost ▸ Nat.mod_lt _ (by decide)
      have hprice : sub64 (exactCost (wordsFor offset size)) s.lastGasCost =
          exactCost (wordsFor offset size) - charged := by
        unfold sub64
        omega
      rw [hcost, hprice] at hgas
      rw [length_extendByteSlice, Nat.mul_div_cancel _ (by decide), hcost, hprice]
      dsimp only
      omega

omit [SliceGrowth] in
theorem PaidFor.sized (hpaid : PaidFor s charged) (h : Sized s s') : PaidFor s' charged := by
  refine ⟨?_, h.length ▸ hpaid.words, ?_⟩
  · intro v hv
    exact hpaid.clean v (h.rest ▸ hv)
  · rw [h.length, h.lastGasCost]
    exact hpaid.paid

theorem paidFor_of_charged (h : Charged s₀ s charged) (h₀ : PaidFor s₀ 0) : PaidFor s charged := by
  induction h with
  | start => exact h₀
  | allocate _ halloc ih => exact ih.allocate halloc
  | act _ hother hoblige hexec ih =>
    refine ih.sized ((Action.exec_sized hoblige hexec).resolve_left ?_)
    rintro ⟨offset, size, hop⟩
    exact hother offset size hop

theorem paidFor_start (h : s.Released) (c : Contract) : PaidFor (s.start c) 0 := by
  have hempty : (s.start c).memory.bytes = [] := h.memory
  refine ⟨h.memory_rest, ?_, fun _ => ⟨h.lastGasCost, ?_⟩⟩
  · rw [hempty]
    rfl
  · rw [hempty]
    rfl

theorem PaidFor.length_le (hpaid : PaidFor s charged) (hsmall : s.memory.bytes.length ≤ 2 ^ 37 - 32)
    (hgas : charged + s.gas < 3 * 2 ^ 32) (h : s.allocateMemory offset size = (true, s')) :
    s'.memory.bytes.length ≤ 2 ^ 37 - 32 := by
  obtain ⟨_, _, ⟨_, rfl⟩ | ⟨hroom, hend, hpays, rfl⟩⟩ := allocateMemory_eq_true h
  · exact hsmall
  · rw [length_extendByteSlice]
    by_contra hlarge
    have hlast := (hpaid.paid hsmall).1
    have hcost := le_memoryCost (show wordsFor offset size < 2 ^ 60 by unfold wordsFor; omega)
    have hbound : State.memoryCost (wordsFor offset size) < 2 ^ 64 := Nat.mod_lt _ (by decide)
    unfold sub64 at hpays
    omega

theorem charged_of_exec {op : Action} {answer : op.Answer} (hoblige : op.Within s ∨ op.Vacuous)
    (h : s.stop = true ∨ ∃ charged, Charged s₀ s charged) (hexec : op.exec s = .ok (answer, s')) :
    s'.stop = true ∨ ∃ charged, Charged s₀ s' charged := by
  by_cases hop : ∃ offset size, op = .allocateMemory offset size
  · obtain ⟨offset, size, rfl⟩ := hop
    have halloc : s.allocateMemory offset size = (answer, s') := Except.ok.inj hexec
    cases answer with
    | false => exact .inl (allocateMemory_false halloc).1.stop
    | true =>
      obtain ⟨gas, cost, rfl, _⟩ := allocateMemory_true halloc
      exact h.imp id fun ⟨charged, hcharged⟩ => ⟨_, hcharged.allocate halloc⟩
  · have hsized := (Action.exec_sized hoblige hexec).resolve_left hop
    refine h.imp hsized.stop fun ⟨charged, hcharged⟩ => ⟨charged, ?_⟩
    exact hcharged.act (fun offset size heq => hop ⟨offset, size, heq⟩) hoblige hexec

variable [Keccak] {τ : Type} {serve : (request : Request) → τ → Run (request.Answer × τ)} {t₀ t : τ}

theorem FrameState.exists_charged {env : Env} (h : FrameState serve env s₀ t₀ s t) (hready : Ready env s₀) :
    s.stop = true ∨ ∃ charged, Charged s₀ s charged := by
  induction h with
  | start => exact .inr ⟨0, .start⟩
  | @next s s' t t' hs hstop hstep ih =>
    have hready' : Ready env s := (hs.bitmap hready).2.resolve_left (by simp [hstop])
    exact inv_of_step charged_of_exec hready' ih hstep

theorem frame_pays_for_memory {p : State} (hp : Recycled p) (c : Contract) (config : ForksInTime)
    (h : FrameState serve ⟨c, config⟩ (p.start c) t₀ s t) (hstop : s.stop = false) :
    (∃ steps, ∀ fuel, (loop serve ⟨c, config⟩ (fuel + steps) (p.start c) t₀).outcome =
        (loop serve ⟨c, config⟩ fuel s t).outcome) ∧
      s.memory.Clean ∧ s.memory.bytes.length % 32 = 0 ∧
      (s.memory.bytes.length ≤ 2 ^ 37 - 32 → ∃ charged, Charged (p.start c) s charged ∧
        s.lastGasCost = charged ∧ charged = exactCost (s.memory.bytes.length / 32)) := by
  have hreleased := released_of_recycled hp
  obtain ⟨charged, hcharged⟩ := (h.exists_charged (ready_start p c config hreleased.ip)).resolve_left (by simp [hstop])
  have hpaid := paidFor_of_charged hcharged (paidFor_start hreleased c)
  exact ⟨h.loop_outcome, hpaid.clean, hpaid.words, fun hsmall => ⟨charged, hcharged, hpaid.paid hsmall⟩⟩

theorem memory_is_paid_exactly {p s s' : State} {charged : Nat} {offset size : Int} (hp : Recycled p) (c : Contract)
    (h : Charged (p.start c) s charged) (hsize : 0 < size) (hok : s.allocateMemory offset size = (true, s'))
    (hsmall : s.memory.bytes.length ≤ 2 ^ 37 - 32 ∧ (offset + size ≤ 2 ^ 37 - 32 ∨ charged + s.gas < 3 * 2 ^ 32)) :
    (s'.memory.bytes.length : Int) =
        max (s.memory.bytes.length : Int) ((offset + size + 31) / 32 * 32) ∧
      s'.memory.bytes = s.memory.bytes ++
        List.replicate (s'.memory.bytes.length - s.memory.bytes.length) 0 ∧
      Charged (p.start c) s' (charged + (s.gas - s'.gas)) ∧
      charged + (s.gas - s'.gas) = exactCost (s'.memory.bytes.length / 32) := by
  have hpaid := paidFor_of_charged h (paidFor_start (released_of_recycled hp) c)
  obtain ⟨hlength, hbytes, _⟩ := allocateMemory_bytes hpaid.clean hpaid.words hsize hok
  obtain ⟨hoffset, hsize', _⟩ := allocateMemory_eq_true hok
  have hwords : (wordsFor offset size : Int) = (offset + size + 31) / 32 := by
    unfold wordsFor
    rw [Int.natCast_ediv, Int.natCast_add, Int.natCast_add, coe_uint64 hoffset, coe_uint64 hsize']
    rfl
  have hroom : s'.memory.bytes.length ≤ 2 ^ 37 - 32 := by
    rcases hsmall.2 with hend | hgas
    · omega
    · exact hpaid.length_le hsmall.1 hgas hok
  refine ⟨?_, hbytes, h.allocate hok, ((hpaid.allocate hok).paid hroom).2⟩
  rw [hlength, ← hwords]
  push_cast
  rfl

end Frames

section Sample

local instance memoryKeccak : Keccak := sampleKeccak

local instance memoryGrowth : SliceGrowth := ⟨fun _ _ => 0⟩

def richContract : Contract := { codeContract [] with gas := 2 ^ 34 }

def loadingContract : Contract := codeContract [0x60, 0, 0x51]

theorem frame_pays_for_memory_loadingContract : ∃ s t, FrameState oneByteHost ⟨loadingContract, sampleEnv.config⟩
    (usedState.start loadingContract) ⟨Txn.newTxn richSnapshot, 0⟩ s t ∧ s.lastGasCost = 3 := by
  obtain ⟨s, t, h, hstop, hlength⟩ : ∃ s t, FrameState oneByteHost ⟨loadingContract, sampleEnv.config⟩
      (usedState.start loadingContract) ⟨Txn.newTxn richSnapshot, 0⟩ s t ∧ s.stop = false ∧
      s.memory.bytes.length = 32 := ⟨_, _, .next (.next .start rfl rfl) rfl rfl, rfl, rfl⟩
  obtain ⟨_, _, _, hpaid⟩ := frame_pays_for_memory recycled_usedState _ sampleEnv.config h hstop
  rw [hlength] at hpaid
  obtain ⟨charged, _, hcost, rfl⟩ := hpaid (by decide)
  exact ⟨s, t, h, hcost⟩

theorem memory_is_paid_exactly_firstWord : ∃ s',
    (usedState.start richContract).allocateMemory 3 4 = (true, s') ∧
      s'.memory.bytes = List.replicate 32 0 ∧ 2 ^ 34 - s'.gas = 3 := by
  obtain ⟨s', hok⟩ : ∃ s', (usedState.start richContract).allocateMemory 3 4 = (true, s') := ⟨_, rfl⟩
  obtain ⟨hlength, hbytes, _, hpaid⟩ := memory_is_paid_exactly recycled_usedState richContract .start
    (by decide) hok (by decide)
  have hlength' : s'.memory.bytes.length = 32 := by
    have hmax : max ((usedState.start richContract).memory.bytes.length : Int) ((3 + 4 + 31) / 32 * 32) = 32 := by
      decide
    omega
  rw [hlength'] at hbytes hpaid
  exact ⟨s', hok, hbytes, (Nat.zero_add _).symm.trans hpaid⟩

theorem large_memory_is_cheap : ∃ s' charged,
    (State.new.start richContract).allocateMemory (2 ^ 37 - 1) 1 = (true, s') ∧
      Charged (State.new.start richContract) s' charged ∧ s'.memory.bytes.length = 2 ^ 37 ∧
      charged = 3 * 2 ^ 32 ∧ exactCost (2 ^ 37 / 32) = 3 * 2 ^ 32 + 2 ^ 55 := by
  have hgrows := @allocateMemory_grows _ (State.new.start richContract) (2 ^ 37 - 1) 1 (by decide)
    (by decide) (by decide) (by decide) (by decide) (by decide)
  refine ⟨_, _, hgrows, Charged.start.allocate hgrows, ?_, by decide, by decide⟩
  exact length_extendByteSlice _ _

end Sample

end Nxchain.Evm
