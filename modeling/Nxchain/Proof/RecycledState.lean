import Nxchain.Proof.GasBound

namespace Nxchain.Evm

open Traced Program

def Slice.Clean (b : Slice) : Prop := ∀ v ∈ b.rest, v = 0

namespace Slice

theorem rest_eq_replicate {b : Slice} (h : b.Clean) : b.rest = List.replicate b.rest.length 0 :=
  List.eq_replicate_iff.mpr ⟨rfl, h⟩

theorem slice_of_le {b : Slice} {lo hi : Nat} (h : hi ≤ b.bytes.length) :
    b.slice lo hi = if lo ≤ hi then .ok ((b.bytes.take hi).drop lo) else .error .indexOutOfRange := by
  unfold slice
  by_cases hlo : lo ≤ hi
  · rw [if_pos hlo, if_pos ⟨hlo, h.trans (length_le_cap b)⟩, array, List.take_append_of_le_length h]
  · rw [if_neg hlo, if_neg fun hbounds => hlo hbounds.1]

theorem clean_clear {b : Slice} (h : b.Clean) : b.clear.Clean := by
  intro v hv
  rcases List.mem_append.mp hv with hzero | hrest
  · exact List.eq_of_mem_replicate hzero
  · exact h v hrest

variable [SliceGrowth]

theorem extendByteSlice_eq {b : Slice} (h : b.Clean) {needLen : Nat} (hle : b.bytes.length ≤ needLen) :
    (b.extendByteSlice needLen).bytes = b.bytes ++ List.replicate (needLen - b.bytes.length) 0 ∧
      (b.extendByteSlice needLen).Clean := by
  have harray : ∀ grown, ∃ zeros, b.array ++ List.replicate grown 0 = b.bytes ++ List.replicate zeros 0 ∧
      zeros = b.rest.length + grown := by
    intro grown
    refine ⟨_, ?_, rfl⟩
    rw [array, rest_eq_replicate h, List.append_assoc, ← List.replicate_add, List.length_replicate]
  have hsplit : ∀ zeros, needLen ≤ b.bytes.length + zeros →
      (split (b.bytes ++ List.replicate zeros 0) needLen).bytes =
          b.bytes ++ List.replicate (needLen - b.bytes.length) 0 ∧
        (split (b.bytes ++ List.replicate zeros 0) needLen).Clean := by
    intro zeros hneed
    constructor
    · show (b.bytes ++ List.replicate zeros 0).take needLen = _
      rw [List.take_append, List.take_of_length_le hle, List.take_replicate]
      congr 2
      omega
    · intro v hv
      have hdrop : v ∈ (b.bytes ++ List.replicate zeros 0).drop needLen := hv
      rw [List.drop_append, List.drop_eq_nil_of_le hle] at hdrop
      exact List.eq_of_mem_replicate (List.mem_of_mem_drop hdrop)
  unfold extendByteSlice
  split
  · rename_i hcap
    obtain ⟨zeros, hzeros, hlength⟩ := harray 0
    rw [List.replicate_zero, List.append_nil] at hzeros
    rw [hzeros]
    refine hsplit zeros ?_
    rw [cap, array, List.length_append] at hcap
    omega
  · rename_i hcap
    obtain ⟨zeros, hzeros, hlength⟩ := harray (needLen - b.cap + SliceGrowth.spare b.cap needLen)
    dsimp only
    rw [hzeros]
    refine hsplit zeros ?_
    rw [cap, array, List.length_append] at hcap hlength
    omega

end Slice

structure State.Clean (s : State) : Prop where
  memory : s.memory.Clean
  bitmap : s.bitmap.Clean

def Same (s s' : State) : Prop :=
  ∃ rest rest', s' = { s with memory := ⟨s.memory.bytes, rest⟩, bitmap := ⟨s.bitmap.bytes, rest'⟩ }

structure Alike (s s' : State) : Prop where
  same : Same s s'
  clean : s.Clean
  clean' : s'.Clean

section Runs

variable [SliceGrowth] {s s' s₁ : State} {op : Action} {fuel : Nat}

theorem Slice.clean_expand {b : Slice} (h : b.Clean) (offset size : Int) : (b.expand offset size).Clean := by
  unfold expand
  split
  · exact h
  · exact (extendByteSlice_eq h (by omega)).2

structure Sized (s s' : State) : Prop where
  bitmap : s'.bitmap = s.bitmap
  rest : s'.memory.rest = s.memory.rest
  length : s'.memory.bytes.length = s.memory.bytes.length
  lastGasCost : s'.lastGasCost = s.lastGasCost
  stop : s.stop = true → s'.stop = true

omit [SliceGrowth] in
theorem Sized.refl (s : State) : Sized s s := ⟨rfl, rfl, rfl, rfl, id⟩

omit [SliceGrowth] in
theorem sized_of_store {change : Except Panic Slice} (h : s.store change = .ok ((), s'))
    (hchange : ∀ memory, change = .ok memory →
      memory.rest = s.memory.rest ∧ memory.bytes.length = s.memory.bytes.length) : Sized s s' := by
  cases change with
  | ok memory =>
    cases h
    obtain ⟨hrest, hlength⟩ := hchange memory rfl
    exact ⟨rfl, hrest, hlength, rfl, id⟩
  | error p => cases h

omit [SliceGrowth] in
theorem sized_of_look {α : Type} {result : Except Panic α} {a : α} (h : s.look result = .ok (a, s')) :
    Sized s s' := by
  cases result with
  | ok a =>
    cases h
    exact .refl s
  | error p => cases h

theorem Action.exec_sized {answer : op.Answer} (hoblige : op.Within s ∨ op.Vacuous)
    (h : op.exec s = .ok (answer, s')) : (∃ offset size, op = .allocateMemory offset size) ∨ Sized s s' := by
  cases op with
  | allocateMemory offset size => exact .inl ⟨offset, size, rfl⟩
  | top | push | stackSize | gas | addGas | ip | setIp | memorySize | tmp | setTmp | setRet
  | returnData | setReturnData =>
    cases h
    exact .inr ⟨rfl, rfl, rfl, rfl, id⟩
  | exit | halt =>
    cases h
    exact .inr ⟨rfl, rfl, rfl, rfl, fun _ => rfl⟩
  | panic p => cases h
  | pop =>
    have hpop := (Prod.ext_iff.mp (Except.ok.inj h)).2
    rw [← show s.pop.2 = s' from hpop]
    unfold State.pop
    split <;> exact .inr ⟨rfl, rfl, rfl, rfl, id⟩
  | setTop v =>
    simp only [Action.exec] at h
    split at h
    · cases h
    · cases h
      exact .inr ⟨rfl, rfl, rfl, rfl, id⟩
  | peekAt n =>
    simp only [Action.exec] at h
    split at h
    · cases h
    · cases h
      exact .inr (.refl s)
  | swap n =>
    simp only [Action.exec, State.swap] at h
    split at h
    · cases h
    · rename_i s₁ hswap
      cases h
      split at hswap
      · cases hswap
        exact .inr ⟨rfl, rfl, rfl, rfl, id⟩
      · cases hswap
  | consumeGas amount =>
    have hpay := (Prod.ext_iff.mp (Except.ok.inj h)).2
    rw [← show (s.consumeGas amount).2 = s' from hpay]
    unfold State.consumeGas
    split
    · exact .inr ⟨rfl, rfl, rfl, rfl, fun _ => rfl⟩
    · exact .inr ⟨rfl, rfl, rfl, rfl, id⟩
  | slice lo hi => exact .inr (sized_of_look h)
  | isSet i => exact .inr (sized_of_look h)
  | copySlice lo hi data =>
    refine .inr (sized_of_store h fun memory hcopy => ?_)
    rcases hoblige with hwithin | rfl
    · have hlo : lo ≤ hi := by
        by_contra hlo
        rw [Slice.copySlice, if_neg fun h => hlo h.1] at hcopy
        cases hcopy
      replace hwithin : hi ≤ s.memory.bytes.length := hwithin
      rw [Slice.copySlice_of_le hlo hwithin] at hcopy
      cases hcopy
      refine ⟨rfl, Slice.length_overwrite ?_⟩
      rw [List.length_take]
      omega
    · rw [Slice.copySlice_self hcopy]
      exact ⟨rfl, rfl⟩
  | copyTail lo data =>
    refine .inr (sized_of_store h fun memory hcopy => ?_)
    unfold Slice.copyTail at hcopy
    split_ifs at hcopy
    cases hcopy
    refine ⟨rfl, Slice.length_overwrite ?_⟩
    rw [List.length_take]
    omega
  | setTail lo data =>
    refine .inr (sized_of_store h fun memory hset => ?_)
    unfold Slice.setTail at hset
    split_ifs at hset with hfits
    cases hset
    exact ⟨rfl, Slice.length_overwrite hfits⟩
  | setIndex i v =>
    refine .inr (sized_of_store h fun memory hset => ?_)
    unfold Slice.setIndex at hset
    split_ifs at hset
    cases hset
    exact ⟨rfl, List.length_set⟩

theorem Action.exec_clean {answer : op.Answer} (hoblige : op.Within s ∨ op.Vacuous) (hclean : s.Clean)
    (h : op.exec s = .ok (answer, s')) : s'.Clean := by
  rcases exec_sized hoblige h with ⟨offset, size, rfl⟩ | hsized
  · have halloc : s.allocateMemory offset size = (answer, s') := Except.ok.inj h
    cases answer with
    | false =>
      obtain ⟨hstopped, hmemory⟩ := allocateMemory_false halloc
      exact ⟨hmemory ▸ hclean.memory, hstopped.bitmap ▸ hclean.bitmap⟩
    | true =>
      obtain ⟨gas, cost, rfl, _⟩ := allocateMemory_true halloc
      exact ⟨Slice.clean_expand hclean.memory offset size, hclean.bitmap⟩
  · refine ⟨?_, hsized.bitmap ▸ hclean.bitmap⟩
    intro v hv
    exact hclean.memory v (hsized.rest ▸ hv)

omit [SliceGrowth] in
theorem Alike.bytes (h : Alike s s') : s'.memory.bytes = s.memory.bytes := by
  obtain ⟨_, _, rfl⟩ := h.same
  rfl

theorem same_allocateMemory (halike : Alike s s') (offset size : Int) :
    Agree Same ((Action.allocateMemory offset size).exec s)
      ((Action.allocateMemory offset size).exec s') := by
  have hsame := halike.same
  have hexit : ∀ err, Same (s.exit err) (s'.exit err) := by
    obtain ⟨rest, rest', rfl⟩ := hsame
    exact fun err => ⟨rest, rest', rfl⟩
  -- the second state stays a variable, as long as there are prices to be compared
  have hlength : s'.memory.bytes.length = s.memory.bytes.length := by rw [halike.bytes]
  obtain ⟨hgas', hcost'⟩ : s'.gas = s.gas ∧ s'.lastGasCost = s.lastGasCost := by
    obtain ⟨rest, rest', rfl⟩ := hsame
    exact ⟨rfl, rfl⟩
  change Agree Same (Except.ok (s.allocateMemory offset size)) (Except.ok (s'.allocateMemory offset size))
  unfold State.allocateMemory
  by_cases huint : (!Word.isUint64 offset || !Word.isUint64 size) = true
  · rw [if_pos huint, if_pos huint]
    exact .ok _ (hexit _)
  rw [if_neg huint, if_neg huint]
  by_cases hzero : size = 0
  · rw [if_pos hzero, if_pos hzero]
    exact .ok _ hsame
  rw [if_neg hzero, if_neg hzero]
  dsimp only
  by_cases hlarge : (0xffffffffe0 < Word.uint64 offset || 0xffffffffe0 < Word.uint64 size) = true
  · rw [if_pos hlarge, if_pos hlarge]
    exact .ok _ (hexit _)
  rw [if_neg hlarge, if_neg hlarge, hlength, hcost']
  by_cases hroom : s.memory.bytes.length < Word.uint64 offset + Word.uint64 size
  · rw [if_pos hroom, if_pos hroom]
    have hle : s.memory.bytes.length ≤ (Word.uint64 offset + Word.uint64 size + 31) / 32 * 32 := by omega
    generalize State.memoryCost ((Word.uint64 offset + Word.uint64 size + 31) / 32) = newCost
    generalize sub64 newCost s.lastGasCost = price
    generalize (Word.uint64 offset + Word.uint64 size + 31) / 32 * 32 = needLen at hle ⊢
    by_cases hgas : s.gas < price
    · rw [State.consumeGas_of_lt { s with lastGasCost := newCost } hgas,
        State.consumeGas_of_lt { s' with lastGasCost := newCost } (hgas'.trans_lt hgas)]
      obtain ⟨rest, rest', rfl⟩ := hsame
      exact .ok _ ⟨rest, rest', rfl⟩
    · rw [State.consumeGas_of_le { s with lastGasCost := newCost } (not_lt.mp hgas),
        State.consumeGas_of_le { s' with lastGasCost := newCost } ((not_lt.mp hgas).trans_eq hgas'.symm)]
      have hbytes : (s'.memory.extendByteSlice needLen).bytes = (s.memory.extendByteSlice needLen).bytes := by
        rw [(Slice.extendByteSlice_eq halike.clean'.memory (hlength.trans_le hle)).1, halike.bytes,
          (Slice.extendByteSlice_eq halike.clean.memory hle).1]
      obtain ⟨rest, rest', rfl⟩ := hsame
      refine .ok true ⟨(Slice.extendByteSlice ⟨s.memory.bytes, rest⟩ needLen).rest, rest', ?_⟩
      dsimp only at hbytes ⊢
      rw [← hbytes]
  · rw [if_neg hroom, if_neg hroom]
    exact .ok _ hsame

theorem Action.exec_same (halike : Alike s s') (hwithin : op.Within s) : Agree Same (op.exec s) (op.exec s') := by
  obtain ⟨⟨rest, rest', rfl⟩, hclean, hclean'⟩ := halike
  have hstore : ∀ (c : Prop) [Decidable c] (bytes : Bytes),
      Agree Same (s.store (if c then .ok ⟨bytes, s.memory.rest⟩ else .error .indexOutOfRange))
        (State.store { s with memory := ⟨s.memory.bytes, rest⟩, bitmap := ⟨s.bitmap.bytes, rest'⟩ }
          (if c then .ok ⟨bytes, rest⟩ else .error .indexOutOfRange)) := by
    intro c _ bytes
    split_ifs
    · exact .ok () ⟨rest, rest', rfl⟩
    · exact .error _
  cases op with
  | top | push | stackSize | gas | addGas | exit | halt | ip | setIp | memorySize | tmp | setTmp | setRet
  | returnData | setReturnData => exact .ok _ ⟨rest, rest', rfl⟩
  | panic p => exact .error _
  | pop =>
    simp only [Action.exec, State.pop]
    split <;> exact .ok _ ⟨rest, rest', rfl⟩
  | setTop v =>
    simp only [Action.exec]
    cases s.stack with
    | nil => exact .error _
    | cons w below => exact .ok _ ⟨rest, rest', rfl⟩
  | peekAt n =>
    have hpeek : State.peekAt { s with memory := ⟨s.memory.bytes, rest⟩, bitmap := ⟨s.bitmap.bytes, rest'⟩ } n =
        s.peekAt n := rfl
    simp only [Action.exec, hpeek]
    cases s.peekAt n with
    | none => exact .error _
    | some v => exact .ok _ ⟨rest, rest', rfl⟩
  | swap n =>
    simp only [Action.exec, State.swap]
    cases s.stack[0]? with
    | none => exact .error _
    | some v =>
      cases s.stack[n]? with
      | none => exact .error _
      | some w => exact .ok _ ⟨rest, rest', rfl⟩
  | consumeGas amount =>
    simp only [Action.exec, State.consumeGas]
    split <;> exact .ok _ ⟨rest, rest', rfl⟩
  | allocateMemory offset size => exact same_allocateMemory ⟨⟨rest, rest', rfl⟩, hclean, hclean'⟩ offset size
  | slice lo hi =>
    have hslice : Slice.slice ⟨s.memory.bytes, rest⟩ lo hi = s.memory.slice lo hi := by
      rw [Slice.slice_of_le hwithin, Slice.slice_of_le (b := ⟨s.memory.bytes, rest⟩) hwithin]
    simp only [Action.exec, hslice]
    cases s.memory.slice lo hi with
    | ok data => exact .ok _ ⟨rest, rest', rfl⟩
    | error p => exact .error _
  | isSet i =>
    have hset : Bitmap.isSet ⟨s.bitmap.bytes, rest'⟩ i = Bitmap.isSet s.bitmap i := rfl
    simp only [Action.exec, hset]
    cases Bitmap.isSet s.bitmap i with
    | ok bit => exact .ok _ ⟨rest, rest', rfl⟩
    | error p => exact .error _
  | copySlice lo hi data =>
    by_cases hlo : lo ≤ hi
    · simp only [Action.exec, Slice.copySlice_of_le hlo hwithin,
        Slice.copySlice_of_le (b := ⟨s.memory.bytes, rest⟩) hlo hwithin]
      exact .ok () ⟨rest, rest', rfl⟩
    · simp only [Action.exec, Slice.copySlice, hlo]
      exact .error _
  | copyTail lo data => exact hstore _ _
  | setTail lo data => exact hstore _ _
  | setIndex i v => exact hstore _ _

theorem Action.exec_alike (halike : Alike s s') (hwithin : op.Within s) : Agree Alike (op.exec s) (op.exec s') := by
  have hwithin' : op.Within s' := by
    cases op <;> first | trivial | exact hwithin.trans_eq (congrArg List.length halike.bytes).symm
  have hclean : ∀ answer s₁, op.exec s = .ok (answer, s₁) → s₁.Clean :=
    fun answer s₁ => exec_clean (.inl hwithin) halike.clean
  have hclean' : ∀ answer s₁, op.exec s' = .ok (answer, s₁) → s₁.Clean :=
    fun answer s₁ => exec_clean (.inl hwithin') halike.clean'
  have hsame := exec_same halike hwithin
  generalize op.exec s = result at hsame hclean
  generalize op.exec s' = result' at hsame hclean'
  cases hsame with
  | ok answer hsame => exact .ok answer ⟨hsame, hclean answer _ rfl, hclean' answer _ rfl⟩
  | error e => exact .error e

variable [Keccak] {env : Env} {τ : Type} {serve : (request : Request) → τ → Run (request.Answer × τ)}
  {t t₁ : τ}

def Overreaching (config : ForksInTime) (c : Contract) (s : State) : Prop :=
  (opAt ⟨c, config⟩ s).any (overreaches · s) = true

omit [SliceGrowth] [Keccak] in
theorem returns_unmetered (request : Request) (answer : request.Answer) (s : State) :
    (promise env (stepTerms env False s)).returns request answer := by
  cases request with
  | host call => exact trivial
  | callx c => exact False.elim

theorem step_alike (halike : Alike s s') (hready : Ready env s) (hreach : ¬Overreaching env.config env.msg s) :
    Agree (fun x y => Alike x.1 y.1 ∧ x.2 = y.2)
      ((step env).run Action.exec serve s t).outcome
      ((step env).run Action.exec serve s' t).outcome := by
  refine (run_related ?_ (returns_unmetered · · s) (keeps_step hready False.elim) halike).2
  intro op s₁ s₁' halike₁ hoblige
  exact Action.exec_alike halike₁ (hoblige.1.resolve_right fun hvacuous => hreach hvacuous.1)

section

variable (hready : Ready env s) (h : ((step env).run Action.exec serve s t).outcome = .ok ((), s₁, t₁))

include hready h

theorem stepped_of_run : Stepped False s s₁ := by
  have hkept : Keeps env (stepTerms env False s) (step env) (fun _ s' => Stepped False s s') s :=
    keeps_step hready False.elim
  have hstepped := post_of_run (returns_unmetered · · s) hkept h
  exact hstepped

theorem ready_of_step : s₁.stop = true ∨ Ready env s₁ := by
  have hstepped := stepped_of_run hready h
  refine hstepped.ip.imp_right fun hip => ⟨hip, ?_⟩
  rw [hstepped.bitmap]
  exact hready.bitmap

end

theorem inv_of_step {inv : State → Prop}
    (hexec : ∀ {op : Action} {s s' : State} {answer : op.Answer}, op.Within s ∨ op.Vacuous → inv s →
      op.exec s = .ok (answer, s') → inv s') (hready : Ready env s) (hinv : inv s)
    (h : ((step env).run Action.exec serve s t).outcome = .ok ((), s₁, t₁)) : inv s₁ := by
  have hkept : Keeps env (stepTerms env False s) (step env) (fun _ s' => Stepped False s s' ∧ inv s') s := by
    refine wp_invariant (fun op s₁ hinv₁ hoblige => ?_) (keeps_step hready False.elim) hinv
    cases hop : op.exec s₁ with
    | ok result => exact hexec (hoblige.1.imp_right And.right) hinv₁ hop
    | error e => exact trivial
  exact (post_of_run (returns_unmetered · · s) hkept h).2

inductive EndAlike : Except Fault (State × τ) → Except Fault (State × τ) → Prop
  | ok {s s' : State} (t : τ) : Alike s s' → EndAlike (.ok (s, t)) (.ok (s', t))
  | error (e : Fault) : EndAlike (.error e) (.error e)

theorem loop_alike (halike : Alike s s') (hready : s.stop = true ∨ Ready env s)
    (hreach : ∀ s₁, .step env.msg s₁ ∈ (loop serve env fuel s t).trace → ¬Overreaching env.config env.msg s₁) :
    EndAlike (loop serve env fuel s t).outcome (loop serve env fuel s' t).outcome := by
  induction fuel generalizing s s' t with
  | zero => exact .error _
  | succ fuel ih =>
    have hstop' : s'.stop = s.stop := by
      obtain ⟨_, _, rfl⟩ := halike.same
      rfl
    unfold loop at hreach ⊢
    rw [hstop']
    by_cases hstop : s.stop = true
    · rw [if_pos hstop, if_pos hstop]
      exact .ok t halike
    rw [if_neg hstop, emit_bind] at hreach
    rw [if_neg hstop, if_neg hstop, emit_bind]
    replace hready := hready.resolve_left hstop
    have hstep : Agree _ ((step env).run Action.exec serve s t).outcome _ :=
      step_alike halike hready (hreach s List.mem_cons_self)
    generalize hout : ((step env).run Action.exec serve s t).outcome = out at hstep
    generalize hout' : ((step env).run Action.exec serve s' t).outcome = out' at hstep
    cases hstep with
    | error e =>
      rw [bind_of_error hout, bind_of_error hout']
      exact .error e
    | @ok a next next' hrel =>
      obtain ⟨s₁, t₁⟩ := next
      obtain ⟨halike₁, rfl⟩ := hrel
      rw [bind_of_ok hout] at hreach
      rw [bind_of_ok hout, bind_of_ok hout']
      refine ih halike₁ (ready_of_step hready hout) fun s₂ hs₂ => hreach s₂ ?_
      exact List.mem_cons_of_mem _ (List.mem_append_right _ hs₂)

theorem loop_clean (hready : s.stop = true ∨ Ready env s) (hclean : s.Clean)
    (h : (loop serve env fuel s t).outcome = .ok (s₁, t₁)) : s₁.Clean := by
  induction fuel generalizing s t with
  | zero => cases h
  | succ fuel ih =>
    unfold loop at h
    by_cases hstop : s.stop = true
    · rw [if_pos hstop] at h
      cases h
      exact hclean
    rw [if_neg hstop, emit_bind] at h
    obtain ⟨⟨_, s₂, t₂⟩, hstep, hrest⟩ := bind_outcome_eq_ok h
    replace hready := hready.resolve_left hstop
    exact ih (ready_of_step hready hstep) (inv_of_step Action.exec_clean hready hclean hstep) hrest

omit [SliceGrowth] [Keccak] in
theorem released_new : State.new.Released := by constructor <;> first | rfl | exact fun b hb => nomatch hb

omit [SliceGrowth] [Keccak] in
theorem released_reset (h : s.Clean) : s.reset.Released := by
  constructor <;> first | rfl | skip
  · exact Slice.clean_clear h.memory
  · exact Slice.clean_clear h.bitmap

omit [Keccak] in
theorem clean_start (h : s.Released) (c : Contract) : (s.start c).Clean := by
  refine ⟨h.memory_rest, ?_⟩
  have hle : s.bitmap.bytes.length ≤ c.code.length / Bitmap.bitmapSize + 1 := by
    rw [h.bitmap]
    exact Nat.zero_le _
  exact (Slice.extendByteSlice_eq (b := s.bitmap) h.bitmap_rest hle).2

omit [Keccak] in
theorem alike_start (h : s.Released) (h' : s'.Released) (c : Contract) : Alike (s.start c) (s'.start c) := by
  refine ⟨⟨(s'.start c).memory.rest, (s'.start c).bitmap.rest, ?_⟩, clean_start h c, clean_start h' c⟩
  have hbitmap : (s'.start c).bitmap.bytes = (s.start c).bitmap.bytes := by
    have hextend : ∀ b : Slice, b.bytes = [] → b.Clean → ∀ needLen,
        (b.extendByteSlice needLen).bytes = List.replicate needLen 0 := by
      intro b hb hclean needLen
      rw [(Slice.extendByteSlice_eq hclean (by rw [hb]; exact Nat.zero_le _)).1, hb]
      rfl
    show Bitmap.setCodeLoop _ _ _ _ = Bitmap.setCodeLoop _ _ _ _
    rw [hextend _ h.bitmap h.bitmap_rest, hextend _ h'.bitmap h'.bitmap_rest]
  have hmemory : (s'.start c).memory.bytes = (s.start c).memory.bytes := h'.memory.trans h.memory.symm
  rw [← hbitmap, ← hmemory]
  simp only [State.start, h.ip, h'.ip, h.tmp, h'.tmp, h.lastGasCost, h'.lastGasCost, h.stack, h'.stack,
    h.unused, h'.unused, h.err, h'.err, h.stop, h'.stop, h.ret, h'.ret]

theorem released_of_runOn {config : ForksInTime} {c : Contract} {result : Runtime.ExecutionResult} (hs : s.Released)
    (h : (runOn serve config fuel s c t).outcome = .ok (result, s₁, t₁)) : s₁.Released := by
  obtain ⟨⟨s₂, t₂⟩, hloop, hreturn⟩ := bind_outcome_eq_ok h
  cases hreturn
  exact released_reset (loop_clean (.inr (ready_start s c config hs.ip)) (clean_start hs c) hloop)

inductive Recycled : State → Prop
  | new : Recycled State.new
  | released {τ : Type} {serve : (request : Request) → τ → Run (request.Answer × τ)}
      {config : ForksInTime} {fuel : Nat} {s s₁ : State} {c : Contract} {t t₁ : τ}
      {result : Runtime.ExecutionResult} :
      Recycled s → (runOn serve config fuel s c t).outcome = .ok (result, s₁, t₁) → Recycled s₁

theorem released_of_recycled (h : Recycled s) : s.Released := by
  induction h with
  | new => exact released_new
  | released _ hrun ih => exact released_of_runOn ih hrun

def recording (serve : (request : Request) → τ → Run (request.Answer × τ)) (request : Request)
    (t : τ × List Request) : Run (request.Answer × (τ × List Request)) := do
  let (answer, t') ← serve request t.1
  return (answer, (t', t.2 ++ [request]))

def observed (config : ForksInTime) (serve : (request : Request) → τ → Run (request.Answer × τ))
    (fuel : Nat) (s : State) (c : Contract) (t : τ) :
    Except Fault (Runtime.ExecutionResult × τ × List Request) :=
  (runOn (recording serve) config fuel s c (t, [])).outcome.map fun (result, _, t') => (result, t')

theorem recycled_state_is_new {s : State} (hs : Recycled s)
    (serve : (request : Request) → τ → Run (request.Answer × τ)) (config : ForksInTime) (fuel : Nat)
    (c : Contract) (t : τ)
    (hreach : ∀ s₁, .step c s₁ ∈ (runOn (recording serve) config fuel .new c (t, [])).trace →
      ¬Overreaching config c s₁) :
    observed config serve fuel s c t = observed config serve fuel .new c t := by
  have halike := alike_start released_new (released_of_recycled hs) c
  have hrun : ∀ s, runOn (recording serve) config fuel s c (t, []) =
      ⟨(loop (recording serve) ⟨c, config⟩ fuel (s.start c) (t, [])).trace,
        (loop (recording serve) ⟨c, config⟩ fuel (s.start c) (t, [])).outcome.map fun p =>
          (p.1.result, p.1.reset, p.2)⟩ := fun s => bind_pure_eq _ _
  rw [hrun] at hreach
  have hend := loop_alike halike (.inr (ready_start .new c config rfl)) hreach
  unfold observed
  rw [hrun, hrun]
  generalize (loop (recording serve) ⟨c, config⟩ fuel (State.new.start c) (t, [])).outcome = out at hend
  generalize (loop (recording serve) ⟨c, config⟩ fuel (s.start c) (t, [])).outcome = out' at hend
  cases hend with
  | ok t' halike' =>
    obtain ⟨_, _, rfl⟩ := halike'.same
    rfl
  | error e => rfl

end Runs

section Sample

local instance poolKeccak : Keccak := sampleKeccak

local instance poolGrowth : SliceGrowth := ⟨fun _ _ => 0⟩

def oneByteHost : (request : Request) → World → Run (request.Answer × World) :=
  serve sampleEnv fun _ w => Traced.pure (⟨[1], 0, none⟩, w)

def codeContract (code : Bytes) : Contract :=
  Contract.newContractCall 1 (FixedBytes.ofBytes 20 [1]) (FixedBytes.ofBytes 20 [1])
    (FixedBytes.ofBytes 20 [32]) none 1000 code []

def usedState : State :=
  { State.new with memory := ⟨[], List.replicate 32 0⟩, bitmap := ⟨[], [0]⟩ }

theorem recycled_usedState : Recycled usedState := by
  have hrun : (runOn oneByteHost sampleEnv.config 5 .new (codeContract [0x60, 0x05, 0x60, 0x00, 0x52])
      ⟨Txn.newTxn richSnapshot, 0⟩).outcome.toOption.map (·.2.1) = some usedState := by decide +kernel
  obtain ⟨⟨result, s, w⟩, hrun, rfl⟩ := Option.map_eq_some_iff.mp hrun
  exact .released .new (Except.toOption_eq_some_iff.mp hrun)

def wordsContract : Contract :=
  codeContract [0x60, 0x07, 0x60, 0x20, 0x52, 0x60, 0x40, 0x60, 0x00, 0xf3]

theorem recycled_state_is_new_wordsContract :
    observed sampleEnv.config oneByteHost 9 usedState wordsContract ⟨Txn.newTxn richSnapshot, 0⟩ =
      observed sampleEnv.config oneByteHost 9 .new wordsContract ⟨Txn.newTxn richSnapshot, 0⟩ := by
  refine recycled_state_is_new recycled_usedState oneByteHost sampleEnv.config 9 wordsContract _ ?_
  have hsafe : (runOn (recording oneByteHost) sampleEnv.config 9 .new wordsContract
      (⟨Txn.newTxn richSnapshot, 0⟩, [])).trace.all (Event.isStepSafe sampleEnv.config) = true := by
    decide +kernel
  intro s hs hreach
  have hstep := List.all_eq_true.mp hsafe _ hs
  simp only [Event.isStepSafe, Bool.and_eq_true, Bool.not_eq_true'] at hstep
  rw [Overreaching, hstep.1] at hreach
  cases hreach

def carelessContract : Contract :=
  codeContract [0x60, 0x00, 0x60, 0x01, 0x60, 0x00, 0x60, 0x00, 0x60, 0x05, 0x60, 0x00, 0xfa]

theorem carelessContract_differs :
    (observed sampleEnv.config oneByteHost 9 .new carelessContract
        ⟨Txn.newTxn richSnapshot, 0⟩).map (fun _ => ()) = .error (.panic .indexOutOfRange) ∧
      Recycled usedState ∧
      (observed sampleEnv.config oneByteHost 9 usedState carelessContract
        ⟨Txn.newTxn richSnapshot, 0⟩).map (fun _ => ()) = .ok () := by
  refine ⟨?_, recycled_usedState, ?_⟩ <;> decide +kernel

end Sample

end Nxchain.Evm
