import Nxchain.Evm.Interpreter

namespace Nxchain.Evm

open Prog Word

theorem State.consumeGas_of_lt (s : State) {amount : Nat} (h : s.gas < amount) :
    s.consumeGas amount = (false, s.exit .outOfGas) := if_pos h

theorem State.consumeGas_of_le (s : State) {amount : Nat} (h : amount ≤ s.gas) :
    s.consumeGas amount = (true, { s with gas := s.gas - amount }) := if_neg (not_lt.mpr h)

structure Moves (s s' : State) : Prop where
  bitmap : s'.bitmap = s.bitmap
  ip : s'.ip = s.ip
  gas : s'.gas ≤ s.gas

theorem Moves.refl (s : State) : Moves s s := ⟨rfl, rfl, le_rfl⟩

theorem Moves.trans {s s' s'' : State} (h : Moves s s') (h' : Moves s' s'') : Moves s s'' :=
  ⟨h'.bitmap.trans h.bitmap, h'.ip.trans h.ip, h'.gas.trans h.gas⟩

structure Stopped (s s' : State) : Prop extends Moves s s' where
  stop : s'.stop = true
  err : s'.err.isSome = true

def Failed (s : State) : Prop := s.stop = true ∧ s.err.isSome = true

theorem Stopped.failed {s s' : State} (h : Stopped s s') : Failed s' := ⟨h.stop, h.err⟩

theorem Moves.stopped {s s' s'' : State} (h : Moves s s') (h' : Stopped s' s'') : Stopped s s'' :=
  ⟨h.trans h'.toMoves, h'.stop, h'.err⟩

theorem stopped_exit (s : State) (err : Runtime.Error) : Stopped s (s.exit err) :=
  ⟨⟨rfl, rfl, le_rfl⟩, rfl, rfl⟩

structure Window (offset size : Int) : Prop where
  isUint64_offset : isUint64 offset = true
  isUint64_size : isUint64 size = true
  lt : size ≠ 0 → uint64 offset + uint64 size < 2 ^ 64

theorem isUint64_iff {x : Int} : isUint64 x = true ↔ 0 ≤ x ∧ x < 2 ^ 64 := by
  unfold isUint64
  rw [Bool.and_eq_true, decide_eq_true_eq, decide_eq_true_eq]

theorem coe_uint64 {x : Int} (h : isUint64 x = true) : (uint64 x : Int) = x := by
  rw [isUint64_iff] at h
  unfold uint64
  omega

theorem uint64_lt (x : Int) : uint64 x < 2 ^ 64 := Nat.mod_lt _ (Nat.two_pow_pos 64)

theorem length_le_cap (b : Slice) : b.bytes.length ≤ b.cap := by
  rw [Slice.cap, Slice.array, List.length_append]
  omega

namespace Slice

theorem length_overwrite {array : Bytes} {lo : Nat} {data : Bytes} (h : lo + data.length ≤ array.length) :
    (overwrite array lo data).length = array.length := by
  unfold overwrite
  simp only [List.length_append, List.length_take, List.length_drop]
  omega

theorem overwrite_nil (array : Bytes) (lo : Nat) : overwrite array lo [] = array := by
  rw [overwrite, List.append_nil, List.length_nil, Nat.add_zero, List.take_append_drop]

theorem overwrite_append {array : Bytes} {lo : Nat} {data : Bytes} (h : lo + data.length ≤ array.length)
    (rest : Bytes) : overwrite (array ++ rest) lo data = overwrite array lo data ++ rest := by
  unfold overwrite
  rw [List.take_append_of_le_length (by omega), List.drop_append_of_le_length h, List.append_assoc _ _ rest]

theorem getElem?_overwrite {array : Bytes} {lo : Nat} {data : Bytes} (h : lo + data.length ≤ array.length)
    (i : Nat) :
    (overwrite array lo data)[i]? =
      if lo ≤ i ∧ i < lo + data.length then data[i - lo]? else array[i]? := by
  unfold overwrite
  have htake : (array.take lo).length = lo := List.length_take_of_le (by omega)
  rcases Nat.lt_or_ge i lo with hlt | hge
  · rw [if_neg (by omega), List.append_assoc, List.getElem?_append_left (by omega), List.getElem?_take_of_lt hlt]
  rw [List.append_assoc, List.getElem?_append_right (by omega), htake]
  rcases Nat.lt_or_ge i (lo + data.length) with hlt | hge'
  · rw [if_pos ⟨hge, hlt⟩, List.getElem?_append_left (by omega)]
  · rw [if_neg (by omega), List.getElem?_append_right (by omega), List.getElem?_drop]
    congr 1
    omega

theorem copySlice_of_le {b : Slice} {lo hi : Nat} (hlo : lo ≤ hi) (hhi : hi ≤ b.bytes.length) (data : Bytes) :
    b.copySlice lo hi data = .ok ⟨overwrite b.bytes lo (data.take (hi - lo)), b.rest⟩ := by
  have hfits : lo + (data.take (hi - lo)).length ≤ b.bytes.length := by
    rw [List.length_take]
    omega
  rw [copySlice, if_pos ⟨hlo, hhi.trans (length_le_cap b)⟩, array, overwrite_append hfits, split,
    List.take_left' (length_overwrite hfits), List.drop_left' (length_overwrite hfits)]

theorem copySlice_self {b memory : Slice} {lo : Nat} {data : Bytes} (h : b.copySlice lo lo data = .ok memory) :
    memory = b := by
  unfold copySlice at h
  split_ifs at h
  obtain rfl := Except.ok.inj h
  rw [Nat.sub_self, List.take_zero, overwrite_nil, split, array, List.take_left, List.drop_left]

end Slice

section Expansion

variable [SliceGrowth]

def Slice.expand (memory : Slice) (offset size : Int) : Slice :=
  if size = 0 ∨ uint64 offset + uint64 size ≤ memory.bytes.length then memory
  else memory.extendByteSlice ((uint64 offset + uint64 size + 31) / 32 * 32)

theorem length_extendByteSlice (b : Slice) (needLen : Nat) :
    (b.extendByteSlice needLen).bytes.length = needLen := by
  unfold Slice.extendByteSlice Slice.split
  split_ifs with hcap
  · exact List.length_take_of_le hcap
  · refine List.length_take_of_le ?_
    rw [List.length_append, List.length_replicate]
    unfold Slice.cap at hcap ⊢
    omega

theorem prefix_extendByteSlice {b : Slice} {needLen : Nat} (h : b.bytes.length ≤ needLen) :
    b.bytes <+: (b.extendByteSlice needLen).bytes := by
  have hbytes : b.bytes <+: b.array := List.prefix_append _ _
  unfold Slice.extendByteSlice Slice.split
  split_ifs
  · exact List.prefix_take_iff.mpr ⟨hbytes, h⟩
  · exact List.prefix_take_iff.mpr ⟨hbytes.trans (List.prefix_append _ _), h⟩

theorem Slice.prefix_expand (memory : Slice) (offset size : Int) :
    memory.bytes <+: (memory.expand offset size).bytes := by
  unfold expand
  split_ifs with h
  · exact List.prefix_rfl
  · refine prefix_extendByteSlice ?_
    omega

theorem Slice.le_length_expand (memory : Slice) (offset : Int) {size : Int} (h : size ≠ 0) :
    uint64 offset + uint64 size ≤ (memory.expand offset size).bytes.length := by
  unfold expand
  split_ifs with hroom
  · exact hroom.resolve_left h
  · rw [length_extendByteSlice]
    omega

theorem Slice.expand_zero (memory : Slice) (offset : Int) : memory.expand offset 0 = memory :=
  if_pos (.inl rfl)

def wordsFor (offset size : Int) : Nat := (uint64 offset + uint64 size + 31) / 32

inductive Allocation (s : State) (offset size : Int) : Bool × State → Prop
  | refused {s' : State} : Stopped s s' → s'.memory = s.memory → Allocation s offset size (false, s')
  | inside : Window offset size → (size = 0 ∨ uint64 offset + uint64 size ≤ s.memory.bytes.length) →
      Allocation s offset size (true, s)
  | grown {cost price : Nat} : Window offset size → size ≠ 0 →
      s.memory.bytes.length < uint64 offset + uint64 size → uint64 offset + uint64 size ≤ 2 * 0xffffffffe0 →
      cost = State.memoryCost (wordsFor offset size) → price = sub64 cost s.lastGasCost → price ≤ s.gas →
      Allocation s offset size (true, { s with
        memory := s.memory.extendByteSlice (wordsFor offset size * 32)
        lastGasCost := cost
        gas := s.gas - price })

theorem allocateMemory_ends (s : State) (offset size : Int) :
    Allocation s offset size (s.allocateMemory offset size) := by
  unfold State.allocateMemory
  by_cases huint : (!isUint64 offset || !isUint64 size) = true
  · rw [if_pos huint]
    exact .refused (stopped_exit _ _) rfl
  rw [if_neg huint]
  obtain ⟨hoffset, hsize⟩ : isUint64 offset = true ∧ isUint64 size = true := by simpa using huint
  by_cases hzero : size = 0
  · rw [if_pos hzero]
    exact .inside ⟨hoffset, hsize, absurd hzero⟩ (.inl hzero)
  rw [if_neg hzero]
  dsimp only
  by_cases hlarge : (0xffffffffe0 < uint64 offset || 0xffffffffe0 < uint64 size) = true
  · rw [if_pos hlarge]
    exact .refused (stopped_exit _ _) rfl
  rw [if_neg hlarge]
  simp only [Bool.or_eq_true, decide_eq_true_eq] at hlarge
  have hwindow : Window offset size := ⟨hoffset, hsize, fun _ => by omega⟩
  by_cases hroom : s.memory.bytes.length < uint64 offset + uint64 size
  · have hwords : (uint64 offset + uint64 size + 31) / 32 = wordsFor offset size := rfl
    rw [if_pos hroom, hwords]
    -- the price is not computed here: it may have wrapped around
    generalize hcost : State.memoryCost (wordsFor offset size) = cost
    generalize hprice : sub64 cost s.lastGasCost = price
    by_cases hgas : s.gas < price
    · rw [State.consumeGas_of_lt { s with lastGasCost := cost } hgas]
      exact .refused ⟨⟨rfl, rfl, le_rfl⟩, rfl, rfl⟩ rfl
    · rw [State.consumeGas_of_le { s with lastGasCost := cost } (not_lt.mp hgas)]
      exact .grown hwindow hzero hroom (by omega) hcost.symm hprice.symm (not_lt.mp hgas)
  · rw [if_neg hroom]
    exact .inside hwindow (.inr (not_lt.mp hroom))

theorem allocateMemory_false {s s' : State} {offset size : Int} (h : s.allocateMemory offset size = (false, s')) :
    Stopped s s' ∧ s'.memory = s.memory := by
  have hends := allocateMemory_ends s offset size
  rw [h] at hends
  cases hends with
  | refused hstopped hmemory => exact ⟨hstopped, hmemory⟩

theorem allocateMemory_true {s s' : State} {offset size : Int} (h : s.allocateMemory offset size = (true, s')) :
    ∃ gas cost,
      s' = { s with memory := s.memory.expand offset size, gas := gas, lastGasCost := cost } ∧
        Window offset size ∧ gas ≤ s.gas := by
  have hends := allocateMemory_ends s offset size
  rw [h] at hends
  cases hends with
  | inside hwindow hroom =>
    refine ⟨s.gas, s.lastGasCost, ?_, hwindow, le_rfl⟩
    rw [Slice.expand, if_pos hroom]
  | grown hwindow hzero hroom =>
    have hexpand : s.memory.expand offset size = s.memory.extendByteSlice (wordsFor offset size * 32) :=
      if_neg (not_or.mpr ⟨hzero, not_le.mpr hroom⟩)
    rw [hexpand]
    exact ⟨_, _, rfl, hwindow, Nat.sub_le _ _⟩

end Expansion

structure Terms where
  gas : Nat
  metered : Prop
  calls : Prop
  overreach : Prop
  misplaced : Prop
  missing : Prop

def Action.Within : Action → State → Prop
  | .slice _ hi, s | .copySlice _ hi _, s => hi ≤ s.memory.bytes.length
  | _, _ => True

def Action.Vacuous : Action → Prop
  | .copySlice lo hi _ => lo = hi
  | _ => False

def Action.Supplied : Action → State → Prop
  | .pop, s | .top, s | .setTop _, s => 1 ≤ s.stack.length
  | .peekAt n, s => 1 ≤ n ∧ n ≤ s.stack.length
  | .swap n, s => n < s.stack.length
  | _, _ => True

def Request.Allowed (env : Env) (terms : Terms) : Request → Prop
  | .host call => env.msg.static = true → call.writes = false
  | .callx c =>
    terms.calls ∧ (terms.metered → c.gas < terms.gas) ∧
      (env.msg.static = true →
        c.static = true ∧ c.type ≠ .create ∧ (c.type = .call → ∀ v ∈ c.value, v = 0))

def Request.Returns (terms : Terms) : (request : Request) → request.Answer → Prop
  | .host _, _ => True
  | .callx c, result => terms.metered → Runtime.ExecutionResult.gasLeft result ≤ c.gas

def promise (env : Env) (terms : Terms) :
    Program.Spec Action.Answer Request.Answer State Fault where
  oblige op s := (op.Within s ∨ terms.overreach ∧ op.Vacuous) ∧ (op.Supplied s ∨ terms.missing)
  fault e := (∃ p, e = .panic p) ∧ (terms.overreach ∨ terms.misplaced)
  allowed := Request.Allowed env terms
  returns := Request.Returns terms

variable [SliceGrowth] {env : Env} {terms : Terms} {s : State}

abbrev Keeps {α : Type} (env : Env) (terms : Terms) (p : Prog α) (post : α → State → Prop)
    (s : State) : Prop :=
  Program.wp Action.exec (promise env terms) p post s

section Actions

variable {α β : Type} {final : α → State → Prop} {post : Unit → State → Prop} {test : Bool → State → Prop}
  {found : Int → State → Prop} {read : Bytes → State → Prop} {count : Nat → State → Prop}
  {v w offset length : Int} {rest : List Int} {amount lo hi n i : Nat} {data b : Bytes} {s' : State}

theorem keeps_bind {p : Prog β} {f : β → Prog α} :
    Keeps env terms (p >>= f) final s ↔
      Keeps env terms p (fun b s' => Keeps env terms (f b) final s') s := Program.wp_bind

theorem Keeps.bind {p : Prog β} {f : β → Prog α}
    (h : Keeps env terms p (fun b s' => Keeps env terms (f b) final s') s) :
    Keeps env terms (p >>= f) final s := keeps_bind.mpr h

theorem keeps_pure {a : α} : Keeps env terms (pure a) final s ↔ final a s := Iff.rfl

theorem Keeps.mono {p : Prog α} {final' : α → State → Prop} (h : Keeps env terms p final s)
    (hpost : ∀ a s', final a s' → final' a s') : Keeps env terms p final' s :=
  Program.wp_imp h _ (fun _ => id) hpost

omit [SliceGrowth] in
theorem one_le_length (h : s.stack = v :: rest) : 1 ≤ s.stack.length := by
  rw [h]
  exact Nat.le_add_left _ _

omit [SliceGrowth] in
theorem le_length_of_peekAt (hn : 1 ≤ n) (h : s.peekAt n = some v) : n ≤ s.stack.length := by
  rw [State.peekAt, if_neg (by omega)] at h
  have hlt := (List.getElem?_eq_some_iff.mp h).1
  omega

omit [SliceGrowth] in
theorem lt_length_of_swap (h : s.swap n = .ok s') : n < s.stack.length := by
  unfold State.swap at h
  split at h
  · rename_i hget
    exact (List.getElem?_eq_some_iff.mp hget).1
  · cases h

theorem keeps_act (op : Action) {post : op.Answer → State → Prop} {answer : op.Answer} (hwithin : op.Within s)
    (hsupplied : op.Supplied s ∨ terms.missing) (h : op.exec s = .ok (answer, s')) :
    Keeps env terms (act op) post s ↔ post answer s' := by
  change (_ ∧ Program.Meets _ post (op.exec s)) ↔ _
  rw [h]
  exact and_iff_right ⟨.inl hwithin, hsupplied⟩

theorem keeps_pop {post : Option Int → State → Prop} (h : 1 ≤ s.stack.length) :
    Keeps env terms pop post s ↔ post s.pop.1 s.pop.2 :=
  keeps_act .pop trivial (.inl h) rfl

theorem keeps_top {post : Option Int → State → Prop} (h : 1 ≤ s.stack.length ∨ terms.missing) :
    Keeps env terms top post s ↔ post s.stack.head? s :=
  keeps_act .top trivial h rfl

theorem keeps_push : Keeps env terms (push v) post s ↔ post () (s.push v) :=
  keeps_act (.push v) trivial (.inl trivial) rfl

theorem keeps_setTop (h : s.stack = w :: rest) :
    Keeps env terms (setTop v) post s ↔ post () { s with stack := v :: rest } :=
  keeps_act (.setTop v) trivial (.inl (one_le_length h)) (by simp only [Action.exec, h])

section

variable (h : s.stack = v :: rest)

include h

theorem keeps_popWord :
    Keeps env terms popWord found s ↔
      found v { s with stack := rest, unused := v :: s.unused } := by
  rw [popWord, keeps_bind, keeps_pop (one_le_length h)]
  simp only [State.pop, h]
  exact keeps_pure

theorem keeps_topWord : Keeps env terms topWord found s ↔ found v s := by
  rw [topWord, keeps_bind, keeps_top (.inl (one_le_length h)), h]
  exact keeps_pure

theorem keeps_popAddr {post : Address → State → Prop} :
    Keeps env terms popAddr post s ↔
      post (toAddress v) { s with stack := rest, unused := v :: s.unused } := by
  rw [popAddr, keeps_bind, keeps_pop (one_le_length h)]
  simp only [State.pop, h]
  exact keeps_pure

theorem keeps_popHash {post : Hash → State → Prop} :
    Keeps env terms popHash post s ↔
      post (toHash v) { s with stack := rest, unused := v :: s.unused } := by
  rw [popHash, keeps_bind, keeps_popWord h, keeps_pure]

end

theorem keeps_peekAt (hn : 1 ≤ n) (h : s.peekAt n = some v) : Keeps env terms (peekAt n) found s ↔ found v s :=
  keeps_act (.peekAt n) trivial (.inl ⟨hn, le_length_of_peekAt hn h⟩) (by simp only [Action.exec, h])

theorem keeps_swap (h : s.swap n = .ok s') : Keeps env terms (swap n) post s ↔ post () s' :=
  keeps_act (.swap n) trivial (.inl (lt_length_of_swap h)) (by simp only [Action.exec, h])

theorem keeps_stackSize : Keeps env terms stackSize count s ↔ count s.stack.length s :=
  keeps_act .stackSize trivial (.inl trivial) rfl

theorem keeps_stackAtLeast : Keeps env terms (stackAtLeast n) test s ↔ test (n ≤ s.stack.length) s := by
  rw [stackAtLeast, keeps_bind, keeps_stackSize, keeps_pure]

theorem keeps_gas : Keeps env terms gas count s ↔ count s.gas s :=
  keeps_act .gas trivial (.inl trivial) rfl

theorem keeps_addGas :
    Keeps env terms (addGas amount) post s ↔
      post () { s with gas := (s.gas + amount) % 2 ^ 64 } :=
  keeps_act (.addGas amount) trivial (.inl trivial) rfl

theorem keeps_exit {err : Runtime.Error} : Keeps env terms (exit err) post s ↔ post () (s.exit err) :=
  keeps_act (.exit err) trivial (.inl trivial) rfl

theorem keeps_halt : Keeps env terms halt post s ↔ post () { s with stop := true } :=
  keeps_act .halt trivial (.inl trivial) rfl

theorem keeps_ip : Keeps env terms ip found s ↔ found s.ip s :=
  keeps_act .ip trivial (.inl trivial) rfl

theorem keeps_setIp {i : Int} : Keeps env terms (setIp i) post s ↔ post () { s with ip := i } :=
  keeps_act (.setIp i) trivial (.inl trivial) rfl

theorem keeps_memorySize : Keeps env terms memorySize count s ↔ count s.memory.bytes.length s :=
  keeps_act .memorySize trivial (.inl trivial) rfl

theorem keeps_tmp : Keeps env terms tmp read s ↔ read s.tmp s :=
  keeps_act .tmp trivial (.inl trivial) rfl

theorem keeps_setTmp : Keeps env terms (setTmp b) post s ↔ post () { s with tmp := b } :=
  keeps_act (.setTmp b) trivial (.inl trivial) rfl

theorem keeps_setRet : Keeps env terms (setRet b) post s ↔ post () { s with ret := b } :=
  keeps_act (.setRet b) trivial (.inl trivial) rfl

theorem keeps_returnData : Keeps env terms returnData read s ↔ read s.returnData s :=
  keeps_act .returnData trivial (.inl trivial) rfl

theorem keeps_setReturnData : Keeps env terms (setReturnData b) post s ↔ post () { s with returnData := b } :=
  keeps_act (.setReturnData b) trivial (.inl trivial) rfl

theorem keeps_host {call : HostCall} {post : call.Response → State → Prop}
    (hread : env.msg.static = true → call.writes = false) (h : ∀ answer, post answer s) :
    Keeps env terms (host call) post s :=
  ⟨hread, fun answer _ => h answer⟩

theorem keeps_callx {c : Contract} {post : Runtime.ExecutionResult → State → Prop}
    (hallowed : Request.Allowed env terms (.callx c))
    (h : ∀ result : Runtime.ExecutionResult, (terms.metered → result.gasLeft ≤ c.gas) → post result s) :
    Keeps env terms (callx c) post s :=
  ⟨hallowed, h⟩

theorem keeps_panic {p : Panic} (h : terms.misplaced) : Keeps env terms (panic p) final s :=
  ⟨⟨.inl trivial, .inl trivial⟩, ⟨p, rfl⟩, .inr h⟩

theorem keeps_consumeGas_of_le (h : amount ≤ s.gas) :
    Keeps env terms (consumeGas amount) test s ↔ test true { s with gas := s.gas - amount } :=
  keeps_act (.consumeGas amount) trivial (.inl trivial) (congrArg Except.ok (s.consumeGas_of_le h))

theorem keeps_consumeGas_of_lt (h : s.gas < amount) :
    Keeps env terms (consumeGas amount) test s ↔ test false (s.exit .outOfGas) :=
  keeps_act (.consumeGas amount) trivial (.inl trivial) (congrArg Except.ok (s.consumeGas_of_lt h))

theorem keeps_consumeGas (hfail : test false (s.exit .outOfGas))
    (hok : amount ≤ s.gas → test true { s with gas := s.gas - amount }) :
    Keeps env terms (consumeGas amount) test s := by
  by_cases hlt : s.gas < amount
  · exact (keeps_consumeGas_of_lt hlt).mpr hfail
  · exact (keeps_consumeGas_of_le (not_lt.mp hlt)).mpr (hok (not_lt.mp hlt))

theorem keeps_paying {body : Prog Unit} (hfail : post () (s.exit .outOfGas))
    (hok : amount ≤ s.gas → Keeps env terms body post { s with gas := s.gas - amount }) :
    Keeps env terms (do if ← consumeGas amount then body) post s :=
  keeps_bind.mpr (keeps_consumeGas hfail hok)

theorem keeps_allocateMemory_exact {size : Int} (h : ∀ ok s', s.allocateMemory offset size = (ok, s') → test ok s') :
    Keeps env terms (allocateMemory offset size) test s := by
  obtain ⟨ok, s', halloc⟩ : ∃ ok s', s.allocateMemory offset size = (ok, s') := ⟨_, _, rfl⟩
  exact (keeps_act (.allocateMemory offset size) trivial (.inl trivial) (congrArg Except.ok halloc)).mpr (h ok s' halloc)

theorem keeps_allocateMemory {size : Int}
    (hfail : ∀ s', Stopped s s' → test false s')
    (hok : ∀ gas cost, Window offset size → gas ≤ s.gas → test true
      { s with memory := s.memory.expand offset size, gas := gas, lastGasCost := cost }) :
    Keeps env terms (allocateMemory offset size) test s := by
  refine keeps_allocateMemory_exact fun ok s' h => ?_
  cases ok with
  | false => exact hfail s' (allocateMemory_false h).1
  | true =>
    obtain ⟨gas, cost, rfl, hwindow, hgas⟩ := allocateMemory_true h
    exact hok gas cost hwindow hgas

theorem keeps_slice (hlo : lo ≤ hi) (hhi : hi ≤ s.memory.bytes.length)
    (h : read ((s.memory.bytes.take hi).drop lo) s) : Keeps env terms (slice lo hi) read s := by
  have hcap : hi ≤ s.memory.cap := hhi.trans (length_le_cap _)
  have htake : s.memory.array.take hi = s.memory.bytes.take hi := List.take_append_of_le_length hhi
  refine (keeps_act (.slice lo hi) hhi (.inl trivial) ?_).mpr h
  simp only [Action.exec, State.look, Slice.slice, if_pos (And.intro hlo hcap), htake]

theorem keeps_store (op : Action) {post : op.Answer → State → Prop}
    (change : Except Panic Slice) (answer : op.Answer)
    (hexec : op.exec s = match change with
      | .ok memory => .ok (answer, { s with memory := memory })
      | .error p => .error (.panic p))
    (hwithin : op.Within s ∨ terms.overreach ∧ op.Vacuous) (hsupplied : op.Supplied s)
    (hfault : ∀ p, change = .error p → terms.overreach ∨ terms.misplaced)
    (h : ∀ memory, change = .ok memory → post answer { s with memory := memory }) :
    Keeps env terms (act op) post s := by
  refine ⟨⟨hwithin, .inl hsupplied⟩, ?_⟩
  rw [hexec]
  cases change with
  | ok memory => exact h memory rfl
  | error p => exact ⟨⟨p, rfl⟩, hfault p rfl⟩

theorem keeps_copySlice (hlo : lo ≤ hi) (hhi : s.memory.bytes.length < hi → terms.overreach ∧ lo = hi)
    (h : ∀ memory, s.memory.copySlice lo hi data = .ok memory → post () { s with memory := memory }) :
    Keeps env terms (copySlice lo hi data) post s := by
  refine keeps_store (.copySlice lo hi data) _ () rfl ?_ trivial ?_ h
  · rcases Nat.lt_or_ge s.memory.bytes.length hi with hlt | hge
    · exact .inr (hhi hlt)
    · exact .inl hge
  · intro p hpanic
    rcases Nat.lt_or_ge s.memory.bytes.length hi with hlt | hge
    · exact .inl (hhi hlt).1
    · rw [Slice.copySlice, if_pos ⟨hlo, hge.trans (length_le_cap _)⟩] at hpanic
      cases hpanic

theorem keeps_copyTail (hlo : s.memory.bytes.length < lo → terms.misplaced)
    (h : ∀ memory, s.memory.copyTail lo data = .ok memory → post () { s with memory := memory }) :
    Keeps env terms (copyTail lo data) post s := by
  refine keeps_store (.copyTail lo data) _ () rfl (.inl trivial) trivial ?_ h
  intro p hpanic
  rcases Nat.lt_or_ge s.memory.bytes.length lo with hlt | hge
  · exact .inr (hlo hlt)
  · rw [Slice.copyTail, if_pos hge] at hpanic
    cases hpanic

theorem keeps_setTail (hlo : lo + data.length ≤ s.memory.bytes.length)
    (h : post () { s with memory := ⟨Slice.overwrite s.memory.bytes lo data, s.memory.rest⟩ }) :
    Keeps env terms (setTail lo data) post s := by
  refine (keeps_act (.setTail lo data) trivial (.inl trivial) ?_).mpr h
  simp only [Action.exec, Slice.setTail, if_pos hlo]
  rfl

theorem keeps_setIndex {v : UInt8} (hi : i < s.memory.bytes.length)
    (h : post () { s with memory := ⟨s.memory.bytes.set i v, s.memory.rest⟩ }) :
    Keeps env terms (setIndex i v) post s := by
  refine (keeps_act (.setIndex i v) trivial (.inl trivial) ?_).mpr h
  simp only [Action.exec, Slice.setIndex, if_pos hi]
  rfl

theorem keeps_isSet (hi : i / 8 < s.bitmap.bytes.length) (h : ∀ answer, test answer s) :
    Keeps env terms (isSet i) test s := by
  refine (keeps_act (.isSet i) trivial (.inl trivial) ?_).mpr (h ((s.bitmap.bytes[i / 8]).toNat.testBit (i % 8)))
  have hget : s.bitmap.bytes[i / 8]? = some s.bitmap.bytes[i / 8] := List.getElem?_eq_getElem hi
  simp only [Action.exec, Bitmap.isSet, Slice.index, Bitmap.bitmapSize, hget]
  rfl

def windowBytes (memory : Slice) (offset length : Int) : Bytes :=
  (memory.bytes.take (uint64 offset + uint64 length)).drop (uint64 offset)

theorem keeps_get2_exact {post : Option Bytes → State → Prop}
    (hzero : length = 0 → post (some []) s)
    (hfail : ∀ s', length ≠ 0 → s.allocateMemory offset length = (false, s') → post none s')
    (hok : ∀ s', length ≠ 0 → s.allocateMemory offset length = (true, s') →
      post (some (windowBytes s'.memory offset length)) s') :
    Keeps env terms (get2 offset length) post s := by
  unfold get2
  split_ifs with hlength
  · exact keeps_pure.mpr (hzero hlength)
  · refine .bind (keeps_allocateMemory_exact fun ok s' h => ?_)
    cases ok with
    | false => exact keeps_pure.mpr (hfail s' hlength h)
    | true =>
      obtain ⟨gas, cost, rfl, hwindow, _⟩ := allocateMemory_true h
      have hle := s.memory.le_length_expand offset hlength
      simp only [Nat.mod_eq_of_lt (hwindow.lt hlength)]
      exact .bind (keeps_slice (Nat.le_add_right _ _) hle (keeps_pure.mpr (hok _ hlength h)))

theorem keeps_get2 {post : Option Bytes → State → Prop}
    (hfail : ∀ s', Stopped s s' → post none s')
    (hok : ∀ b gas cost, gas ≤ s.gas → post (some b)
      { s with memory := s.memory.expand offset length, gas := gas, lastGasCost := cost }) :
    Keeps env terms (get2 offset length) post s := by
  refine keeps_get2_exact ?_ ?_ ?_
  · rintro rfl
    have hdone := hok [] s.gas s.lastGasCost le_rfl
    exact hdone
  · exact fun s' _ h => hfail s' (allocateMemory_false h).1
  · intro s' _ h
    obtain ⟨gas, cost, rfl, _, hgas⟩ := allocateMemory_true h
    exact hok _ gas cost hgas

theorem keeps_getTmp
    (hfail : ∀ s', Stopped s s' → test false s')
    (hok : ∀ b gas cost, gas ≤ s.gas → test true
      { s with tmp := b, memory := s.memory.expand offset length, gas := gas, lastGasCost := cost }) :
    Keeps env terms (getTmp offset length) test s := by
  refine .bind (keeps_get2 ?_ ?_)
  · intro s' hstopped
    exact .bind (keeps_setTmp.mpr (hfail _ ⟨hstopped.toMoves.trans ⟨rfl, rfl, le_rfl⟩,
      hstopped.stop, hstopped.err⟩))
  · intro b gas cost hgas
    exact .bind (keeps_setTmp.mpr (hok b gas cost hgas))

end Actions

end Nxchain.Evm
