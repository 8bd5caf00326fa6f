import Nxchain.Proof.StepRules

namespace Nxchain.Evm

open Prog Word

structure Paid (s s' : State) : Prop extends Moves s s' where
  falls : s'.stop = true ∨ s'.gas < s.gas

theorem Stopped.paid {s s' : State} (h : Stopped s s') : Paid s s' := ⟨h.toMoves, .inl h.stop⟩

theorem writeWord_eq (rounds d i : Nat) (buf : Bytes) (h : rounds ≤ i) :
    ∃ buf', writeWord rounds d (i, buf) = .ok (i - rounds, buf') ∧ buf'.length = buf.length ∧
      ∀ j < buf.length, buf'.getD j 0 =
        if i - rounds ≤ j ∧ j < i then UInt8.ofNat (d / 256 ^ (i - 1 - j)) else buf.getD j 0 := by
  induction rounds generalizing d i buf with
  | zero => exact ⟨buf, rfl, rfl, fun j _ => (if_neg (by omega)).symm⟩
  | succ rounds ih =>
    obtain ⟨i, rfl⟩ := Nat.exists_eq_add_of_le' (Nat.one_le_of_lt h)
    obtain ⟨buf', hwrite, hlength, hbytes⟩ := ih (d / 256) i (buf.set i (UInt8.ofNat d)) (by omega)
    rw [List.length_set] at hlength hbytes
    refine ⟨buf', by rw [writeWord, hwrite, Nat.add_sub_add_right], hlength, fun j hj => ?_⟩
    rw [hbytes j hj]
    rcases Nat.lt_trichotomy j i with hlt | rfl | hgt
    · have hset : (buf.set i (UInt8.ofNat d)).getD j 0 = buf.getD j 0 := by
        simp [List.getElem?_set_ne (Nat.ne_of_gt hlt)]
      have hpow : 256 * 256 ^ (i - 1 - j) = 256 ^ (i + 1 - 1 - j) := by
        rw [← pow_succ', show i - 1 - j + 1 = i + 1 - 1 - j by omega]
      rw [hset, Nat.div_div_eq_div_mul, hpow]
      exact if_congr (by omega) rfl rfl
    · simp [hj]
    · rw [if_neg (by omega), if_neg (by omega)]
      simp [List.getElem?_set_ne (Nat.ne_of_lt hgt)]

theorem ofNat_div_of_lt (d r : Nat) {k : Nat} (hk : k < 8) :
    UInt8.ofNat ((d + 2 ^ 64 * r) / 256 ^ k) = UInt8.ofNat (d / 256 ^ k) := by
  have hsplit : 2 ^ 64 * r = 256 ^ k * (256 * (256 ^ (7 - k) * r)) := by
    rw [← Nat.mul_assoc 256, ← pow_succ', ← Nat.mul_assoc, ← pow_add, show k + (7 - k + 1) = 8 by omega]
    norm_num
  rw [hsplit, Nat.add_mul_div_left _ _ (by positivity)]
  apply UInt8.toNat_inj.mp
  exact Nat.add_mul_mod_self_left _ _ _

theorem div_pow_add_eight {d : Nat} (hd : d < 2 ^ 64) (r k : Nat) :
    (d + 2 ^ 64 * r) / 256 ^ (8 + k) = r / 256 ^ k := by
  rw [pow_add, ← Nat.div_div_eq_div_mul, show 256 ^ 8 = 2 ^ 64 by norm_num,
    Nat.add_mul_div_left _ _ (by norm_num), Nat.div_eq_of_lt hd, Nat.zero_add]

theorem foldlM_writeWord_eq (digits : List Nat) (hdigits : ∀ d ∈ digits, d < 2 ^ 64) (i : Nat) (buf : Bytes)
    (h : 8 * digits.length ≤ i) :
    ∃ buf', digits.foldlM (fun place d => writeWord 8 d place) (i, buf) =
        .ok (i - 8 * digits.length, buf') ∧ buf'.length = buf.length ∧
      ∀ j < buf.length, buf'.getD j 0 = if i - 8 * digits.length ≤ j ∧ j < i then
          UInt8.ofNat (Nat.ofDigits (2 ^ 64) digits / 256 ^ (i - 1 - j))
        else buf.getD j 0 := by
  induction digits generalizing i buf with
  | nil => exact ⟨buf, rfl, rfl, fun j _ => (if_neg (by simp)).symm⟩
  | cons d digits ih =>
    rw [List.length_cons] at h ⊢
    obtain ⟨buf₁, hwrite, hlength₁, hbytes₁⟩ := writeWord_eq 8 d i buf (by omega)
    obtain ⟨buf₂, hfold, hlength₂, hbytes₂⟩ :=
      ih (fun d' hd' => hdigits d' (List.mem_cons_of_mem d hd')) (i - 8) buf₁ (by omega)
    have hplace : i - 8 - 8 * digits.length = i - 8 * (digits.length + 1) := by omega
    rw [hplace] at hfold hbytes₂
    refine ⟨buf₂, ?_, hlength₂.trans hlength₁, fun j hj => ?_⟩
    · rw [List.foldlM_cons, hwrite]
      exact hfold
    rw [hbytes₂ j (hlength₁ ▸ hj), hbytes₁ j hj, Nat.ofDigits_cons]
    -- the other words are in front of the last one
    rcases Nat.lt_or_ge j (i - 8) with hlt | hge
    · have hexp : i - 1 - j = 8 + (i - 8 - 1 - j) := by omega
      have hout : ¬(i - 8 ≤ j ∧ j < i) := by omega
      rw [if_neg hout, hexp, div_pow_add_eight (hdigits d List.mem_cons_self)]
      exact if_congr (by omega) rfl rfl
    · rw [if_neg (by omega)]
      by_cases hin : j < i
      · rw [if_pos ⟨hge, hin⟩, if_pos (by omega), ofNat_div_of_lt d _ (by omega)]
      · rw [if_neg (by omega), if_neg (by omega)]

theorem fillSlot_eq {val : Int} (h : val.natAbs < 2 ^ 256) (buf : Bytes) :
    ∃ b, fillSlot val buf = .ok b ∧ (buf.length = 32 → b.length = 32 ∧
      ∀ j < 32, b.getD j 0 = UInt8.ofNat (val.natAbs / 256 ^ (31 - j))) := by
  have hdigits : (bits val).length ≤ 4 := by
    refine (Nat.digits_length_le_iff (by norm_num) val.natAbs).mpr ?_
    exact h
  obtain ⟨buf', hfold, hlength, hbytes⟩ := foldlM_writeWord_eq (bits val)
    (fun d hd => Nat.digits_lt_base (by norm_num) hd) 32 buf (by omega)
  have hvalue : Nat.ofDigits (2 ^ 64) (bits val) = val.natAbs := Nat.ofDigits_digits _ _
  have hlt : val.natAbs < 256 ^ (8 * (bits val).length) := by
    rw [pow_mul]
    exact Nat.lt_base_pow_length_digits (by norm_num)
  rw [hvalue] at hbytes
  generalize (bits val).length = n at hdigits hfold hbytes hlt
  refine ⟨List.replicate (32 - 8 * n) 0 ++ buf'.drop (32 - 8 * n), ?_, fun hbuf => ?_⟩
  · rw [fillSlot, hfold]
    rfl
  rw [hbuf] at hlength hbytes
  refine ⟨by simp [hlength], fun j hj => ?_⟩
  rw [List.getD_eq_getElem?_getD]
  rcases Nat.lt_or_ge j (32 - 8 * n) with hzero | hword
  · have hpow : 256 ^ (8 * n) ≤ 256 ^ (31 - j) := Nat.pow_le_pow_right (by norm_num) (by omega)
    rw [List.getElem?_append_left (by simpa using hzero), List.getElem?_replicate_of_lt hzero,
      Nat.div_eq_of_lt (hlt.trans_le hpow)]
    rfl
  · have hget := hbytes j hj
    rw [if_pos ⟨hword, hj⟩] at hget
    rw [List.getElem?_append_right (by simpa using hword), List.length_replicate, List.getElem?_drop,
      Nat.add_sub_cancel' hword]
    exact hget

theorem length_setBytes (input : Bytes) (size : Nat) (dataOffset : Int) :
    (setBytes input size dataOffset).length = size := by
  unfold setBytes
  split_ifs
  · simp only [List.length_append, List.length_take, List.length_drop, List.length_replicate]
    omega
  · exact List.length_replicate

variable [SliceGrowth] {env : Env} {terms : Terms} {s : State}

def Quiet (n : Nat) (inst : Instruction) : Prop :=
  ∀ env terms s, n ≤ s.stack.length → Keeps env terms (inst env) (fun _ s' => Moves s s') s

theorem quiet_unary (f : Env → Int → Int) : Quiet 1 fun env => unary (f env) := by
  intro env terms s h
  dsimp only
  match hstack : s.stack, h with
  | a :: rest, _ =>
    rw [unary, keeps_bind, keeps_topWord hstack, keeps_setTop hstack]
    exact ⟨rfl, rfl, le_rfl⟩

theorem quiet_binary (f : Int → Int → Int) : Quiet 2 fun _ => binary f := by
  intro env terms s h
  match hstack : s.stack, h with
  | a :: b :: rest, _ =>
    rw [binary, keeps_bind, keeps_popWord hstack, keeps_bind, keeps_topWord rfl, keeps_setTop rfl]
    exact ⟨rfl, rfl, le_rfl⟩

theorem quiet_ternary (f : Int → Int → Int → Int) : Quiet 3 fun _ => ternary f := by
  intro env terms s h
  match hstack : s.stack, h with
  | a :: b :: c :: rest, _ =>
    rw [ternary, keeps_bind, keeps_popWord hstack, keeps_bind, keeps_popWord rfl, keeps_bind,
      keeps_topWord rfl, keeps_setTop rfl]
    exact ⟨rfl, rfl, le_rfl⟩

theorem quiet_shift (f : Int → Int → Int) : Quiet 2 fun env => shift env f := by
  intro env terms s h
  unfold shift
  dsimp only
  split_ifs
  · exact quiet_binary f env terms s h
  · exact keeps_exit.mpr (stopped_exit s _).toMoves

theorem quiet_opExp : Quiet 2 opExp := by
  intro env terms s h
  match hstack : s.stack, h with
  | a :: b :: rest, _ =>
    rw [opExp, keeps_bind, keeps_popWord hstack, keeps_bind, keeps_topWord rfl]
    refine keeps_paying ⟨rfl, rfl, le_rfl⟩ fun _ => ?_
    exact (keeps_setTop rfl).mpr ⟨rfl, rfl, Nat.sub_le _ _⟩

theorem quiet_opMload : Quiet 1 opMload := by
  intro env terms s h
  match hstack : s.stack, h with
  | offset :: rest, _ =>
    rw [opMload, keeps_bind, keeps_popWord hstack]
    refine .bind (keeps_getTmp ?_ ?_)
    · exact fun s' hstopped => ⟨hstopped.bitmap, hstopped.ip, hstopped.gas⟩
    · intro b gas cost hgas
      refine .bind (keeps_tmp.mpr (keeps_push.mpr ?_))
      exact ⟨rfl, rfl, hgas⟩

theorem quiet_opMStore8 : Quiet 2 opMStore8 := by
  intro env terms s h
  match hstack : s.stack, h with
  | offset :: val :: rest, _ =>
    rw [opMStore8, keeps_bind, keeps_popWord hstack, keeps_bind, keeps_popWord rfl]
    refine .bind (keeps_allocateMemory ?_ ?_)
    · exact fun s' hstopped => ⟨hstopped.bitmap, hstopped.ip, hstopped.gas⟩
    · intro gas cost hwindow hgas
      refine keeps_setIndex ?_ ?_
      · have hle := s.memory.le_length_expand offset one_ne_zero
        exact hle
      · exact ⟨rfl, rfl, hgas⟩

theorem quiet_opSha3 [Keccak] : Quiet 2 opSha3 := by
  intro env terms s h
  match hstack : s.stack, h with
  | offset :: length :: rest, _ =>
    rw [opSha3, keeps_bind, keeps_popWord hstack, keeps_bind, keeps_popWord rfl]
    refine .bind (keeps_getTmp ?_ ?_)
    · exact fun s' hstopped => ⟨hstopped.bitmap, hstopped.ip, hstopped.gas⟩
    · intro b gas cost hgas
      refine keeps_paying ⟨rfl, rfl, hgas⟩ fun _ => ?_
      refine .bind (keeps_tmp.mpr ?_)
      refine .bind (keeps_setTmp.mpr ?_)
      refine .bind (keeps_tmp.mpr (keeps_push.mpr ?_))
      exact ⟨rfl, rfl, (Nat.sub_le _ _).trans hgas⟩

theorem quiet_push (f : Env → Int) : Quiet 0 fun env => push (f env) :=
  fun _ _ _ _ => keeps_push.mpr ⟨rfl, rfl, le_rfl⟩

theorem quiet_opJumpDest : Quiet 0 opJumpDest := fun _ _ s _ => keeps_pure.mpr (.refl s)

theorem quiet_pushContext (f : TxContext → Int) : Quiet 0 fun _ => pushContext f := by
  intro env terms s _
  refine .bind (keeps_host (fun _ => rfl) fun answer => ?_)
  exact keeps_push.mpr ⟨rfl, rfl, le_rfl⟩

theorem quiet_opSelfBalance : Quiet 0 opSelfBalance := by
  intro env terms s _
  unfold opSelfBalance
  split_ifs
  · refine .bind (keeps_host (fun _ => rfl) fun answer => ?_)
    exact keeps_push.mpr ⟨rfl, rfl, le_rfl⟩
  · exact keeps_exit.mpr (stopped_exit s _).toMoves

theorem quiet_opChainID : Quiet 0 opChainID := by
  intro env terms s _
  unfold opChainID
  split_ifs
  · refine .bind (keeps_host (fun _ => rfl) fun answer => ?_)
    exact keeps_push.mpr ⟨rfl, rfl, le_rfl⟩
  · exact keeps_exit.mpr (stopped_exit s _).toMoves

theorem quiet_opReturnDataSize : Quiet 0 opReturnDataSize := by
  intro env terms s _
  unfold opReturnDataSize
  split_ifs
  · exact .bind (keeps_returnData.mpr (keeps_push.mpr ⟨rfl, rfl, le_rfl⟩))
  · exact keeps_exit.mpr (stopped_exit s _).toMoves

theorem quiet_opPC : Quiet 0 opPC :=
  fun _ _ _ _ => .bind (keeps_ip.mpr (keeps_push.mpr ⟨rfl, rfl, le_rfl⟩))

theorem quiet_opMSize : Quiet 0 opMSize :=
  fun _ _ _ _ => .bind (keeps_memorySize.mpr (keeps_push.mpr ⟨rfl, rfl, le_rfl⟩))

theorem quiet_opGas : Quiet 0 opGas :=
  fun _ _ _ _ => .bind (keeps_gas.mpr (keeps_push.mpr ⟨rfl, rfl, le_rfl⟩))

theorem quiet_opPop : Quiet 1 opPop := by
  intro env terms s h
  match hstack : s.stack, h with
  | v :: rest, _ =>
    refine .bind ((keeps_pop (one_le_length hstack)).mpr ?_)
    unfold State.pop
    rw [hstack]
    exact ⟨rfl, rfl, le_rfl⟩

theorem quiet_opBlockHash : Quiet 1 opBlockHash := by
  intro env terms s h
  match hstack : s.stack, h with
  | num :: rest, _ =>
    have hset : ∀ v, Keeps env terms (setTop v) (fun _ s' => Moves s s') s :=
      fun v => (keeps_setTop hstack).mpr ⟨rfl, rfl, le_rfl⟩
    rw [opBlockHash, keeps_bind, keeps_topWord hstack]
    split_ifs
    · refine .bind (keeps_host (fun _ => rfl) fun ctx => ?_)
      dsimp only
      split_ifs
      · exact .bind (keeps_host (fun _ => rfl) fun hash => hset _)
      · exact hset 0
    · exact hset 0

theorem keeps_copyToMemory {memOffset dataOffset length : Int} {charge : Prog Bool}
    {input : Prog Bytes} (amount : Nat) (source : Bytes → Prop) {post : Unit → State → Prop}
    (hcharge : ∀ s₁ (paid : Bool → State → Prop), (∀ s₂, Stopped s₁ s₂ → paid false s₂) →
      (∀ gas, gas + amount ≤ s₁.gas → paid true { s₁ with gas := gas }) → Keeps env terms charge paid s₁)
    (hinput : ∀ s₁ (given : Bytes → State → Prop), (∀ data, source data → given data s₁) →
      Keeps env terms input given s₁)
    (hfail : ∀ s', Stopped s s' → post () s')
    (hok : ∀ data gas cost, source data → Window memOffset length → gas + amount ≤ s.gas → post () { s with
        memory := ⟨Slice.overwrite (s.memory.expand memOffset length).bytes (uint64 memOffset)
          (setBytes data (uint64 length) dataOffset), (s.memory.expand memOffset length).rest⟩
        gas := gas
        lastGasCost := cost }) :
    Keeps env terms (copyToMemory memOffset dataOffset length charge input) post s := by
  refine .bind (keeps_allocateMemory hfail ?_)
  intro gas cost hwindow hgas
  refine keeps_paying (hfail _ ⟨⟨rfl, rfl, hgas⟩, rfl, rfl⟩) fun hle => ?_
  have hpaid : gas - wordGas (uint64 length) copyGas ≤ s.gas := (Nat.sub_le _ _).trans hgas
  refine .bind (hcharge _ _ ?_ ?_)
  · intro s' hstopped
    refine hfail s' (Moves.stopped ?_ hstopped)
    exact ⟨rfl, rfl, hpaid⟩
  · intro left hleft
    refine .bind (hinput _ _ fun data hdata => ?_)
    have hdone := hok data left cost hdata hwindow (hleft.trans hpaid)
    have hlength : uint64 length ≠ 0 → length ≠ 0 := by
      rintro hsize rfl
      exact hsize rfl
    split_ifs with hsize
    · refine keeps_setTail ?_ hdone
      rw [length_setBytes]
      exact s.memory.le_length_expand memOffset (hlength hsize)
    · have hnone : setBytes data (uint64 length) dataOffset = [] :=
        List.eq_nil_of_length_eq_zero ((length_setBytes _ _ _).trans (not_not.mp hsize))
      rw [hnone, Slice.overwrite_nil] at hdone
      exact keeps_pure.mpr hdone

theorem quiet_of_copyToMemory (source : Env → Bytes) (inst : Instruction)
    (hinst : ∀ env, inst env = (do
      let memOffset ← popWord
      let dataOffset ← popWord
      let length ← popWord
      copyToMemory memOffset dataOffset length (pure true) (pure (source env)))) : Quiet 3 inst := by
  intro env terms s h
  match hstack : s.stack, h with
  | memOffset :: dataOffset :: length :: rest, _ =>
    rw [hinst, keeps_bind, keeps_popWord hstack, keeps_bind, keeps_popWord rfl, keeps_bind, keeps_popWord rfl]
    refine keeps_copyToMemory 0 (fun _ => True) ?_ ?_ ?_ ?_
    · exact fun s₁ paid _ hok => keeps_pure.mpr (hok s₁.gas le_rfl)
    · exact fun s₁ given h => keeps_pure.mpr (h _ trivial)
    · exact fun s' hstopped => ⟨hstopped.bitmap, hstopped.ip, hstopped.gas⟩
    · exact fun data gas cost _ _ hgas => ⟨rfl, rfl, hgas⟩

def Charging (n : Nat) (inst : Instruction) : Prop :=
  ∀ env terms s, n ≤ s.stack.length → Keeps env terms (inst env) (fun _ s' => Paid s s') s

theorem keeps_charging {s₀ : State} {price : Nat} {body : Prog Unit} (hmoves : Moves s₀ s)
    (hprice : 0 < price)
    (hbody : Keeps env terms body (fun _ s' => Moves { s with gas := s.gas - price } s')
      { s with gas := s.gas - price }) :
    Keeps env terms (do if ← consumeGas price then body) (fun _ s' => Paid s₀ s') s := by
  refine keeps_paying (hmoves.stopped (stopped_exit s _)).paid fun hle => hbody.mono fun _ s' h => ?_
  have hgas : s'.gas ≤ s.gas - price := h.gas
  have hle₀ := hmoves.gas
  exact ⟨⟨h.bitmap.trans hmoves.bitmap, h.ip.trans hmoves.ip, by omega⟩, .inr (by omega)⟩

theorem charging_opSload : Charging 1 opSload := by
  intro env terms s h
  match hstack : s.stack, h with
  | loc :: rest, _ =>
    rw [opSload, keeps_bind, keeps_topWord hstack]
    refine keeps_charging (.refl s) (by split_ifs <;> decide) ?_
    refine .bind (keeps_host (fun _ => rfl) fun val => ?_)
    exact (keeps_setTop (by exact hstack : _ = loc :: rest)).mpr ⟨rfl, rfl, le_rfl⟩

theorem charging_opBalance : Charging 1 opBalance := by
  intro env terms s h
  match hstack : s.stack, h with
  | addr :: rest, _ =>
    rw [opBalance, keeps_bind, keeps_popAddr hstack]
    refine keeps_charging ⟨rfl, rfl, le_rfl⟩ (by split_ifs <;> decide) ?_
    refine .bind (keeps_host (fun _ => rfl) fun val => ?_)
    exact keeps_push.mpr ⟨rfl, rfl, le_rfl⟩

theorem charging_opExtCodeSize : Charging 1 opExtCodeSize := by
  intro env terms s h
  match hstack : s.stack, h with
  | addr :: rest, _ =>
    rw [opExtCodeSize, keeps_bind, keeps_popAddr hstack]
    refine keeps_charging ⟨rfl, rfl, le_rfl⟩ (by split_ifs <;> decide) ?_
    refine .bind (keeps_host (fun _ => rfl) fun size => ?_)
    exact keeps_push.mpr ⟨rfl, rfl, le_rfl⟩

theorem charging_opExtCodeHash : Charging 1 opExtCodeHash := by
  intro env terms s h
  match hstack : s.stack, h with
  | addr :: rest, _ =>
    unfold opExtCodeHash
    by_cases hfork : env.config.constantinople = true
    · rw [if_pos hfork, keeps_bind, keeps_popAddr hstack]
      refine keeps_charging ⟨rfl, rfl, le_rfl⟩ (by split_ifs <;> decide) ?_
      refine .bind (keeps_host (fun _ => rfl) fun (isEmpty : Bool) => ?_)
      cases isEmpty with
      | true => exact keeps_push.mpr ⟨rfl, rfl, le_rfl⟩
      | false =>
        refine .bind (keeps_host (fun _ => rfl) fun hash => ?_)
        exact keeps_push.mpr ⟨rfl, rfl, le_rfl⟩
    · rw [if_neg hfork]
      exact keeps_exit.mpr (stopped_exit s _).paid

theorem charging_opExtCodeCopy : Charging 4 opExtCodeCopy := by
  intro env terms s h
  match hstack : s.stack, h with
  | address :: memOffset :: codeOffset :: length :: rest, _ =>
    rw [opExtCodeCopy, keeps_bind, keeps_popAddr hstack, keeps_bind, keeps_popWord rfl, keeps_bind,
      keeps_popWord rfl, keeps_bind, keeps_popWord rfl]
    refine keeps_copyToMemory 20 (fun _ => True) ?_ ?_ ?_ ?_
    · intro s₁ paid hfail hok
      have hprice : 20 ≤ if env.config.eip150 then 700 else 20 := by split_ifs <;> decide
      exact keeps_consumeGas (hfail _ (stopped_exit s₁ _)) fun hle => hok _ (by omega)
    · exact fun s₁ given h => keeps_host (fun _ => rfl) fun code => h code trivial
    · exact fun s' hstopped => ⟨⟨hstopped.bitmap, hstopped.ip, hstopped.gas⟩, .inl hstopped.stop⟩
    · intro code gas cost _ _ hgas
      have hlt : gas + 20 ≤ s.gas := hgas
      exact ⟨⟨rfl, rfl, by show gas ≤ s.gas; omega⟩, .inr (by show gas < s.gas; omega)⟩

theorem charging_opSStore : Charging 2 opSStore := by
  intro env terms s h
  match hstack : s.stack, h with
  | key :: val :: rest, _ =>
    unfold opSStore
    split_ifs with hstatic
    · exact keeps_exit.mpr (stopped_exit s _).paid
    rw [keeps_bind, keeps_gas]
    split_ifs
    · exact keeps_exit.mpr (stopped_exit s _).paid
    rw [keeps_bind, keeps_popHash hstack, keeps_bind, keeps_popHash rfl]
    refine .bind (keeps_host (fun h => absurd h hstatic) fun status => ?_)
    have hprice : 0 < storageCost env.config status := by
      unfold storageCost
      cases status <;> dsimp only <;> first | decide | (split_ifs <;> decide)
    refine .bind (keeps_consumeGas ?_ fun hle => ?_)
    · exact keeps_pure.mpr ⟨⟨rfl, rfl, le_rfl⟩, .inl rfl⟩
    · exact keeps_pure.mpr ⟨⟨rfl, rfl, Nat.sub_le _ _⟩, .inr (Nat.sub_lt_self hprice hle)⟩

theorem quiet_opDup (n : Nat) : Quiet 0 (opDup (n + 1)) := by
  intro env terms s _
  refine .bind (keeps_stackAtLeast.mpr ?_)
  by_cases h : n + 1 ≤ s.stack.length
  · rw [if_pos (decide_eq_true h)]
    have hpeek : s.peekAt (n + 1) = some s.stack[n] := List.getElem?_eq_getElem h
    refine .bind ((keeps_peekAt (Nat.le_add_left _ _) hpeek).mpr (keeps_push.mpr ?_))
    exact ⟨rfl, rfl, le_rfl⟩
  · rw [if_neg (by simpa using h)]
    exact keeps_exit.mpr (stopped_exit s _).toMoves

theorem quiet_opSwap (n : Nat) : Quiet 0 (opSwap n) := by
  intro env terms s _
  refine .bind (keeps_stackAtLeast.mpr ?_)
  by_cases h : n + 1 ≤ s.stack.length
  · rw [if_pos (decide_eq_true h)]
    have hswap : s.swap n = .ok { s with stack := (s.stack.set 0 s.stack[n]).set n s.stack[0] } := by
      unfold State.swap
      rw [List.getElem?_eq_getElem (Nat.zero_lt_of_lt h), List.getElem?_eq_getElem h]
    exact (keeps_swap hswap).mpr ⟨rfl, rfl, le_rfl⟩
  · rw [if_neg (by simpa using h)]
    exact keeps_exit.mpr (stopped_exit s _).toMoves

theorem keeps_popTopics {n : Nat} {post : List Hash → State → Prop} (h : n ≤ s.stack.length)
    (hpost : ∀ topics stack unused, post topics { s with stack := stack, unused := unused }) :
    Keeps env terms (popTopics n) post s := by
  induction n generalizing s post with
  | zero => exact keeps_pure.mpr (hpost [] s.stack s.unused)
  | succ n ih =>
    match hstack : s.stack, h with
    | v :: rest, h =>
      rw [popTopics, keeps_bind, keeps_popHash hstack]
      refine .bind (ih (Nat.le_of_succ_le_succ h) fun topics stack unused => ?_)
      exact keeps_pure.mpr (hpost _ stack unused)

theorem quiet_opLog (n : Nat) : Quiet 0 (opLog n) := by
  intro env terms s _
  unfold opLog
  by_cases hstatic : env.msg.static = true
  · rw [if_pos hstatic]
    exact keeps_exit.mpr (stopped_exit s _).toMoves
  rw [if_neg hstatic]
  refine .bind (keeps_stackAtLeast.mpr ?_)
  by_cases h : 2 + (n - 1) ≤ s.stack.length
  · rw [if_pos (decide_eq_true h)]
    match hstack : s.stack, (by omega : n - 1 + 1 + 1 ≤ s.stack.length) with
    | mStart :: mSize :: rest, h =>
      have hrest : n - 1 ≤ rest.length := Nat.le_of_succ_le_succ (Nat.le_of_succ_le_succ h)
      rw [keeps_bind, keeps_popWord hstack, keeps_bind, keeps_popWord rfl]
      refine .bind (keeps_popTopics hrest fun topics stack unused => ?_)
      refine .bind (keeps_getTmp ?_ fun b gas cost hgas => ?_)
      · exact fun s' hstopped => ⟨hstopped.bitmap, hstopped.ip, hstopped.gas⟩
      refine .bind (keeps_tmp.mpr ?_)
      refine .bind (keeps_host (fun h => absurd h hstatic) fun _ => ?_)
      refine keeps_paying ⟨rfl, rfl, hgas⟩ fun _ => ?_
      have hpaid : ∀ amount, gas - amount ≤ s.gas := fun amount => (Nat.sub_le _ _).trans hgas
      refine .bind (keeps_consumeGas ?_ fun _ => ?_)
      · exact keeps_pure.mpr ⟨rfl, rfl, hpaid _⟩
      · exact keeps_pure.mpr ⟨rfl, rfl, (Nat.sub_le _ _).trans (hpaid _)⟩
  · rw [if_neg (by simpa using h)]
    exact keeps_exit.mpr (stopped_exit s _).toMoves

def Halting (n : Nat) (inst : Instruction) : Prop :=
  ∀ env terms s, n ≤ s.stack.length →
    Keeps env terms (inst env) (fun _ s' => Moves s s' ∧ s'.stop = true) s

theorem halting_opStop : Halting 0 opStop :=
  fun _ _ _ _ => keeps_halt.mpr ⟨⟨rfl, rfl, le_rfl⟩, rfl⟩

theorem halting_opHalt (op : OpCode) : Halting 2 (opHalt op) := by
  intro env terms s h
  match hstack : s.stack, h with
  | offset :: size :: rest, _ =>
    unfold opHalt
    split
    · exact keeps_exit.mpr ⟨⟨rfl, rfl, le_rfl⟩, rfl⟩
    rw [keeps_bind, keeps_popWord hstack, keeps_bind, keeps_popWord rfl]
    refine .bind (keeps_get2 ?_ fun b gas cost hgas => ?_)
    · intro s' hstopped
      exact keeps_setRet.mpr ⟨⟨hstopped.bitmap, hstopped.ip, hstopped.gas⟩, hstopped.stop⟩
    · refine .bind (keeps_setRet.mpr ?_)
      split
      · exact keeps_exit.mpr ⟨⟨rfl, rfl, hgas⟩, rfl⟩
      · exact keeps_halt.mpr ⟨⟨rfl, rfl, hgas⟩, rfl⟩

theorem keeps_selfDestructGas {address : Address} {post : Nat → State → Prop} (h : ∀ price, post price s) :
    Keeps env terms (selfDestructGas env address) post s := by
  unfold selfDestructGas
  split_ifs
  · refine .bind (keeps_host (fun _ => rfl) fun isEmpty => ?_)
    split_ifs
    · refine .bind (keeps_host (fun _ => rfl) fun balance => ?_)
      split_ifs <;> exact keeps_pure.mpr (h _)
    · exact keeps_pure.mpr (h _)
  · refine .bind (keeps_host (fun _ => rfl) fun found => ?_)
    split_ifs <;> exact keeps_pure.mpr (h _)
  · exact keeps_pure.mpr (h _)

theorem halting_opSelfDestruct : Halting 1 opSelfDestruct := by
  intro env terms s h
  match hstack : s.stack, h with
  | address :: rest, _ =>
    unfold opSelfDestruct
    split_ifs with hstatic
    · exact keeps_exit.mpr ⟨⟨rfl, rfl, le_rfl⟩, rfl⟩
    rw [keeps_bind, keeps_popAddr hstack]
    refine .bind (keeps_selfDestructGas fun price => ?_)
    refine keeps_paying ⟨⟨rfl, rfl, le_rfl⟩, rfl⟩ fun _ => ?_
    refine .bind (keeps_host (fun h => absurd h hstatic) fun _ => ?_)
    exact keeps_halt.mpr ⟨⟨rfl, rfl, Nat.sub_le _ _⟩, rfl⟩

end Nxchain.Evm
