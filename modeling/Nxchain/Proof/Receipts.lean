import Nxchain.BlockBuilding
import Nxchain.Proof.Apply

namespace Nxchain

def Transition.withPool {σ : Type} (t : Transition σ) (k : Nat) : Transition σ :=
  { t with gasPool := t.gasPool + k }

section WithPool

variable {σ : Type} (t : Transition σ)

@[simp]
theorem Transition.withPool_receipts (k : Nat) : (t.withPool k).receipts = t.receipts := rfl

@[simp]
theorem Transition.withPool_withPool (j k : Nat) : (t.withPool j).withPool k = t.withPool (j + k) := by
  simp [withPool, Nat.add_assoc]

end WithPool

namespace Executor

variable {σ : Type} {e : Executor σ} {t t' : Transition σ} {msg txn txn' : Transaction}

theorem run_withPool (gas k : Nat) :
    e.run (t.withPool k) msg gas = ((e.run t msg gas).1, (e.run t msg gas).2.withPool k) := by
  unfold run Transition.withPool
  cases msg.recipient <;> simp [Nat.add_right_comm]

theorem Admits.withPool {s : σ} {gas : Nat} (hadmits : e.Admits t msg s gas) (k : Nat) :
    e.Admits (t.withPool k) msg s gas :=
  { hadmits with pool := hadmits.pool.trans (Nat.le_add_right _ _) }

theorem apply_withPool {result : GasUse} (happly : e.apply t msg = (.ok result, t')) (k : Nat) :
    e.apply (t.withPool k) msg = (.ok result, t'.withPool k) := by
  rcases apply_cases e t msg with ⟨s, gas, hadmits⟩ | ⟨err, hfails, _⟩ | ⟨err, hfails, _⟩
  · rw [apply_of_admits hadmits] at happly
    obtain ⟨hresult, rfl⟩ := Prod.mk.inj happly
    obtain rfl := Except.ok.inj hresult
    have hpool : ({ t.withPool k with state := s, gasPool := (t.withPool k).gasPool - msg.gas } : Transition σ)
          = Transition.withPool { t with state := s, gasPool := t.gasPool - msg.gas } k := by
      have := hadmits.pool
      simp only [Transition.withPool, Transition.mk.injEq, true_and, and_true]
      omega
    rw [apply_of_admits (hadmits.withPool k), hpool, run_withPool]
  all_goals
    rw [hfails] at happly
    cases happly

theorem apply_error {err : TransitionError} (happly : e.apply t msg = (.error err, t')) :
    ∃ k, t = t'.withPool k := by
  rcases apply_cases e t msg with ⟨s, gas, hadmits⟩ | ⟨err', hfails, _⟩ | ⟨err', hfails, hcharged⟩
  · rw [apply_of_admits hadmits] at happly
    cases happly
  · rw [hfails] at happly
    obtain ⟨_, rfl⟩ := Prod.mk.inj happly
    exact ⟨0, rfl⟩
  · rw [hfails] at happly
    obtain ⟨_, rfl⟩ := Prod.mk.inj happly
    refine ⟨msg.gas, ?_⟩
    simp [Transition.withPool, Nat.sub_add_cancel hcharged.2.1]

def SameChain (t t' : Transition σ) : Prop :=
  t'.config = t.config ∧ t'.ctx.chainID = t.ctx.chainID

theorem apply_frame {result : GasUse} (happly : e.apply t msg = (.ok result, t')) :
    t'.receipts = t.receipts ∧ SameChain t t' := by
  rcases apply_cases e t msg with ⟨s, gas, hadmits⟩ | ⟨err, hfails, _⟩ | ⟨err, hfails, _⟩
  · rw [apply_of_admits hadmits] at happly
    obtain ⟨_, rfl⟩ := Prod.mk.inj happly
    cases msg.recipient <;> exact ⟨rfl, rfl, rfl⟩
  all_goals
    rw [hfails] at happly
    cases happly

theorem withSender_congr (hsame : SameChain t t') : e.withSender t' txn = e.withSender t txn := by
  unfold withSender
  rw [hsame.1, hsame.2]

theorem withSender_idem (hsender : e.withSender t txn = .ok txn') :
    e.withSender t txn' = .ok txn' ∧ txn'.gas = txn.gas ∧ txn'.hash = txn.hash := by
  unfold withSender at hsender ⊢
  by_cases hempty : txn.sender = zeroAddress
  · rw [if_pos hempty] at hsender
    cases hrecover : e.sender t.config t.ctx.chainID txn with
    | error message => simp [hrecover] at hsender
    | ok sender =>
      rw [hrecover] at hsender
      obtain rfl := Except.ok.inj hsender
      refine ⟨?_, rfl, rfl⟩
      by_cases hzero : sender = zeroAddress
      · have hsame : ({ txn with sender := sender } : Transaction) = txn := by
          rw [hzero, ← hempty]
        rw [hsame, if_pos hempty, hrecover]
        exact congrArg Except.ok hsame
      · rw [if_neg hzero]
  · rw [if_neg hempty] at hsender
    obtain rfl := Except.ok.inj hsender
    exact ⟨if_neg hempty, rfl, rfl⟩

theorem write_ok (hwrite : e.write t txn = (.ok txn', t')) :
    (∀ k, e.write (t.withPool k) txn' = (.ok txn', t'.withPool k))
      ∧ txn'.gas = txn.gas ∧ txn'.hash = txn.hash ∧ SameChain t t'
      ∧ t'.receipts.map Receipt.txHash = t.receipts.map Receipt.txHash ++ [txn.hash] := by
  unfold write at hwrite
  cases hsender : e.withSender t txn with
  | error err => simp [hsender] at hwrite
  | ok txn₁ =>
    rw [hsender] at hwrite
    rcases happly : e.apply t txn₁ with ⟨result, t₁⟩
    cases result with
    | error err => simp [happly] at hwrite
    | ok result =>
      simp only [happly] at hwrite
      obtain ⟨htxn, rfl⟩ := Prod.mk.inj hwrite
      obtain rfl := Except.ok.inj htxn
      obtain ⟨hagain, hgas, hhash⟩ := withSender_idem hsender
      obtain ⟨hreceipts, hsame⟩ := apply_frame happly
      refine ⟨?_, hgas, hhash, hsame, ?_⟩
      · intro k
        have hpool : e.withSender (t.withPool k) txn₁ = .ok txn₁ := hagain
        unfold write
        rw [hpool]
        simp only [apply_withPool happly k]
        rfl
      · rw [List.map_append, hreceipts, ← hhash]
        rfl

theorem writeFailedReceipt_ok (hreceipt : e.writeFailedReceipt t txn = .ok t') :
    SameChain t t' ∧ t'.receipts.length = t.receipts.length + 1 := by
  unfold writeFailedReceipt at hreceipt
  cases hsender : e.withSender t txn with
  | error err => simp [hsender] at hreceipt
  | ok txn' =>
    rw [hsender] at hreceipt
    obtain rfl := Except.ok.inj hreceipt
    exact ⟨⟨rfl, rfl⟩, List.length_append⟩

theorem write_error {err : TransitionError} (hwrite : e.write t txn = (.error err, t')) :
    ∃ k, t = t'.withPool k := by
  unfold write at hwrite
  cases hsender : e.withSender t txn with
  | error err' =>
    rw [hsender] at hwrite
    obtain ⟨_, rfl⟩ := Prod.mk.inj hwrite
    exact ⟨0, rfl⟩
  | ok txn' =>
    rw [hsender] at hwrite
    rcases happly : e.apply t txn' with ⟨result, t₁⟩
    cases result with
    | error err' =>
      simp only [happly] at hwrite
      obtain ⟨_, rfl⟩ := Prod.mk.inj hwrite
      exact apply_error happly
    | ok result => simp [happly] at hwrite

end Executor

namespace BlockBuilder

variable {σ π : Type} (b : BlockBuilder σ π)

variable {steps : Nat} {executed : List Transaction}

def Oversized (gasLimit : Nat) (t : Transition σ) (tx : Transaction) : Prop :=
  tx.exceedsBlockGasLimit gasLimit = true ∧ ∃ tx', b.executor.withSender t tx = .ok tx'

instance (gasLimit : Nat) (t : Transition σ) (tx : Transaction) :
    Decidable (b.Oversized gasLimit t tx) :=
  decidable_of_iff
    (tx.exceedsBlockGasLimit gasLimit = true ∧ (b.executor.withSender t tx).toOption.isSome) (by
      unfold Oversized
      cases b.executor.withSender t tx <;> simp [Except.toOption])

def taken (gasLimit : Nat) : Nat → Transition σ → π → List Transaction
  | 0, _, _ => []
  | steps + 1, t, p =>
    match (b.txpool.peek p).1 with
    | none => []
    | some tx =>
      tx ::
        match b.writeTransaction gasLimit t (b.txpool.peek p).2 (some tx) with
        | (none, _, _) => []
        | (some _, t, p) => taken gasLimit steps t p

variable {b} {gasLimit : Nat} {t t' : Transition σ} {p p' : π} {tx : Transaction}

theorem writeTransaction_cases {result : Option TxExeResult}
    (hturn : b.writeTransaction gasLimit t p (some tx) = (result, t', p')) :
    (∃ tx', result = some ⟨tx', .success⟩ ∧ tx.exceedsBlockGasLimit gasLimit = false
        ∧ b.executor.write t tx = (.ok tx', t'))
      ∨ (result.all (·.status ≠ .success) = true ∧ ¬ b.Oversized gasLimit t tx ∧ ∃ k, t = t'.withPool k)
      ∨ (result = some ⟨tx, .fail⟩ ∧ b.Oversized gasLimit t tx ∧ b.executor.writeFailedReceipt t tx = .ok t') := by
  unfold writeTransaction at hturn
  by_cases hexceeds : tx.exceedsBlockGasLimit gasLimit = true
  · simp only [hexceeds] at hturn
    cases hturn
    right
    cases hreceipt : b.executor.writeFailedReceipt t tx with
    | error err =>
      refine .inl ⟨rfl, ?_, 0, rfl⟩
      rintro ⟨_, tx', hsender⟩
      simp [Executor.writeFailedReceipt, hsender, bind, Except.bind, pure, Except.pure] at hreceipt
    | ok t₁ =>
      refine .inr ⟨rfl, ⟨hexceeds, ?_⟩, rfl⟩
      cases hsender : b.executor.withSender t tx with
      | error err => simp [Executor.writeFailedReceipt, hsender] at hreceipt
      | ok tx' => exact ⟨tx', rfl⟩
  · have hover : ¬ b.Oversized gasLimit t tx := fun h => hexceeds h.1
    simp only [hexceeds] at hturn
    rcases hwrite : b.executor.write t tx with ⟨outcome, t₁⟩
    rw [hwrite] at hturn
    match outcome, hwrite, hturn with
    | .ok tx', hwrite, hturn =>
      cases hturn
      exact .inl ⟨tx', rfl, by simpa using hexceeds, rfl⟩
    | .error .gasLimitReached, hwrite, hturn =>
      cases hturn
      exact .inr (.inl ⟨rfl, hover, Executor.write_error hwrite⟩)
    | .error (.application err true), hwrite, hturn =>
      cases hturn
      exact .inr (.inl ⟨rfl, hover, Executor.write_error hwrite⟩)
    | .error (.application err false), hwrite, hturn =>
      cases hturn
      exact .inr (.inl ⟨rfl, hover, Executor.write_error hwrite⟩)

theorem writeLoop_succ (hloop : b.writeLoop gasLimit (steps + 1) t p = (executed, t', p')) :
    (executed = [] ∧ t' = t ∧ b.taken gasLimit (steps + 1) t p = []) ∨
      ∃ tx result t₁ p₁,
        b.writeTransaction gasLimit t (b.txpool.peek p).2 (some tx) = (result, t₁, p₁)
        ∧ ((result = none ∧ executed = [] ∧ t' = t₁ ∧ b.taken gasLimit (steps + 1) t p = [tx])
          ∨ ∃ r rest, result = some r ∧ b.writeLoop gasLimit steps t₁ p₁ = (rest, t', p')
            ∧ executed = (if r.status = .success then r.tx :: rest else rest)
            ∧ b.taken gasLimit (steps + 1) t p = tx :: b.taken gasLimit steps t₁ p₁) := by
  unfold writeLoop at hloop
  cases hpeek : (b.txpool.peek p).1 with
  | none =>
    simp only [hpeek] at hloop
    cases hloop
    exact .inl ⟨rfl, rfl, by simp [taken, hpeek]⟩
  | some tx =>
    rw [hpeek] at hloop
    rcases hturn : b.writeTransaction gasLimit t (b.txpool.peek p).2 (some tx) with
      ⟨result, t₁, p₁⟩
    rw [hturn] at hloop
    refine .inr ⟨tx, result, t₁, p₁, hturn, ?_⟩
    cases result with
    | none =>
      cases hloop
      exact .inl ⟨rfl, rfl, rfl, by simp [taken, hpeek, hturn]⟩
    | some r =>
      rcases hrest : b.writeLoop gasLimit steps t₁ p₁ with ⟨rest, t₂, p₂⟩
      simp only [hrest] at hloop
      cases hloop
      exact .inr ⟨r, rest, rfl, rfl, rfl, by simp [taken, hpeek, hturn]⟩

theorem oversized_congr (hsame : Executor.SameChain t t') :
    b.Oversized gasLimit t' tx ↔ b.Oversized gasLimit t tx := by
  unfold Oversized
  rw [Executor.withSender_congr hsame]

theorem writeTransaction_sameChain {result : Option TxExeResult}
    (hturn : b.writeTransaction gasLimit t p (some tx) = (result, t', p')) : Executor.SameChain t t' := by
  rcases writeTransaction_cases hturn with ⟨tx', _, _, hwrite⟩ | ⟨_, _, k, rfl⟩ | ⟨_, _, hreceipt⟩
  · exact (Executor.write_ok hwrite).2.2.2.1
  · exact ⟨rfl, rfl⟩
  · exact (Executor.writeFailedReceipt_ok hreceipt).1

theorem length_receipts_writeLoop (hloop : b.writeLoop gasLimit steps t p = (executed, t', p')) :
    t'.receipts.length = t.receipts.length + executed.length
      + (b.taken gasLimit steps t p).countP (fun tx => b.Oversized gasLimit t tx) := by
  induction steps generalizing t p executed with
  | zero =>
    cases hloop
    rfl
  | succ steps ih =>
    rcases writeLoop_succ hloop with ⟨rfl, rfl, htaken⟩ | ⟨tx, result, t₁, p₁, hturn, hrest⟩
    · rw [htaken]
      rfl
    have hsame := writeTransaction_sameChain hturn
    have hcount : (b.taken gasLimit steps t₁ p₁).countP (fun tx => b.Oversized gasLimit t₁ tx)
        = (b.taken gasLimit steps t₁ p₁).countP (fun tx => b.Oversized gasLimit t tx) := by
      apply List.countP_congr
      intro tx _
      simp only [decide_eq_true_eq]
      exact oversized_congr hsame
    rcases hrest with ⟨rfl, rfl, rfl, htaken⟩ | ⟨r, rest, rfl, hrest, rfl, htaken⟩
    · rw [htaken]
      rcases writeTransaction_cases hturn with ⟨_, hnone, _⟩ | ⟨_, hover, k, rfl⟩ | ⟨hnone, _⟩
      · cases hnone
      · simp [hover]
      · cases hnone
    · have hih := ih hrest
      rw [hcount] at hih
      rw [htaken, List.countP_cons, hih]
      rcases writeTransaction_cases hturn with
        ⟨tx', hr, hexceeds, hwrite⟩ | ⟨hr, hover, k, rfl⟩ | ⟨hr, hover, hreceipt⟩
      · have hover : ¬ b.Oversized gasLimit t tx := by
          rintro ⟨h, _⟩
          simp [hexceeds] at h
        have hlen := congrArg List.length (Executor.write_ok hwrite).2.2.2.2
        simp only [List.length_map, List.length_append, List.length_singleton] at hlen
        cases hr
        simp only [if_true, List.length_cons, hover, decide_false, Bool.false_eq_true, if_false]
        omega
      · have hstatus : r.status ≠ .success := by simpa using hr
        simp [hstatus, hover]
      · have hlen := (Executor.writeFailedReceipt_ok hreceipt).2
        cases hr
        simp only [reduceCtorEq, if_false, hover, decide_true, if_true]
        omega

theorem processTransactions_writeLoop (hloop : b.writeLoop gasLimit steps t p = (executed, t', p'))
    (hsmall : ∀ tx ∈ b.taken gasLimit steps t p, ¬ b.Oversized gasLimit t tx) :
    t'.receipts.map Receipt.txHash = t.receipts.map Receipt.txHash ++ executed.map Transaction.hash
      ∧ ∀ k, ∃ k', b.executor.processTransactions gasLimit (t.withPool k) executed
        = .ok (t'.withPool k') := by
  induction steps generalizing t p executed with
  | zero =>
    cases hloop
    exact ⟨(List.append_nil _).symm, fun k => ⟨k, rfl⟩⟩
  | succ steps ih =>
    rcases writeLoop_succ hloop with ⟨rfl, rfl, htaken⟩ | ⟨tx, result, t₁, p₁, hturn, hrest⟩
    · exact ⟨(List.append_nil _).symm, fun k => ⟨k, rfl⟩⟩
    have hsame := writeTransaction_sameChain hturn
    rcases hrest with ⟨rfl, rfl, rfl, htaken⟩ | ⟨r, rest, rfl, hrest, rfl, htaken⟩
    · rcases writeTransaction_cases hturn with ⟨_, hnone, _⟩ | ⟨_, _, j, rfl⟩ | ⟨hnone, _⟩
      · cases hnone
      · refine ⟨(List.append_nil _).symm, fun k => ⟨j + k, ?_⟩⟩
        rw [Transition.withPool_withPool]
        rfl
      · cases hnone
    rw [htaken] at hsmall
    obtain ⟨hreceipts, hprocess⟩ := ih hrest (by
      intro tx' htx'
      rw [oversized_congr hsame]
      exact hsmall tx' (List.mem_cons_of_mem _ htx'))
    rcases writeTransaction_cases hturn with
      ⟨tx', hr, hexceeds, hwrite⟩ | ⟨hr, _, j, rfl⟩ | ⟨_, hover, _⟩
    · obtain ⟨hagain, hgas, hhash, _, hmap⟩ := Executor.write_ok hwrite
      cases hr
      refine ⟨?_, ?_⟩
      · rw [hreceipts, hmap]
        simp [hhash]
      · intro k
        obtain ⟨k', hk'⟩ := hprocess k
        have hexceeds' : tx'.exceedsBlockGasLimit gasLimit = false := by
          unfold Transaction.exceedsBlockGasLimit at hexceeds ⊢
          rw [hgas]
          exact hexceeds
        refine ⟨k', ?_⟩
        simp only [if_true, Executor.processTransactions, hexceeds', Bool.false_eq_true, if_false, hagain k, hk']
    · have hstatus : r.status ≠ .success := by simpa using hr
      rw [if_neg hstatus]
      refine ⟨hreceipts, ?_⟩
      intro k
      rw [Transition.withPool_withPool]
      exact hprocess (j + k)
    · exact absurd hover (hsmall tx List.mem_cons_self)

def takenTransactions (b : BlockBuilder σ π) (hooks : Hooks) (steps gasLimit blockNumber : Nat)
    (t : Transition σ) (p : π) : List Transaction :=
  if !hooks.shouldWriteTransactions blockNumber then []
  else b.taken gasLimit steps t (b.txpool.prepare p)

structure SameContext (header header' : Header) : Prop where
  number : header'.number = header.number
  timestamp : header'.timestamp = header.timestamp
  difficulty : header'.difficulty = header.difficulty
  gasLimit : header'.gasLimit = header.gasLimit
  parentHash : header'.parentHash = header.parentHash

def withSeal (block : Block) (extraData : Bytes) (hash : Hash) : Block :=
  { block with header := { block.header with extraData := extraData, hash := hash } }

structure Agrees (b : BlockBuilder σ π) (hooks : Hooks) (steps : Nat) (parentRoot : Hash)
    (header : Header) (proposer : Address) (p : π) (executed : List Transaction)
    (t' : Transition σ) : Prop where
  corresponds : t'.receipts.map Receipt.txHash = executed.map Transaction.hash
  reexecutes : ∀ header' uncles, SameContext header header' →
    ∃ v, b.executor.processBlock parentRoot ⟨header', executed, uncles⟩ proposer = .ok v
      ∧ v.receipts = t'.receipts
  verifies : ∀ block, b.buildBlock hooks steps parentRoot header proposer p = .ok block →
    ∀ extraData hash, ∃ result,
      b.executeBlockTransactions parentRoot (withSeal block extraData hash) proposer = .ok result
        ∧ b.verifyBlockResult result (withSeal block extraData hash) = .ok ()

variable {hooks : Hooks} {steps : Nat} {parentRoot : Hash} {header header' : Header}
  {proposer : Address} {executed : List Transaction}

theorem beginTxn_congr (hsame : SameContext header header') :
    b.executor.beginTxn parentRoot header' proposer
      = b.executor.beginTxn parentRoot header proposer := by
  simp only [Executor.beginTxn, hsame.number, hsame.timestamp, hsame.difficulty, hsame.gasLimit, hsame.parentHash]

theorem receipts_beginTxn (hbegin : b.executor.beginTxn parentRoot header proposer = .ok t) : t.receipts = [] := by
  obtain ⟨state, _, hbegin⟩ := Except.bind_eq_ok_iff.mp hbegin
  obtain rfl := Except.ok.inj hbegin
  rfl

section

variable (hrun : b.writeTransactions hooks steps gasLimit header.number t p = (executed, t', p'))

include hrun

theorem length_receipts_writeTransactions :
    t'.receipts.length = t.receipts.length + executed.length
      + (b.takenTransactions hooks steps gasLimit header.number t p).countP
        (fun tx => b.Oversized gasLimit t tx) := by
  unfold writeTransactions at hrun
  unfold takenTransactions
  split at hrun
  · cases hrun
    rw [if_pos (by assumption)]
    rfl
  · rw [if_neg (by assumption)]
    exact length_receipts_writeLoop hrun

theorem processTransactions_writeTransactions
    (hsmall : ∀ tx ∈ b.takenTransactions hooks steps gasLimit header.number t p, ¬ b.Oversized gasLimit t tx) :
    t'.receipts.map Receipt.txHash = t.receipts.map Receipt.txHash ++ executed.map Transaction.hash
      ∧ ∃ k, b.executor.processTransactions gasLimit t executed = .ok (t'.withPool k) := by
  unfold writeTransactions at hrun
  unfold takenTransactions at hsmall
  split at hrun
  · cases hrun
    exact ⟨(List.append_nil _).symm, 0, rfl⟩
  · rw [if_neg (by assumption)] at hsmall
    obtain ⟨hreceipts, hprocess⟩ := processTransactions_writeLoop hrun hsmall
    exact ⟨hreceipts, hprocess 0⟩

end

theorem verifyBlockResult_assemble {receipts : List Receipt} {root : Hash} {totalGas : Nat}
    (hlen : receipts.length = executed.length) (extraData : Bytes) (hash : Hash) :
    b.verifyBlockResult ⟨root, receipts, totalGas⟩
      (withSeal (b.assemble { header with stateRoot := root, gasUsed := totalGas } executed receipts)
        extraData hash) = .ok () := by
  have hroot : b.calculateReceiptsRoot receipts
      = if receipts.length = 0 then emptyRootHash else b.calculateReceiptsRoot receipts := by
    by_cases hempty : receipts.length = 0
    · rw [List.length_eq_zero_iff.mp hempty]
      rfl
    · rw [if_neg hempty]
  simp only [verifyBlockResult, Except.ite_throw_bind_eq_ok_iff]
  refine ⟨not_not.mpr hlen, not_not.mpr rfl, not_not.mpr rfl, ?_⟩
  exact if_neg (not_not.mpr hroot)

theorem receipts_agree_iff (hbegin : b.executor.beginTxn parentRoot header proposer = .ok t)
    (hrun : b.writeTransactions hooks steps header.gasLimit header.number t p = (executed, t', p')) :
    b.Agrees hooks steps parentRoot header proposer p executed t' ↔
      ∀ tx ∈ b.takenTransactions hooks steps header.gasLimit header.number t p,
        ¬ b.Oversized header.gasLimit t tx := by
  have hempty := receipts_beginTxn hbegin
  constructor
  · intro hagrees tx htx hover
    have hlen := congrArg List.length hagrees.corresponds
    rw [List.length_map, List.length_map, length_receipts_writeTransactions hrun, hempty] at hlen
    have hpos : 0 < (b.takenTransactions hooks steps header.gasLimit header.number t p).countP
        (fun tx => b.Oversized header.gasLimit t tx) := List.countP_pos_iff.mpr ⟨tx, htx, by simpa using hover⟩
    simp only [List.length_nil] at hlen
    omega
  · intro hsmall
    obtain ⟨hreceipts, k, hprocess⟩ := processTransactions_writeTransactions hrun hsmall
    rw [hempty, List.map_nil, List.nil_append] at hreceipts
    have hreexecutes (header') (uncles) (hsame : SameContext header header') :
        b.executor.processBlock parentRoot ⟨header', executed, uncles⟩ proposer = .ok (t'.withPool k) := by
      refine Except.bind_eq_ok_iff.mpr ⟨t, ?_, ?_⟩
      · rw [beginTxn_congr hsame, hbegin]
        rfl
      · simp only [hsame.gasLimit, hprocess]
        rfl
    refine ⟨hreceipts, ?_, ?_⟩
    · intro header' uncles hsame
      exact ⟨_, hreexecutes header' uncles hsame, rfl⟩
    · intro block hbuild extraData hash
      obtain ⟨t₀, hbegin', hbuild⟩ := Except.bind_eq_ok_iff.mp hbuild
      rw [hbegin] at hbegin'
      obtain rfl := Except.ok.inj hbegin'
      simp only [hrun] at hbuild
      obtain ⟨state, hstate, hbuild⟩ := Except.bind_eq_ok_iff.mp hbuild
      obtain rfl := Except.ok.inj hbuild
      refine ⟨⟨b.executor.commit t'.config state, t'.receipts, t'.totalGas⟩, ?_, ?_⟩
      · refine Except.bind_eq_ok_iff.mpr ⟨t'.withPool k, ?_, ?_⟩
        · refine Except.mapError_eq_ok_iff.mpr (hreexecutes _ _ ?_)
          exact ⟨rfl, rfl, rfl, rfl, rfl⟩
        · exact Except.bind_eq_ok hstate rfl
      · apply verifyBlockResult_assemble
        simpa using congrArg List.length hreceipts

end BlockBuilder

def sampleWorld : World Nat where
  getNonce s _ := s
  setNonce _ _ nonce := nonce
  getBalance _ _ := 10 ^ 30
  setBalance s _ _ := s
  getRefund _ := 0
  logs _ := []
  deleteLogs s := s
  cleanDeleteObjects _ s := s
  create2 _ _ _ _ _ _ _ s := (⟨0, false, Nat.zero_le _⟩, s + 1)
  call2 _ _ _ _ _ _ _ _ s := (⟨0, false, Nat.zero_le _⟩, s)

def sampleBuilder : BlockBuilder Nat (List Transaction) where
  executor := {
    world := sampleWorld
    forksAt := fun _ => ⟨true, true, true, true, true, true, true, true⟩
    chainID := 100
    newSnapshotAt := fun _ => .ok 0
    commit := fun _ s => FixedBytes.ofBytes 32 (Rlp.bigEndian s)
    getHash := fun _ _ _ => zeroHash
    sender := fun _ _ _ => .ok (sampleAddress 1)
    createAddress := fun _ _ => zeroAddress
    createBloom := fun _ => FixedBytes.zero 256 }
  txpool := {
    prepare := id
    peek := fun p => (p.head?, p.tail)
    pop := fun p _ => p
    drop := fun p _ => p
    demote := fun p _ => p }
  codec := Rlp.standard
  deriveRoot := fun items => FixedBytes.ofBytes 32 items.flatten
  preCommitState := fun _ s => .ok s
  headerHash := fun _ => zeroHash

def noHooks : Hooks := ⟨none, none, none, none, none⟩

def transfer (nonce gas : Nat) : Transaction :=
  ⟨nonce, 1, gas, some (sampleAddress 2), 0, [], 0, 0, 0, FixedBytes.ofBytes 32 [UInt8.ofNat nonce],
    zeroAddress⟩

def builtHeader : Header where
  parentHash := zeroHash
  sha3Uncles := zeroHash
  miner := []
  stateRoot := zeroHash
  txRoot := zeroHash
  receiptsRoot := zeroHash
  logsBloom := FixedBytes.zero 256
  difficulty := 1
  number := 1
  gasLimit := 50000
  gasUsed := 0
  timestamp := 0
  extraData := []
  mixHash := zeroHash
  nonce := FixedBytes.zero 8
  hash := zeroHash

def sampleTransition : Transition Nat where
  config := sampleBuilder.executor.forksAt builtHeader.number
  ctx := {
    gasPrice := 0, origin := zeroAddress, coinbase := zeroAddress, number := 1, timestamp := 0,
    gasLimit := 50000, chainID := 100, difficulty := 1 }
  getHash := fun _ => zeroHash
  state := 0
  gasPool := 50000
  receipts := []
  totalGas := 0

def sampleRun (pool : List Transaction) : List Transaction × Transition Nat × List Transaction :=
  sampleBuilder.writeTransactions noHooks 10 50000 1 sampleTransition pool

theorem receipts_agree_iff_fitting :
    sampleBuilder.Agrees noHooks 10 zeroHash builtHeader zeroAddress
      [transfer 0 21000, transfer 5 21000] (sampleRun [transfer 0 21000, transfer 5 21000]).1
      (sampleRun [transfer 0 21000, transfer 5 21000]).2.1
      ∧ (sampleRun [transfer 0 21000, transfer 5 21000]).1.length = 1 := by
  refine ⟨(BlockBuilder.receipts_agree_iff (t := sampleTransition) rfl rfl).mpr ?_, ?_⟩
  · decide +kernel
  · decide +kernel

theorem oversized_transfer_refused :
    (sampleRun [transfer 0 60000]).1 = []
      ∧ (sampleRun [transfer 0 60000]).2.1.receipts.map Receipt.txHash = [(transfer 0 60000).hash]
      ∧ (do
          let block ← sampleBuilder.buildBlock noHooks 10 zeroHash builtHeader zeroAddress
            [transfer 0 60000]
          let result ← sampleBuilder.executeBlockTransactions zeroHash block zeroAddress
          sampleBuilder.verifyBlockResult result block) = .error .invalidReceiptsRoot
      ∧ ¬ sampleBuilder.Agrees noHooks 10 zeroHash builtHeader zeroAddress [transfer 0 60000]
          (sampleRun [transfer 0 60000]).1 (sampleRun [transfer 0 60000]).2.1 := by
  have hexecuted : (sampleRun [transfer 0 60000]).1 = [] := by decide +kernel
  have hreceipts : (sampleRun [transfer 0 60000]).2.1.receipts.map Receipt.txHash
      = [(transfer 0 60000).hash] := by decide +kernel
  refine ⟨hexecuted, hreceipts, by decide +kernel, ?_⟩
  intro hagrees
  have hcorresponds := hagrees.corresponds
  rw [hexecuted, hreceipts] at hcorresponds
  exact absurd hcorresponds (List.cons_ne_nil _ _)

end Nxchain
