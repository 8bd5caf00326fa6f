import Nxchain.Proof.BuildingRounds
import Nxchain.Proof.Receipts

namespace Nxchain

namespace BlockBuilder

variable {σ π : Type} (b : BlockBuilder σ π) (gasLimit : Nat)

def stops : Nat → Transition σ → π → Bool
  | 0, _, _ => false
  | steps + 1, t, p =>
    match b.writeTransaction gasLimit t (b.txpool.peek p).2 (b.txpool.peek p).1 with
    | (none, _, _) => true
    | (some _, t, p) => stops steps t p

variable {b gasLimit}

theorem writeLoop_of_stops {bound : Nat} {t : Transition σ} {p : π} (h : b.stops gasLimit bound t p = true)
    {steps : Nat} (hsteps : bound ≤ steps) : b.writeLoop gasLimit steps t p = b.writeLoop gasLimit bound t p := by
  induction bound generalizing t p steps with
  | zero => cases h
  | succ bound ih =>
    obtain ⟨steps, rfl⟩ : ∃ rest, steps = rest + 1 := ⟨steps - 1, by omega⟩
    rw [writeLoop, writeLoop]
    rcases hresult : b.writeTransaction gasLimit t (b.txpool.peek p).2 (b.txpool.peek p).1 with
      ⟨_ | result, t', p'⟩
    · rfl
    · rw [stops, hresult] at h
      dsimp only
      rw [ih h (Nat.le_of_succ_le_succ hsteps)]

theorem length_taken {steps : Nat} {t : Transition σ} {p : π} (h : b.stops gasLimit steps t p = false) :
    (b.taken gasLimit steps t p).length = steps := by
  induction steps generalizing t p with
  | zero => rfl
  | succ steps ih =>
    rw [stops] at h
    rw [taken]
    cases hpeek : (b.txpool.peek p).1 with
    | none => simp [hpeek, writeTransaction] at h
    | some tx =>
      rw [hpeek] at h
      split at h
      next => cases h
      next hresult => simp [hresult, ih h]

theorem writeTransaction_outcome (b : BlockBuilder σ π) (gasLimit : Nat) {tx : Transaction}
    (htx : ∀ t, b.executor.withSender t tx = .ok tx) (t : Transition σ) (p : π) :
    ∃ t', b.writeTransaction gasLimit t p (some tx) = (none, t', p) ∨
      b.writeTransaction gasLimit t p (some tx) = (some ⟨tx, .success⟩, t', b.txpool.pop p tx) ∨
      b.writeTransaction gasLimit t p (some tx) = (some ⟨tx, .fail⟩, t', b.txpool.drop p tx) ∨
      b.writeTransaction gasLimit t p (some tx) = (some ⟨tx, .skip⟩, t', b.txpool.demote p tx) := by
  have hsent : ((b.executor.withSender t tx).toOption).getD tx = tx := by rw [htx]; rfl
  have hok : ∀ tx' t', b.executor.write t tx = (.ok tx', t') → tx' = tx := by
    intro tx' t' hwrite
    simp only [Executor.write, htx] at hwrite
    split at hwrite
    · cases hwrite
    · exact (Except.ok.inj (Prod.mk.inj hwrite).1).symm
  rw [writeTransaction]
  split_ifs
  · exact ⟨_, .inr (.inr (.inl rfl))⟩
  · rw [hsent]
    split
    next t' _ => exact ⟨t', .inl rfl⟩
    next t' _ => exact ⟨t', .inr (.inr (.inr rfl))⟩
    next t' _ => exact ⟨t', .inr (.inr (.inl rfl))⟩
    next tx' t' hwrite =>
      obtain rfl := hok tx' t' hwrite
      exact ⟨t', .inr (.inl rfl)⟩

end BlockBuilder

namespace Txpool

section Order

variable {σ : Type} [ContainerHeap]

variable {e : Executor σ} {addr : Address} {acc : Account}

structure Account.Consecutive (e : Executor σ) (addr : Address) (acc : Account) : Prop where
  interval : ∃ low high, Interval acc.promoted low high
  sender : ∀ tx ∈ acc.promoted, tx.sender = addr
  withSender : ∀ tx ∈ acc.promoted, ∀ t, e.withSender t tx = .ok tx

omit [ContainerHeap] in
theorem Account.consecutive_of_nil (h : acc.promoted = []) : acc.Consecutive e addr :=
  ⟨⟨0, 0, h ▸ .nil 0⟩, by simp [h], by simp [h]⟩

theorem Account.pop_promoted {tx : Transaction} (hpeek : Queue.peek acc.promoted = some tx) :
    acc.pop.promoted = acc.promoted.erase tx := by
  simp only [Account.pop, Queue.pop, hpeek]

theorem Account.Consecutive.pop (h : acc.Consecutive e addr) {tx : Transaction}
    (hpeek : Queue.peek acc.promoted = some tx) : acc.pop.Consecutive e addr := by
  obtain ⟨low, high, hinterval⟩ := h.interval
  have hsub : ∀ other ∈ acc.pop.promoted, other ∈ acc.promoted := by
    rw [pop_promoted hpeek]
    exact fun other hother => List.mem_of_mem_erase hother
  refine ⟨⟨low + 1, high, ?_⟩, fun other hother => h.sender other (hsub other hother),
    fun other hother => h.withSender other (hsub other hother)⟩
  rw [pop_promoted hpeek]
  exact hinterval.erase hpeek

namespace Pool

variable (c : Config)

variable {p' : Pool} {addr : Address}

inductive Fills : Pool → List Transaction → List Transaction → Prop
  | stop (p : Pool) : Fills p [] []
  | full {p : Pool} {tx : Transaction} (hpeek : p.peek.1 = some tx) : Fills p [tx] []
  | pop {p : Pool} {tx : Transaction} {peeked executed : List Transaction}
      (hpeek : p.peek.1 = some tx) (hrest : Fills (p.peek.2.pop c tx) peeked executed) :
      Fills p (tx :: peeked) (tx :: executed)
  | drop {p : Pool} {tx : Transaction} {peeked executed : List Transaction}
      (hpeek : p.peek.1 = some tx) (hrest : Fills (p.peek.2.drop c tx) peeked executed) :
      Fills p (tx :: peeked) executed
  | demote {p : Pool} {tx : Transaction} {peeked executed : List Transaction}
      (hpeek : p.peek.1 = some tx) (hrest : Fills (p.peek.2.demote c tx) peeked executed) :
      Fills p (tx :: peeked) executed

structure Round (e : Executor σ) (p : Pool) : Prop where
  heads : p.Heads p.executables
  accounts : p.All (Account.Consecutive e)

variable {c} {e : Executor σ} {p : Pool} {tx : Transaction}

theorem peek_cases (h : p.peek.1 = some tx) :
    tx ∈ p.executables ∧ p.peek.2 = { p with executables := p.executables.erase tx } := by
  unfold peek at h ⊢
  cases hfirst : ContainerHeap.byPrice.first p.executables with
  | none => simp [hfirst] at h
  | some first =>
    simp only [hfirst, Option.some.injEq] at h ⊢
    exact ⟨h ▸ ContainerHeap.byPrice.mem_of_first hfirst, by rw [h]⟩

theorem Round.peek (h : p.Round e) (hpeek : p.peek.1 = some tx) :
    p.peek.2.Heads (tx :: p.peek.2.executables) ∧ p.peek.2.All (Account.Consecutive e) := by
  obtain ⟨hmem, heq⟩ := peek_cases hpeek
  have hheads := h.heads.perm (List.perm_cons_erase hmem).symm
  rw [heq]
  exact ⟨⟨fun other hother => (hheads.head other hother).of_accounts rfl, hheads.nodup⟩, h.accounts.of_accounts rfl⟩

structure Iterates (e : Executor σ) (p : Pool) (tx : Transaction) (p' : Pool) : Prop where
  round : p'.Round e
  agrees : p.AgreesOff tx.sender p'
  others : ∀ first, first.sender ≠ tx.sender → (first ∈ p'.executables ↔ first ∈ p.executables)
  next : ∀ first ∈ p'.executables, first.sender = tx.sender → first.nonce = tx.nonce + 1 ∧
    ∃ acc acc', p.accounts.lookup tx.sender = some acc ∧
      p'.accounts.lookup tx.sender = some acc' ∧ acc'.promoted = acc.promoted.erase tx

def Closes (e : Executor σ) (p : Pool) (tx : Transaction) (p' : Pool) : Prop :=
  p.Iterates e tx p' ∧ ∀ first ∈ p'.executables, first.sender ≠ tx.sender

section

variable (h : p.Round e) (hpeek : p.peek.1 = some tx)

include h hpeek

theorem Round.closes (hagrees : p.peek.2.AgreesOff tx.sender p') (haccounts : p'.All (Account.Consecutive e))
    (hexecutables : p'.executables = p.peek.2.executables) : p.Closes e tx p' := by
  obtain ⟨hheads, -⟩ := h.peek hpeek
  obtain ⟨hmem, heq⟩ := peek_cases hpeek
  obtain ⟨hrest, hne⟩ := hheads.of_agreesOff hagrees
  rw [← hexecutables] at hrest hne
  refine ⟨⟨⟨hrest, haccounts⟩, ?_, ?_, fun first hfirst hsender => absurd hsender (hne first hfirst)⟩, hne⟩
  · intro other hother
    rw [hagrees other hother, heq]
  · intro first hfirst
    have hdistinct : first ≠ tx := fun hsame => hfirst (hsame ▸ rfl)
    rw [hexecutables, heq]
    exact List.mem_erase_of_ne hdistinct

theorem Round.drop : p.Closes e tx (p.peek.2.drop c tx) := by
  refine h.closes hpeek (agreesOff_drop _ tx) ?_ (drop_executables c _ tx)
  obtain ⟨hheads, haccounts⟩ := h.peek hpeek
  obtain ⟨acc, hacc, -⟩ := hheads.head tx List.mem_cons_self
  exact (haccounts.setAccount (Account.consecutive_of_nil rfl)).of_accounts (drop_accounts c hacc)

theorem Round.demote : p.Closes e tx (p.peek.2.demote c tx) := by
  refine h.closes hpeek (agreesOff_demote _ tx) ?_ (demote_executables c _ tx)
  obtain ⟨hheads, haccounts⟩ := h.peek hpeek
  obtain ⟨acc, hacc, -⟩ := hheads.head tx List.mem_cons_self
  simp only [Pool.demote, hacc]
  split_ifs
  · have hdrop : (p.peek.2.drop c tx).accounts.lookup tx.sender = some (acc.drop tx) := by
      rw [drop_accounts c hacc, AList.lookup_insert]
    have hdropped := (h.drop (c := c) hpeek).1.round.accounts
    simp only [modifyAccount, hdrop]
    exact hdropped.setAccount (Account.consecutive_of_nil rfl)
  · have hdemoted := haccounts _ _ hacc
    exact haccounts.setAccount ⟨hdemoted.interval, hdemoted.sender, hdemoted.withSender⟩

theorem Round.pop : p.Iterates e tx (p.peek.2.pop c tx) := by
  obtain ⟨hheads, haccounts⟩ := h.peek hpeek
  obtain ⟨hmem, heq⟩ := peek_cases hpeek
  obtain ⟨acc, hacc, hhead⟩ := hheads.head tx List.mem_cons_self
  obtain ⟨hrest, hne⟩ := hheads.of_agreesOff (agreesOff_pop (c := c) _ tx)
  have hconsecutive := (haccounts _ _ hacc).pop hhead
  have hacc' : (p.peek.2.pop c tx).accounts.lookup tx.sender = some acc.pop := by
    rw [pop_accounts c hacc, AList.lookup_insert]
  have hexecutables : (p.peek.2.pop c tx).executables =
      p.peek.2.executables ++ (Queue.peek acc.pop.promoted).toList := by
    rw [pop_eq c hacc]
    rfl
  refine ⟨⟨?_, ?_⟩, ?_, ?_, ?_⟩
  · rw [hexecutables]
    exact hrest.push hacc' hconsecutive.sender hne
  · exact (haccounts.setAccount hconsecutive).of_accounts (pop_accounts c hacc)
  · intro other hother
    rw [agreesOff_pop _ tx other hother, heq]
  · intro first hfirst
    have hdistinct : first ≠ tx := fun hsame => hfirst (hsame ▸ rfl)
    have hnew : first ∉ (Queue.peek acc.pop.promoted).toList := by
      rw [Option.mem_toList]
      exact fun hin => hfirst (hconsecutive.sender first (Queue.mem_of_peek hin))
    rw [hexecutables, List.mem_append, or_iff_left hnew, heq]
    exact List.mem_erase_of_ne hdistinct
  · intro first hfirst hsender
    rw [hexecutables, List.mem_append, Option.mem_toList] at hfirst
    have hnext := hfirst.resolve_left fun hin => hne first hin hsender
    obtain ⟨low, high, hinterval⟩ := (haccounts _ _ hacc).interval
    have herase := hinterval.erase hhead
    rw [Account.pop_promoted hhead] at hnext
    refine ⟨?_, acc, acc.pop, ?_, hacc', Account.pop_promoted hhead⟩
    · rw [herase.nonce_eq_of_peek hnext, hinterval.nonce_eq_of_peek hhead]
    · rw [heq] at hacc
      exact hacc

end

def Open (p : Pool) (tx : Transaction) : Prop :=
  (∃ acc, p.accounts.lookup tx.sender = some acc ∧ tx ∈ acc.promoted) ∧
    ∃ first ∈ p.executables, first.sender = tx.sender

theorem Round.open_of_mem (h : p.Round e) (hmem : tx ∈ p.executables) : p.Open tx := by
  obtain ⟨acc, hacc, hhead⟩ := h.heads.head tx hmem
  exact ⟨⟨acc, hacc, Queue.mem_of_peek hhead⟩, tx, hmem, rfl⟩

theorem Iterates.open (h : p.Iterates e tx p') (hround : p.Round e) (hmem : tx ∈ p.executables)
    {other : Transaction} (hopen : p'.Open other) : p.Open other ∧ other ≠ tx := by
  obtain ⟨⟨acc', hacc', hpromoted⟩, first, hfirst, hsender⟩ := hopen
  by_cases hmine : other.sender = tx.sender
  · obtain ⟨-, acc, acc'', hacc, hacc'', herase⟩ := h.next first hfirst (hsender.trans hmine)
    rw [hmine, hacc''] at hacc'
    obtain rfl := Option.some.inj hacc'
    rw [herase] at hpromoted
    obtain ⟨low, high, hinterval⟩ := (hround.accounts _ _ hacc).interval
    exact ⟨⟨⟨acc, hmine ▸ hacc, List.mem_of_mem_erase hpromoted⟩, tx, hmem, hmine.symm⟩,
      fun heq => (hinterval.nodup.of_map _).not_mem_erase (heq ▸ hpromoted)⟩
  · refine ⟨⟨⟨acc', (h.agrees _ hmine) ▸ hacc', hpromoted⟩, first, ?_, hsender⟩, ?_⟩
    · exact (h.others first (hsender ▸ hmine)).mp hfirst
    · exact fun heq => hmine (heq ▸ rfl)

def ofSender (addr : Address) (txs : List Transaction) : List Transaction :=
  txs.filter fun tx => tx.sender = addr

omit [ContainerHeap] in
theorem ofSender_cons_of_eq (h : tx.sender = addr) (txs : List Transaction) :
    ofSender addr (tx :: txs) = tx :: ofSender addr txs :=
  List.filter_cons_of_pos (by simpa using h)

omit [ContainerHeap] in
theorem ofSender_cons_of_ne (h : tx.sender ≠ addr) (txs : List Transaction) :
    ofSender addr (tx :: txs) = ofSender addr txs :=
  List.filter_cons_of_neg (by simpa using h)

def Sequence (p : Pool) (addr : Address) (txs : List Transaction) : Prop :=
  ofSender addr txs = [] ∨ ∃ first ∈ p.executables, first.sender = addr ∧
    ∃ count, (ofSender addr txs).map Transaction.nonce = List.range' first.nonce count

theorem Sequence.of_others {txs : List Transaction} (h : p'.Sequence addr txs) (hnext : p.Iterates e tx p')
    (hne : tx.sender ≠ addr) : p.Sequence addr txs := by
  refine h.imp_right ?_
  rintro ⟨first, hfirst, hsender, hnonces⟩
  exact ⟨first, (hnext.others first (hsender ▸ hne.symm)).mp hfirst, hsender, hnonces⟩

namespace Fills

variable {peeked executed : List Transaction}

theorem induction {motive : Pool → List Transaction → List Transaction → Prop}
    (stop : ∀ p, motive p [] [])
    (full : ∀ p tx, p.Round e → tx ∈ p.executables → motive p [tx] [])
    (pop : ∀ p tx p' peeked executed, p.Round e → tx ∈ p.executables → p.Iterates e tx p' →
      motive p' peeked executed → motive p (tx :: peeked) (tx :: executed))
    (close : ∀ p tx p' peeked executed, p.Round e → tx ∈ p.executables → p.Closes e tx p' →
      motive p' peeked executed → motive p (tx :: peeked) executed)
    (h : Fills c p peeked executed) (hround : p.Round e) : motive p peeked executed := by
  induction h with
  | stop p => exact stop p
  | full hpeek => exact full _ _ hround (peek_cases hpeek).1
  | pop hpeek _ ih =>
    have hnext := hround.pop (c := c) hpeek
    exact pop _ _ _ _ _ hround (peek_cases hpeek).1 hnext (ih hnext.round)
  | drop hpeek _ ih =>
    have hnext := hround.drop (c := c) hpeek
    exact close _ _ _ _ _ hround (peek_cases hpeek).1 hnext (ih hnext.1.round)
  | demote hpeek _ ih =>
    have hnext := hround.demote (c := c) hpeek
    exact close _ _ _ _ _ hround (peek_cases hpeek).1 hnext (ih hnext.1.round)

variable (h : Fills c p peeked executed)

include h

theorem nodup (hround : p.Round e) : peeked.Nodup ∧ ∀ tx ∈ peeked, p.Open tx := by
  have hcons : ∀ (p : Pool) (tx : Transaction) (p' : Pool) (peeked : List Transaction),
      p.Round e → tx ∈ p.executables → p.Iterates e tx p' → (peeked.Nodup ∧ ∀ tx ∈ peeked, p'.Open tx) →
      (tx :: peeked).Nodup ∧ ∀ other ∈ tx :: peeked, p.Open other := by
    rintro p tx p' peeked hround hmem hnext ⟨hnodup, hopen⟩
    rw [List.nodup_cons, List.forall_mem_cons]
    refine ⟨⟨fun hin => ?_, hnodup⟩, hround.open_of_mem hmem, fun other hother => ?_⟩
    · exact (hnext.open hround hmem (hopen tx hin)).2 rfl
    · exact (hnext.open hround hmem (hopen other hother)).1
  refine h.induction (motive := fun p peeked _ => peeked.Nodup ∧ ∀ tx ∈ peeked, p.Open tx)
    (e := e) ?_ ?_ ?_ ?_ hround
  · exact fun _ => ⟨List.nodup_nil, nofun⟩
  · intro p tx hround hmem
    exact ⟨List.nodup_singleton tx, List.forall_mem_singleton.mpr (hround.open_of_mem hmem)⟩
  · intro p tx p' peeked _ hround hmem hnext
    exact hcons p tx p' peeked hround hmem hnext
  · intro p tx p' peeked _ hround hmem hnext
    exact hcons p tx p' peeked hround hmem hnext.1

theorem sublist : executed.Sublist peeked := by
  induction h with
  | stop => exact .slnil
  | full => exact List.nil_sublist _
  | pop _ _ ih => exact ih.cons_cons _
  | drop _ _ ih => exact ih.cons _
  | demote _ _ ih => exact ih.cons _

theorem sequence (hround : p.Round e) (addr : Address) : p.Sequence addr executed := by
  refine h.induction (motive := fun p _ executed => p.Sequence addr executed) (e := e) ?_ ?_ ?_ ?_ hround
  · exact fun _ => .inl rfl
  · exact fun _ _ _ _ => .inl rfl
  · intro p tx p' peeked executed hround hmem hnext ih
    by_cases hmine : tx.sender = addr
    · refine .inr ⟨tx, hmem, hmine, ?_⟩
      rw [ofSender_cons_of_eq hmine]
      obtain hnone | ⟨first, hfirst, hsender, count, hnonces⟩ := ih
      · exact ⟨1, by rw [hnone]; rfl⟩
      · refine ⟨count + 1, ?_⟩
        rw [List.map_cons, hnonces, (hnext.next first hfirst (hsender.trans hmine.symm)).1, List.range'_succ]
    · rw [Sequence, ofSender_cons_of_ne hmine]
      exact ih.of_others hnext hmine
  · intro p tx p' peeked executed hround hmem hnext ih
    by_cases hmine : tx.sender = addr
    · refine .inl (ih.resolve_right ?_)
      rintro ⟨first, hfirst, hsender, -⟩
      exact hnext.2 first hfirst (hsender.trans hmine.symm)
    · exact ih.of_others hnext.1 hmine

end Fills

theorem Round.fills {b : BlockBuilder σ Pool} (hb : b.txpool = txPool c) (gasLimit steps : Nat) (t : Transition σ)
    (h : p.Round b.executor) : Fills c p (b.taken gasLimit steps t p) (b.writeLoop gasLimit steps t p).1 := by
  induction steps generalizing t p with
  | zero => exact .stop p
  | succ steps ih =>
    have hpeek : b.txpool.peek p = p.peek := by rw [hb]; rfl
    rw [BlockBuilder.taken, BlockBuilder.writeLoop, hpeek]
    cases hfirst : p.peek.1 with
    | none => simpa [BlockBuilder.writeTransaction] using Fills.stop p
    | some tx =>
      have hopen := h.open_of_mem (peek_cases hfirst).1
      obtain ⟨acc, hacc, hpromoted⟩ := hopen.1
      obtain ⟨t', hresult⟩ := b.writeTransaction_outcome gasLimit
        ((h.accounts _ _ hacc).withSender tx hpromoted) t p.peek.2
      rw [hb] at hresult
      obtain hresult | hresult | hresult | hresult := hresult
      · simp only [hresult]
        exact .full hfirst
      · simp only [hresult]
        exact .pop hfirst (ih t' (h.pop hfirst).round)
      · simp only [hresult]
        exact .drop hfirst (ih t' (h.drop hfirst).1.round)
      · simp only [hresult]
        exact .demote hfirst (ih t' (h.demote hfirst).1.round)

theorem senders_sublist {entries : List (Sigma fun _ : Address => Account)}
    (h : ∀ entry ∈ entries, ∀ tx ∈ entry.2.promoted, tx.sender = entry.1) :
    ((entries.filterMap fun entry => Queue.peek entry.2.promoted).map Transaction.sender).Sublist
      entries.keys := by
  induction entries with
  | nil => exact .slnil
  | cons entry rest ih =>
    rw [List.forall_mem_cons] at h
    rw [List.filterMap_cons]
    cases hpeek : Queue.peek entry.2.promoted with
    | none => exact (ih h.2).cons _
    | some tx =>
      rw [List.map_cons, h.1 tx (Queue.mem_of_peek hpeek)]
      exact (ih h.2).cons_cons _

theorem All.round_prepare (h : p.All (Account.Consecutive e)) : p.prepare.Round e := by
  have hlookup : ∀ entry ∈ p.accounts.entries, p.accounts.lookup entry.1 = some entry.2 :=
    fun entry hentry => AList.mem_lookup_iff.mpr hentry
  refine ⟨⟨?_, ?_⟩, h.of_accounts rfl⟩
  · intro tx htx
    obtain ⟨entry, hentry, hpeek⟩ := List.mem_filterMap.mp htx
    have hsender := (h _ _ (hlookup entry hentry)).sender tx (Queue.mem_of_peek hpeek)
    exact ⟨entry.2, hsender ▸ hlookup entry hentry, hpeek⟩
  · exact p.accounts.keys_nodup.sublist (senders_sublist fun entry hentry => (h _ _ (hlookup entry hentry)).sender)

end Pool

theorem building_order (c : Config) (b : BlockBuilder σ Pool) (hb : b.txpool = Pool.txPool c) (hooks : Hooks)
    (gasLimit blockNumber : Nat) (t : Transition σ) (p : Pool) (hp : p.All (Account.Consecutive b.executor)) :
    (∃ bound, ∀ steps ≥ bound, b.stops gasLimit steps t p.prepare = true ∧
      b.writeTransactions hooks steps gasLimit blockNumber t p =
        b.writeTransactions hooks bound gasLimit blockNumber t p) ∧
    ∀ steps, (b.taken gasLimit steps t p.prepare).Nodup ∧
      (∀ tx ∈ (b.writeTransactions hooks steps gasLimit blockNumber t p).1,
        ∃ acc, p.accounts.lookup tx.sender = some acc ∧ tx ∈ acc.promoted) ∧
      ∀ addr acc lowest, p.accounts.lookup addr = some acc → lowest ∈ acc.promoted →
        (∀ tx ∈ acc.promoted, lowest.nonce ≤ tx.nonce) →
        ∃ count, ((b.writeTransactions hooks steps gasLimit blockNumber t p).1.filter
          fun tx => tx.sender = addr).map Transaction.nonce = List.range' lowest.nonce count := by
  have hround : p.prepare.Round b.executor := hp.round_prepare
  have hfills := fun steps => hround.fills (c := c) hb gasLimit steps t
  have hprepare : b.txpool.prepare p = p.prepare := by rw [hb]; rfl
  constructor
  · refine ⟨p.queued.length + 1, ?_⟩
    have hstops : ∀ steps > p.queued.length, b.stops gasLimit steps t p.prepare = true := by
      intro steps hsteps
      by_contra hne
      obtain ⟨hnodup, hopen⟩ := (hfills steps).nodup hround
      have hqueued : b.taken gasLimit steps t p.prepare ⊆ p.queued := by
        intro tx htx
        obtain ⟨⟨acc, hacc, hpromoted⟩, -⟩ := hopen tx htx
        exact List.mem_flatMap.mpr
          ⟨⟨tx.sender, acc⟩, AList.mem_lookup_iff.mp hacc, List.mem_append_left _ hpromoted⟩
      have hlength := (hnodup.subperm hqueued).length_le
      rw [BlockBuilder.length_taken (by simpa using hne)] at hlength
      omega
    intro steps hsteps
    refine ⟨hstops steps hsteps, ?_⟩
    simp only [BlockBuilder.writeTransactions, hprepare]
    rw [BlockBuilder.writeLoop_of_stops (hstops _ (Nat.lt_succ_self _)) hsteps]
  · intro steps
    obtain ⟨hnodup, hopen⟩ := (hfills steps).nodup hround
    simp only [BlockBuilder.writeTransactions, hprepare]
    split_ifs
    · exact ⟨hnodup, nofun, fun _ _ _ _ _ _ => ⟨0, rfl⟩⟩
    · refine ⟨hnodup, fun tx htx => (hopen tx ((hfills steps).sublist.subset htx)).1,
        fun addr acc lowest hacc hmem hlowest => ?_⟩
      obtain hnone | ⟨first, hfirst, rfl, count, hnonces⟩ := (hfills steps).sequence hround addr
      · exact ⟨0, by rw [← Pool.ofSender, hnone]; rfl⟩
      · refine ⟨count, hnonces.trans ?_⟩
        obtain ⟨acc', hacc', hhead⟩ := hround.heads.head first hfirst
        obtain rfl : acc' = acc := Option.some.inj (hacc'.symm.trans hacc)
        have hle := hlowest first (Queue.mem_of_peek hhead)
        have hge := Queue.nonce_le_of_peek hhead hmem
        rw [Nat.le_antisymm hge hle]

end Order

section Sample

local instance orderHeap : ContainerHeap := leftmostHeap

def samplePoolBuilder : BlockBuilder Nat Pool where
  executor := sampleBuilder.executor
  txpool := Pool.txPool sampleConfig
  codec := sampleBuilder.codec
  deriveRoot := sampleBuilder.deriveRoot
  preCommitState := sampleBuilder.preCommitState
  headerHash := sampleBuilder.headerHash

def samplePromoted : Account :=
  { Account.new 0 4 with promoted := [sampleTx 1 1, sampleTx 0 1], nextNonce := 2 }

theorem samplePromoted_consecutive :
    samplePromoted.Consecutive samplePoolBuilder.executor sampleSender where
  interval := by
    refine ⟨0, 2, by decide, by decide, fun nonce => ?_⟩
    simp only [samplePromoted, sampleTx, List.map_cons, List.map_nil, List.mem_cons, List.not_mem_nil, or_false]
    omega
  sender := by decide
  withSender := by
    intro tx htx t
    have hsender : tx.sender ≠ zeroAddress := by
      revert htx tx
      decide
    rw [Executor.withSender, if_neg hsender]

theorem building_order_sample :
    let executed := (samplePoolBuilder.writeTransactions noHooks 10 50000 1 sampleTransition
      ((Pool.new 10).setAccount sampleSender samplePromoted)).1
    executed.map Transaction.nonce = [0, 1] ∧
      ∃ count, (executed.filter fun tx => tx.sender = sampleSender).map Transaction.nonce =
        List.range' 0 count := by
  refine ⟨by decide +kernel, ?_⟩
  have hpool : ((Pool.new 10).setAccount sampleSender samplePromoted).All
      (Account.Consecutive samplePoolBuilder.executor) :=
    Pool.All.setAccount (fun addr acc hacc => by simp [Pool.new] at hacc) samplePromoted_consecutive
  exact ((building_order sampleConfig samplePoolBuilder rfl noHooks 50000 1 sampleTransition _
    hpool).2 10).2.2 sampleSender samplePromoted (sampleTx 0 1) (by decide +kernel) (by decide) (by decide)

end Sample

end Txpool

end Nxchain
