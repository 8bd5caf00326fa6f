import Mathlib.Tactic.Abel
import Nxchain.Lib.Runs
import Nxchain.Txpool.Account

namespace Nxchain.Txpool

theorem le_of_not_nonceLess {x y : Transaction} (h : ¬ nonceLess y x) : x.nonce ≤ y.nonce := by
  unfold nonceLess at h
  split_ifs at h with heq
  · exact heq.ge
  · exact not_lt.mp h

namespace Queue

variable [ContainerHeap]

variable {q : Queue} {tx : Transaction} {nonce : Nat}

theorem mem_of_peek (h : peek q = some tx) : tx ∈ q :=
  ContainerHeap.byNonce.mem_of_first h

theorem nonce_le_of_peek {other : Transaction} (h : peek q = some tx) (hother : other ∈ q) :
    tx.nonce ≤ other.nonce :=
  le_of_not_nonceLess (ContainerHeap.byNonce.least_of_first h other hother)

theorem peek_eq_none_iff : peek q = none ↔ q = [] :=
  ContainerHeap.byNonce.first_eq_none_iff

theorem exists_peek (htx : tx ∈ q) : ∃ first, peek q = some first :=
  ContainerHeap.byNonce.exists_first htx

theorem prune_perm (q : Queue) (nonce : Nat) : ((prune q nonce).1 ++ (prune q nonce).2).Perm q :=
  (ContainerHeap.byNonce.drain_spec _ _ q).1

theorem lt_of_mem_pruned (htx : tx ∈ (prune q nonce).1) : tx.nonce < nonce := by
  simpa using (ContainerHeap.byNonce.drain_spec _ _ q).2 tx htx

theorem mem_prune_iff : tx ∈ (prune q nonce).2 ↔ tx ∈ q ∧ nonce ≤ tx.nonce := by
  have hclosed : ∀ x y : Transaction, decide (x.nonce < nonce) = false → ¬ nonceLess y x →
      decide (y.nonce < nonce) = false := by
    intro x y hx hless
    simp only [decide_eq_false_iff_not, not_lt] at hx ⊢
    exact hx.trans (le_of_not_nonceLess hless)
  have hrest : ∀ x ∈ (prune q nonce).2, nonce ≤ x.nonce := by
    intro x hx
    simpa using ContainerHeap.byNonce.drain_snd hclosed le_rfl x hx
  constructor
  · intro htx
    exact ⟨(prune_perm q nonce).subset (List.mem_append_right _ htx), hrest tx htx⟩
  · rintro ⟨htx, hle⟩
    rcases List.mem_append.mp ((prune_perm q nonce).symm.subset htx) with hpruned | hkept
    · exact absurd (lt_of_mem_pruned hpruned) (not_lt.mpr hle)
    · exact hkept

theorem prune_of_le (h : peek q = some tx) (hle : nonce ≤ tx.nonce) : prune q nonce = ([], q) := by
  have hkeep : decide (tx.nonce < nonce) = false := by
    rw [decide_eq_false_iff_not]
    exact not_lt.mpr hle
  unfold prune
  cases q with
  | nil => rfl
  | cons first rest =>
    rw [List.length_cons, Heap.Chooser.drain, show ContainerHeap.byNonce.first _ = some tx from h]
    simp only [hkeep, Bool.false_eq_true, if_false]

theorem peek_eq_of_least (hnodup : (q.map Transaction.nonce).Nodup) (htx : tx ∈ q)
    (hleast : ∀ other ∈ q, tx.nonce ≤ other.nonce) : peek q = some tx := by
  obtain ⟨first, hpeek⟩ := exists_peek htx
  have hfirst := mem_of_peek hpeek
  have hnonce : first.nonce = tx.nonce := le_antisymm (nonce_le_of_peek hpeek htx) (hleast first hfirst)
  rw [hpeek, List.inj_on_of_nodup_map hnodup hfirst htx hnonce]

theorem length_prune_le (q : Queue) (nonce : Nat) : (prune q nonce).2.length ≤ q.length := by
  rw [← (prune_perm q nonce).length_eq, List.length_append]
  exact Nat.le_add_left _ _

end Queue

structure Interval (q : Queue) (low high : Nat) : Prop where
  nodup : (q.map Transaction.nonce).Nodup
  le : low ≤ high
  mem_iff : ∀ nonce, nonce ∈ q.map Transaction.nonce ↔ low ≤ nonce ∧ nonce < high

namespace Interval

variable {q : Queue} {low high : Nat}

variable {tx : Transaction}

theorem nil (nonce : Nat) : Interval [] nonce nonce where
  nodup := List.nodup_nil
  le := le_rfl
  mem_iff n := by
    simp only [List.map_nil, List.not_mem_nil, false_iff, not_and, not_lt]
    exact id

theorem mem_bounds (h : Interval q low high) (htx : tx ∈ q) : low ≤ tx.nonce ∧ tx.nonce < high :=
  (h.mem_iff tx.nonce).mp (List.mem_map_of_mem htx)

theorem push (h : Interval q low high) (htx : tx.nonce = high) :
    Interval (Queue.push q tx) low (high + 1) where
  nodup := by
    rw [Queue.push, List.map_append, List.map_singleton, List.nodup_append]
    refine ⟨h.nodup, List.nodup_singleton _, ?_⟩
    intro nonce hnonce other hother heq
    rw [List.mem_singleton] at hother
    have hlt := ((h.mem_iff nonce).mp hnonce).2
    omega
  le := h.le.trans (Nat.le_succ high)
  mem_iff nonce := by
    have hle := h.le
    rw [Queue.push, List.map_append, List.mem_append, h.mem_iff, List.map_singleton, List.mem_singleton, htx]
    omega

theorem eq_of_nil (h : Interval [] low high) : low = high := by
  by_contra hne
  have hle := h.le
  have hmem := (h.mem_iff low).mpr ⟨le_rfl, by omega⟩
  exact List.not_mem_nil hmem

variable [ContainerHeap]

variable (h : Interval q low high)

include h

theorem prune (nonce : Nat) :
    Interval (Queue.prune q nonce).2 (min (max low nonce) high) high where
  nodup := by
    have hperm := (Queue.prune_perm q nonce).map Transaction.nonce
    rw [List.map_append] at hperm
    exact (List.nodup_append.mp (hperm.nodup_iff.mpr h.nodup)).2.1
  le := min_le_right _ _
  mem_iff n := by
    have hmem : n ∈ (Queue.prune q nonce).2.map Transaction.nonce ↔ n ∈ q.map Transaction.nonce ∧ nonce ≤ n := by
      simp only [List.mem_map, Queue.mem_prune_iff]
      constructor
      · rintro ⟨tx, ⟨htx, hle⟩, rfl⟩
        exact ⟨⟨tx, htx, rfl⟩, hle⟩
      · rintro ⟨⟨tx, htx, rfl⟩, hle⟩
        exact ⟨tx, ⟨htx, hle⟩, rfl⟩
    rw [hmem, h.mem_iff]
    omega

theorem nonce_eq_of_peek (hpeek : Queue.peek q = some tx) : tx.nonce = low := by
  have hbounds := h.mem_bounds (Queue.mem_of_peek hpeek)
  obtain ⟨first, hfirst, hnonce⟩ := List.mem_map.mp ((h.mem_iff low).mpr ⟨le_rfl, hbounds.1.trans_lt hbounds.2⟩)
  have := Queue.nonce_le_of_peek hpeek hfirst
  omega

theorem erase (hpeek : Queue.peek q = some tx) : Interval (q.erase tx) (low + 1) high := by
  have hmem := Queue.mem_of_peek hpeek
  have hperm := (List.perm_cons_erase hmem).map Transaction.nonce
  have hbounds := h.mem_bounds hmem
  have hlow := h.nonce_eq_of_peek hpeek
  have hnodup := hperm.nodup_iff.mp h.nodup
  rw [List.map_cons, List.nodup_cons, hlow] at hnodup
  refine ⟨hnodup.2, by omega, ?_⟩
  intro n
  have hmem_iff : n ∈ q.map Transaction.nonce ↔ n = low ∨ n ∈ (q.erase tx).map Transaction.nonce := by
    rw [hperm.mem_iff, List.map_cons, List.mem_cons, hlow]
  rw [h.mem_iff] at hmem_iff
  constructor
  · intro hn
    have hne : n ≠ low := fun heq => hnodup.1 (heq ▸ hn)
    have := hmem_iff.mpr (.inr hn)
    omega
  · intro hn
    exact (hmem_iff.mp (by omega)).resolve_left (by omega)

theorem pop : ∃ low', Interval (Queue.pop q).2 low' high := by
  unfold Queue.pop
  cases hpeek : Queue.peek q with
  | none => exact ⟨low, h⟩
  | some tx => exact ⟨low + 1, h.erase hpeek⟩

end Interval

namespace Account

variable [ContainerHeap]

variable {a a' : Account} {tx : Transaction}

structure Ordered (a : Account) : Prop where
  promoted : ∃ lowest, Interval a.promoted lowest a.nextNonce
  enqueued : ∀ tx ∈ a.enqueued, a.nextNonce ≤ tx.nonce
  bounded : ∀ tx ∈ a.enqueued, tx.nonce < 2 ^ 64 - 1
  length_le : a.enqueued.length ≤ a.maxEnqueued
  resetting : ∀ nonce, a.resetting = some nonce → a.promoted = [] ∧ a.nextNonce < nonce

omit [ContainerHeap] in
theorem enqueue_cases (h : a.enqueue tx = .ok a') :
    a.enqueued.length ≠ a.maxEnqueued ∧ a.nextNonce ≤ tx.nonce ∧
      a' = { a with enqueued := Queue.push a.enqueued tx } := by
  unfold enqueue at h
  split_ifs at h with hlength hnonce
  exact ⟨hlength, not_lt.mp hnonce, (Except.ok.inj h).symm⟩

def Promotion.move (p : Promotion) (tx : Transaction) : Promotion :=
  let nextNonce := (tx.nonce + 1) % 2 ^ 64
  let (pruned, enqueued) := Queue.prune (p.enqueued.erase tx) nextNonce
  { nextNonce := nextNonce
    enqueued := enqueued
    promoted := Queue.push p.promoted tx
    moved := p.moved ++ [tx]
    pruned := p.pruned ++ pruned }

theorem promoteLoop_succ (fuel : Nat) (p : Promotion) :
    (promoteLoop (fuel + 1) p = p ∧ ∀ tx, Queue.peek p.enqueued = some tx → tx.nonce ≠ p.nextNonce) ∨
    ∃ tx, Queue.peek p.enqueued = some tx ∧ tx.nonce = p.nextNonce ∧
      promoteLoop (fuel + 1) p = promoteLoop fuel (p.move tx) := by
  rw [promoteLoop]
  cases hpeek : Queue.peek p.enqueued with
  | none => simp
  | some tx =>
    by_cases hnonce : tx.nonce = p.nextNonce
    · right
      refine ⟨tx, rfl, hnonce, ?_⟩
      simp only [hnonce, if_true, Promotion.move]
    · left
      refine ⟨by simp only [hnonce, if_false], ?_⟩
      intro other heq
      rw [← Option.some.inj heq]
      exact hnonce

namespace Promotion

variable {p : Promotion} {tx : Transaction} {lowest : Nat}

def transactions (p : Promotion) : List Transaction := p.promoted ++ p.enqueued ++ p.pruned

theorem transactions_move (htx : tx ∈ p.enqueued) : (p.move tx).transactions.Perm p.transactions := by
  have hprune := Queue.prune_perm (p.enqueued.erase tx) ((tx.nonce + 1) % 2 ^ 64)
  have herase := List.perm_cons_erase htx
  rw [← Multiset.coe_eq_coe] at hprune herase ⊢
  simp only [transactions, move, Queue.push, ← Multiset.coe_add, ← Multiset.cons_coe,
    ← Multiset.singleton_add, Multiset.coe_nil, add_zero] at hprune herase ⊢
  rw [herase, ← hprune]
  abel

theorem transactions_promoteLoop (fuel : Nat) (p : Promotion) :
    (promoteLoop fuel p).transactions.Perm p.transactions := by
  induction fuel generalizing p with
  | zero => exact .refl _
  | succ fuel ih =>
    obtain ⟨heq, -⟩ | ⟨tx, hpeek, -, heq⟩ := promoteLoop_succ fuel p
    · rw [heq]
    · rw [heq]
      exact (ih _).trans (transactions_move (Queue.mem_of_peek hpeek))

structure Ready (p : Promotion) (lowest : Nat) : Prop where
  promoted : Interval p.promoted lowest p.nextNonce
  enqueued : ∀ tx ∈ p.enqueued, p.nextNonce ≤ tx.nonce
  bounded : ∀ tx ∈ p.enqueued, tx.nonce < 2 ^ 64 - 1

theorem Ready.nextNonce_move (h : p.Ready lowest) (htx : tx ∈ p.enqueued) (hnonce : tx.nonce = p.nextNonce) :
    (p.move tx).nextNonce = p.nextNonce + 1 := by
  have hlt := h.bounded tx htx
  have hmod : (tx.nonce + 1) % 2 ^ 64 = tx.nonce + 1 := Nat.mod_eq_of_lt (by omega)
  rw [← hnonce]
  exact hmod

theorem Ready.move (h : p.Ready lowest) (htx : tx ∈ p.enqueued) (hnonce : tx.nonce = p.nextNonce) :
    (p.move tx).Ready lowest where
  promoted := by
    rw [h.nextNonce_move htx hnonce]
    exact h.promoted.push hnonce
  enqueued other hother := (Queue.mem_prune_iff.mp hother).2
  bounded other hother := h.bounded other (List.mem_of_mem_erase (Queue.mem_prune_iff.mp hother).1)

theorem length_move_lt (htx : tx ∈ p.enqueued) : (p.move tx).enqueued.length < p.enqueued.length := by
  have hle := Queue.length_prune_le (p.enqueued.erase tx) ((tx.nonce + 1) % 2 ^ 64)
  have herase := List.length_erase_of_mem htx
  have hpos := List.length_pos_of_mem htx
  simp only [Promotion.move]
  omega

structure Settled (p : Promotion) (lowest : Nat) : Prop extends p.Ready lowest where
  gap : ∀ tx ∈ p.enqueued, p.nextNonce < tx.nonce

theorem Ready.settled (h : p.Ready lowest)
    (hfirst : ∀ tx, Queue.peek p.enqueued = some tx → tx.nonce ≠ p.nextNonce) :
    p.Settled lowest where
  toReady := h
  gap tx htx := by
    obtain ⟨first, hpeek⟩ := Queue.exists_peek htx
    have hne := hfirst first hpeek
    have hle := h.enqueued first (Queue.mem_of_peek hpeek)
    have hleast := Queue.nonce_le_of_peek hpeek htx
    omega

theorem Ready.promoteLoop (h : p.Ready lowest) {fuel : Nat} (hfuel : p.enqueued.length ≤ fuel) :
    (promoteLoop fuel p).Settled lowest ∧ p.nextNonce ≤ (promoteLoop fuel p).nextNonce ∧
      (promoteLoop fuel p).enqueued.length ≤ p.enqueued.length := by
  induction fuel generalizing p with
  | zero =>
    have hnil : p.enqueued = [] := List.length_eq_zero_iff.mp (Nat.le_zero.mp hfuel)
    refine ⟨h.settled ?_, le_rfl, le_rfl⟩
    intro tx hpeek
    rw [hnil, Queue.peek_eq_none_iff.mpr rfl] at hpeek
    cases hpeek
  | succ fuel ih =>
    obtain ⟨heq, hfirst⟩ | ⟨tx, hpeek, hnonce, heq⟩ := promoteLoop_succ fuel p
    · rw [heq]
      exact ⟨h.settled hfirst, le_rfl, le_rfl⟩
    · have htx := Queue.mem_of_peek hpeek
      have hlt := length_move_lt htx
      obtain ⟨hsettled, hnext, hlength⟩ := ih (h.move htx hnonce) (by omega)
      rw [h.nextNonce_move htx hnonce] at hnext
      rw [heq]
      exact ⟨hsettled, by omega, by omega⟩

end Promotion

def promotion (a : Account) (first : Transaction) : Promotion :=
  ⟨first.nonce, a.enqueued, a.promoted, [], []⟩

theorem promote_cases (a : Account) :
    (a.promote = (([], []), a) ∧ ∀ tx ∈ a.enqueued, a.nextNonce < tx.nonce) ∨
    ∃ first p, Queue.peek a.enqueued = some first ∧ first.nonce ≤ a.nextNonce ∧
      p = promoteLoop a.enqueued.length (a.promotion first) ∧
      a.promote = ((p.moved, p.pruned),
        { a with enqueued := p.enqueued, promoted := p.promoted, nextNonce := max a.nextNonce p.nextNonce }) := by
  unfold promote
  cases hpeek : Queue.peek a.enqueued with
  | none =>
    left
    refine ⟨rfl, ?_⟩
    intro tx htx
    rw [Queue.peek_eq_none_iff.mp hpeek] at htx
    exact absurd htx List.not_mem_nil
  | some first =>
    by_cases hlt : a.nextNonce < first.nonce
    · left
      simp only [hlt, if_true]
      refine ⟨trivial, ?_⟩
      intro tx htx
      exact hlt.trans_le (Queue.nonce_le_of_peek hpeek htx)
    · right
      refine ⟨first, _, rfl, not_lt.mp hlt, rfl, ?_⟩
      simp only [hlt, if_false, promotion, max_def_lt]

theorem Ordered.promote_from (h : a.Ordered) (hlock : a.resetting = none) {lowest : Nat}
    (hpromoted : Interval a.promoted lowest a.nextNonce) :
    a.promote.2.Ordered ∧ Interval a.promote.2.promoted lowest a.promote.2.nextNonce ∧
      ∀ tx ∈ a.promote.2.enqueued, a.promote.2.nextNonce < tx.nonce := by
  obtain ⟨heq, hgap⟩ | ⟨first, p, hpeek, hle, hp, heq⟩ := a.promote_cases
  · rw [heq]
    exact ⟨h, hpromoted, hgap⟩
  · have hfirst : (a.promotion first).nextNonce = a.nextNonce :=
      le_antisymm hle (h.enqueued first (Queue.mem_of_peek hpeek))
    have hready : (a.promotion first).Ready lowest := by
      refine ⟨?_, ?_, h.bounded⟩
      · rw [hfirst]
        exact hpromoted
      · rw [hfirst]
        exact h.enqueued
    obtain ⟨hsettled, hnext, hlength⟩ := hready.promoteLoop (le_refl a.enqueued.length)
    rw [← hp] at hsettled hnext hlength
    rw [hfirst] at hnext
    rw [heq, max_eq_right hnext]
    refine ⟨⟨⟨lowest, hsettled.promoted⟩, hsettled.enqueued, hsettled.bounded,
      hlength.trans h.length_le, ?_⟩, hsettled.promoted, hsettled.gap⟩
    intro nonce hresetting
    rw [hlock] at hresetting
    cases hresetting

theorem Ordered.promote (h : a.Ordered) (hlock : a.resetting = none) :
    a.promote.2.Ordered ∧ ∀ tx ∈ a.promote.2.enqueued, a.promote.2.nextNonce < tx.nonce := by
  obtain ⟨lowest, hpromoted⟩ := h.promoted
  obtain ⟨hordered, -, hgap⟩ := h.promote_from hlock hpromoted
  exact ⟨hordered, hgap⟩

theorem pruneNonceHoles_cases (a : Account) :
    a.pruneNonceHoles = ([], a) ∨
      a.pruneNonceHoles = (a.enqueued, { a with enqueued := [] }) := by
  unfold pruneNonceHoles
  split
  · exact .inl rfl
  · split_ifs
    · exact .inl rfl
    · exact .inr rfl

def queued (a : Account) : List Transaction := a.promoted ++ a.enqueued

omit [ContainerHeap] in
theorem queued_enqueue (h : a.enqueue tx = .ok a') : a'.queued.Perm (tx :: a.queued) := by
  obtain ⟨-, -, rfl⟩ := enqueue_cases h
  rw [queued, Queue.push, ← List.append_assoc]
  exact List.perm_append_singleton _ _

theorem queued_promote (a : Account) : (a.promote.2.queued ++ a.promote.1.2).Perm a.queued := by
  obtain ⟨heq, -⟩ | ⟨first, p, -, -, rfl, heq⟩ := a.promote_cases
  · rw [heq, List.append_nil]
  · rw [heq]
    have hperm := Promotion.transactions_promoteLoop a.enqueued.length (a.promotion first)
    rw [Promotion.transactions, Promotion.transactions, promotion, List.append_nil] at hperm
    exact hperm

theorem Promotion.subset_promoteLoop (fuel : Nat) (p : Promotion) : p.promoted ⊆ (promoteLoop fuel p).promoted := by
  induction fuel generalizing p with
  | zero => exact List.Subset.refl _
  | succ fuel ih =>
    obtain ⟨heq, -⟩ | ⟨tx, -, -, heq⟩ := promoteLoop_succ fuel p
    · rw [heq]
      exact List.Subset.refl _
    · rw [heq]
      exact List.Subset.trans (List.subset_append_left _ _) (ih (p.move tx))

theorem Ordered.peek_promote (h : a.Ordered) (hlock : a.resetting = none) (htx : Queue.peek a.promoted = some tx) :
    Queue.peek a.promote.2.promoted = some tx := by
  obtain ⟨lowest, hinterval⟩ := (h.promote hlock).1.promoted
  obtain ⟨lowest', hbefore⟩ := h.promoted
  have hmem := Queue.mem_of_peek htx
  refine Queue.peek_eq_of_least hinterval.nodup ?_ ?_
  · obtain ⟨heq, -⟩ | ⟨first, p, -, -, rfl, heq⟩ := a.promote_cases
    · rw [heq]
      exact hmem
    · rw [heq]
      exact Promotion.subset_promoteLoop _ _ hmem
  · intro other hother
    -- what is moved was enqueued, so its nonce is not below the next one
    have hqueued := a.queued_promote.subset (List.mem_append_left _ (List.mem_append_left _ hother))
    rcases List.mem_append.mp hqueued with hpromoted | henqueued
    · exact Queue.nonce_le_of_peek htx hpromoted
    · exact ((hbefore.mem_bounds hmem).2.le).trans (h.enqueued other henqueued)

theorem queued_resetPromoted (a : Account) (nonce : Nat) :
    ((a.resetPromoted nonce).2.queued ++ (a.resetPromoted nonce).1).Perm a.queued := by
  have hperm := Queue.prune_perm a.promoted nonce
  rw [← Multiset.coe_eq_coe] at hperm ⊢
  simp only [queued, resetPromoted, ← Multiset.coe_add] at hperm ⊢
  rw [← hperm]
  abel

theorem queued_resetEnqueued (a : Account) : (a.resetEnqueued.2.2.queued ++ a.resetEnqueued.1).Perm a.queued := by
  unfold resetEnqueued
  cases a.resetting with
  | none => simp
  | some nonce =>
    have hperm := Queue.prune_perm a.enqueued nonce
    rw [← Multiset.coe_eq_coe] at hperm ⊢
    simp only [queued, ← Multiset.coe_add] at hperm ⊢
    rw [← hperm]
    abel

theorem queued_pop (h : Queue.peek a.promoted = some tx) : (tx :: a.pop.queued).Perm a.queued := by
  simp only [pop, Queue.pop, h]
  exact ((List.perm_cons_erase (Queue.mem_of_peek h)).append_right a.enqueued).symm

theorem queued_pruneNonceHoles (a : Account) :
    (a.pruneNonceHoles.2.queued ++ a.pruneNonceHoles.1).Perm a.queued := by
  obtain heq | heq := a.pruneNonceHoles_cases
  · simp [heq]
  · simp [heq, queued]

omit [ContainerHeap] in
theorem ordered_new (nonce maxEnqueued : Nat) : (new nonce maxEnqueued).Ordered where
  promoted := ⟨nonce, .nil nonce⟩
  enqueued := by simp [new]
  bounded := by simp [new]
  length_le := Nat.zero_le _
  resetting := by simp [new]

omit [ContainerHeap] in
theorem Ordered.enqueue (h : a.Ordered) (htx : tx.nonce < 2 ^ 64 - 1) (ha : a.enqueue tx = .ok a') :
    a'.Ordered := by
  obtain ⟨hlength, hnonce, rfl⟩ := enqueue_cases ha
  refine ⟨h.promoted, ?_, ?_, ?_, h.resetting⟩
  · simp only [Queue.push, List.forall_mem_append, List.forall_mem_singleton]
    exact ⟨h.enqueued, hnonce⟩
  · simp only [Queue.push, List.forall_mem_append, List.forall_mem_singleton]
    exact ⟨h.bounded, htx⟩
  · have hle := h.length_le
    simp only [Queue.push, List.length_append, List.length_singleton]
    omega

theorem Ordered.resetPromoted (h : a.Ordered) (nonce : Nat) :
    (a.resetPromoted nonce).2.Ordered where
  promoted := by
    obtain ⟨lowest, hpromoted⟩ := h.promoted
    exact ⟨_, hpromoted.prune nonce⟩
  enqueued := h.enqueued
  bounded := h.bounded
  length_le := h.length_le
  resetting n hn := by
    obtain ⟨lowest, hpromoted⟩ := h.promoted
    simp only [Account.resetPromoted] at hn ⊢
    split_ifs at hn with hle
    obtain rfl := Option.some.inj hn
    refine ⟨List.eq_nil_iff_forall_not_mem.mpr ?_, not_le.mp hle⟩
    intro tx htx
    obtain ⟨hmem, hge⟩ := Queue.mem_prune_iff.mp htx
    have hlt := (hpromoted.mem_bounds hmem).2
    omega

theorem Ordered.resetEnqueued (h : a.Ordered) : a.resetEnqueued.2.2.Ordered := by
  unfold Account.resetEnqueued
  cases hresetting : a.resetting with
  | none => exact h
  | some nonce =>
    obtain ⟨hnil, -⟩ := h.resetting nonce hresetting
    refine ⟨⟨nonce, ?_⟩, ?_, ?_, ?_, ?_⟩
    · rw [hnil]
      exact .nil nonce
    · intro tx htx
      exact (Queue.mem_prune_iff.mp htx).2
    · intro tx htx
      exact h.bounded tx (Queue.mem_prune_iff.mp htx).1
    · exact (Queue.length_prune_le _ _).trans h.length_le
    · intro n hn
      cases hn

theorem Ordered.pop (h : a.Ordered) (hlock : a.resetting = none) :
    a.pop.Ordered where
  promoted := by
    obtain ⟨lowest, hpromoted⟩ := h.promoted
    exact hpromoted.pop
  enqueued := h.enqueued
  bounded := h.bounded
  length_le := h.length_le
  resetting n hn := by simp [Account.pop, hlock] at hn

omit [ContainerHeap] in
theorem Ordered.drop (tx : Transaction) (hlock : a.resetting = none) :
    (a.drop tx).Ordered where
  promoted := ⟨tx.nonce, .nil tx.nonce⟩
  enqueued := by simp [Account.drop]
  bounded := by simp [Account.drop]
  length_le := Nat.zero_le _
  resetting n hn := by simp [Account.drop, hlock] at hn

theorem Ordered.pruneNonceHoles (h : a.Ordered) : a.pruneNonceHoles.2.Ordered := by
  obtain heq | heq := a.pruneNonceHoles_cases
  · rw [heq]
    exact h
  · rw [heq]
    exact ⟨h.promoted, by simp, by simp, Nat.zero_le _, h.resetting⟩

theorem step_maxEnqueued (a : Account) (op : Section) : (a.step op).maxEnqueued = a.maxEnqueued := by
  cases op with
  | enqueue tx =>
    rw [step]
    split
    next a' ha => rw [(enqueue_cases ha).2.2]
    next => rfl
  | promote =>
    rw [step]
    split_ifs
    · rfl
    · obtain ⟨heq, -⟩ | ⟨first, p, -, -, -, heq⟩ := a.promote_cases <;> rw [heq]
  | resetPromoted nonce => rw [step]; split_ifs <;> rfl
  | resetEnqueued =>
    rw [step, resetEnqueued]
    split <;> rfl
  | pop => rw [step]; split_ifs <;> rfl
  | drop tx => rw [step]; split_ifs <;> rfl
  | pruneNonceHoles =>
    rw [step]
    obtain heq | heq := a.pruneNonceHoles_cases <;> rw [heq]

end Account

def Section.Bounded : Section → Prop
  | .enqueue tx => tx.nonce < 2 ^ 64 - 1
  | _ => True

namespace Account

variable [ContainerHeap]

theorem Ordered.step {a : Account} (h : a.Ordered) {op : Section} (hop : op.Bounded) : (a.step op).Ordered := by
  have hlock : ¬ a.resetting.isSome = true → a.resetting = none := by simp
  cases op with
  | enqueue tx =>
    rw [Account.step]
    split
    next a' ha => exact h.enqueue hop ha
    next => exact h
  | promote =>
    rw [Account.step]
    split_ifs with hheld
    · exact h
    · exact (h.promote (hlock hheld)).1
  | resetPromoted nonce =>
    rw [Account.step]
    split_ifs
    · exact h
    · exact h.resetPromoted nonce
  | resetEnqueued => exact h.resetEnqueued
  | pop =>
    rw [Account.step]
    split_ifs with hheld
    · exact h
    · exact h.pop (hlock hheld)
  | drop tx =>
    rw [Account.step]
    split_ifs with hheld
    · exact h
    · exact .drop tx (hlock hheld)
  | pruneNonceHoles => exact h.pruneNonceHoles

theorem queues_ordered (nonce maxEnqueued : Nat) (ops : List Section)
    (hops : ∀ tx, Section.enqueue tx ∈ ops → tx.nonce < 2 ^ 64 - 1) :
    let a := ops.foldl step (new nonce maxEnqueued)
    (a.promoted.map Transaction.nonce).Nodup ∧
      (∃ lowest ≤ a.nextNonce, ∀ n, n ∈ a.promoted.map Transaction.nonce ↔ lowest ≤ n ∧ n < a.nextNonce) ∧
      (∀ tx ∈ a.enqueued, a.nextNonce ≤ tx.nonce) ∧ a.enqueued.length ≤ maxEnqueued := by
  intro a
  have hbounded : ∀ op ∈ ops, ∀ _ : Account, op.Bounded := by
    intro op hop _
    cases op with
    | enqueue tx => exact hops tx hop
    | _ => trivial
  have hstep : ∀ (a : Account) (op : Section), a.Ordered ∧ a.maxEnqueued = maxEnqueued →
      op.Bounded → (a.step op).Ordered ∧ (a.step op).maxEnqueued = maxEnqueued := by
    rintro a op ⟨hordered, hmax⟩ hop
    exact ⟨hordered.step hop, (a.step_maxEnqueued op).trans hmax⟩
  obtain ⟨hordered, hmax⟩ := Runs.inv_foldl hstep
    ⟨ordered_new nonce maxEnqueued, rfl⟩ (Runs.along_of_forall_mem hbounded _)
  obtain ⟨lowest, hinterval⟩ := hordered.promoted
  exact ⟨hinterval.nodup, ⟨lowest, hinterval.le, hinterval.mem_iff⟩, hordered.enqueued,
    hordered.length_le.trans_eq hmax⟩

end Account

section Sample

abbrev leftmostHeap : ContainerHeap where
  byNonce := .ofOrder nonceLess
    (by
      intro x
      simp [nonceLess])
    (by
      intro x y z
      unfold nonceLess
      split_ifs <;> omega)
    (by
      intro x y
      unfold nonceLess
      split_ifs <;> omega)
  byPrice := .ofOrder priceLess (fun x => lt_irrefl _)
    (by
      intro x y z
      unfold priceLess
      omega)
    (by
      intro x y
      unfold priceLess
      omega)

def sampleSender : Address := FixedBytes.ofBytes 20 [1]

def sampleTx (nonce gasPrice : Nat) : Transaction :=
  ⟨nonce, gasPrice, 21000, some zeroAddress, 0, [], 27, 1, 1, zeroHash, sampleSender⟩

local instance accountHeap : ContainerHeap := leftmostHeap

def sampleSections : List Section :=
  [.enqueue (sampleTx 1 1), .enqueue (sampleTx 0 1), .enqueue (sampleTx 1 2), .promote,
    .resetPromoted 5, .enqueue (sampleTx 5 1), .pop, .resetEnqueued, .promote]

theorem queues_ordered_sample : let a := sampleSections.foldl Account.step (.new 0 4)
    a.promoted = [sampleTx 5 1] ∧ a.nextNonce = 6 ∧ a.enqueued.length ≤ 4 :=
  ⟨by decide +kernel, by decide +kernel,
    (Account.queues_ordered 0 4 sampleSections (by
      intro tx htx
      simp only [sampleSections, List.mem_cons, Section.enqueue.injEq, reduceCtorEq, false_or,
        List.not_mem_nil, or_false] at htx
      rcases htx with rfl | rfl | rfl | rfl <;> decide)).2.2.2⟩

end Sample

end Nxchain.Txpool
