import Nxchain.Proof.PoolSteps

namespace Nxchain.Txpool

inductive RoundCall where
  | prepare
  | peek
  | pop (tx : Transaction)
deriving DecidableEq

section Rounds

variable [ContainerHeap]

theorem Account.mem_of_mem_pop {acc : Account} {tx : Transaction} (h : tx ∈ acc.pop.promoted) :
    tx ∈ acc.promoted := by
  unfold Account.pop Queue.pop at h
  split at h
  next => exact h
  next => exact List.mem_of_mem_erase h

namespace Pool

variable (c : Config)

def roundStep (p : Pool) : RoundCall → Pool
  | .prepare => p.prepare
  | .peek => p.peek.2
  | .pop tx => p.pop c tx

structure PricedBelow (bound : Nat) (p : Pool) : Prop where
  accounts : p.All fun _ acc => ∀ tx ∈ acc.promoted, tx.gasPrice < bound
  executables : ∀ tx ∈ p.executables, tx.gasPrice < bound

variable {c} {bound : Nat} {p : Pool}

theorem PricedBelow.prepare (h : p.PricedBelow bound) : p.prepare.PricedBelow bound := by
  refine ⟨h.accounts.of_accounts rfl, fun tx htx => ?_⟩
  obtain ⟨entry, hentry, hpeek⟩ := List.mem_filterMap.mp htx
  have hlookup : p.accounts.lookup entry.1 = some entry.2 := AList.mem_lookup_iff.mpr hentry
  exact h.accounts _ _ hlookup tx (Queue.mem_of_peek hpeek)

theorem peek_snd (p : Pool) : ∃ rest, p.peek.2 = { p with executables := rest } ∧ rest ⊆ p.executables := by
  unfold peek
  split
  next => exact ⟨p.executables, rfl, List.Subset.refl _⟩
  next tx _ => exact ⟨p.executables.erase tx, rfl, List.erase_subset⟩

theorem PricedBelow.peek (h : p.PricedBelow bound) : p.peek.2.PricedBelow bound := by
  obtain ⟨rest, heq, hrest⟩ := p.peek_snd
  rw [heq]
  exact ⟨h.accounts.of_accounts rfl, fun tx htx => h.executables tx (hrest htx)⟩

theorem PricedBelow.pop (h : p.PricedBelow bound) (tx : Transaction) : (p.pop c tx).PricedBelow bound := by
  cases hacc : p.accounts.lookup tx.sender with
  | none =>
    rw [Pool.pop, hacc]
    exact h
  | some acc =>
    have hpopped : ∀ other ∈ acc.pop.promoted, other.gasPrice < bound :=
      fun other hother => h.accounts _ _ hacc other (Account.mem_of_mem_pop hother)
    refine ⟨(h.accounts.setAccount hpopped).of_accounts (pop_accounts c hacc), ?_⟩
    rw [pop_eq c hacc]
    intro other hother
    rcases List.mem_append.mp hother with hother | hother
    · exact h.executables other hother
    · exact hpopped other (Queue.mem_of_peek (Option.mem_toList.mp hother))

theorem PricedBelow.roundStep (h : p.PricedBelow bound) (call : RoundCall) :
    (p.roundStep c call).PricedBelow bound := by
  cases call with
  | prepare => exact h.prepare
  | peek => exact h.peek
  | pop tx => exact h.pop tx

theorem peek_eq_none_iff : p.peek.1 = none ↔ p.executables = [] := by
  rw [← ContainerHeap.byPrice.first_eq_none_iff]
  unfold Pool.peek
  split
  next hfirst => simp [hfirst]
  next hfirst => simp [hfirst]

theorem low_word_le_of_peek {tx : Transaction} (hpeek : p.peek.1 = some tx) :
    tx ∈ p.executables ∧
      ∀ other ∈ p.executables, other.gasPrice % 2 ^ 64 ≤ tx.gasPrice % 2 ^ 64 := by
  unfold Pool.peek at hpeek
  split at hpeek
  next => cases hpeek
  next first hfirst =>
      obtain rfl : first = tx := Option.some.inj hpeek
      refine ⟨ContainerHeap.byPrice.mem_of_first hfirst, fun other hother => ?_⟩
      exact Nat.le_of_not_lt (ContainerHeap.byPrice.least_of_first hfirst other hother)

theorem peek_takes_the_best_price (c : Config) {start : Pool} (hstart : start.PricedBelow (2 ^ 64))
    (calls : List RoundCall) : let p := calls.foldl (roundStep c) start
    (p.peek.1 = none ↔ p.executables = []) ∧
      ∀ tx, p.peek.1 = some tx →
        tx ∈ p.executables ∧ ∀ other ∈ p.executables, other.gasPrice ≤ tx.gasPrice := by
  intro p
  have hp : p.PricedBelow (2 ^ 64) :=
    Runs.inv_foldl (fun s call (h : s.PricedBelow (2 ^ 64)) _ => h.roundStep call) hstart
      (Runs.along_of_forall_mem (fun _ _ _ => trivial) start)
  refine ⟨peek_eq_none_iff, fun tx hpeek => ?_⟩
  obtain ⟨hmem, hbest⟩ := low_word_le_of_peek hpeek
  refine ⟨hmem, fun other hother => ?_⟩
  have hle := hbest other hother
  rwa [Nat.mod_eq_of_lt (hp.executables other hother), Nat.mod_eq_of_lt (hp.executables tx hmem)] at hle

end Pool

end Rounds

section Sample

local instance priceHeap : ContainerHeap := leftmostHeap

def rivalTx (gasPrice : Nat) : Transaction :=
  { sampleTx 0 gasPrice with sender := FixedBytes.ofBytes 20 [2] }

def samplePriced (first next rival : Nat) : Pool :=
  ((Pool.new 10).setAccount sampleSender
      { Account.new 2 10 with promoted := [sampleTx 0 first, sampleTx 1 next] }).setAccount
    (rivalTx rival).sender { Account.new 1 10 with promoted := [rivalTx rival] }

theorem samplePriced_pricedBelow {bound first next rival : Nat} (hfirst : first < bound) (hnext : next < bound)
    (hrival : rival < bound) : (samplePriced first next rival).PricedBelow bound := by
  have hnew : (Pool.new 10).All fun _ acc => ∀ tx ∈ acc.promoted, tx.gasPrice < bound :=
    fun addr acc hlookup => by cases hlookup
  refine ⟨(hnew.setAccount ?_).setAccount ?_, fun tx htx => by cases htx⟩
  · simp [sampleTx, hfirst, hnext]
  · simp [rivalTx, sampleTx, hrival]

theorem peek_takes_the_best_price_sample :
    let p := [.prepare, .peek, .pop (sampleTx 0 5)].foldl (Pool.roundStep sampleConfig)
      (samplePriced 5 2 3)
    p.peek.1 = some (rivalTx 3) ∧ sampleTx 1 2 ∈ p.executables ∧
      ∀ other ∈ p.executables, other.gasPrice ≤ (rivalTx 3).gasPrice := by
  refine ⟨by decide +kernel, by decide +kernel, ?_⟩
  exact ((Pool.peek_takes_the_best_price sampleConfig (samplePriced_pricedBelow (by decide) (by decide) (by decide))
    [.prepare, .peek, .pop (sampleTx 0 5)]).2 (rivalTx 3) (by decide +kernel)).2

theorem peek_takes_the_low_word :
    let p := [.prepare].foldl (Pool.roundStep sampleConfig) (samplePriced (2 ^ 64) 1 1)
    p.peek.1 = some (rivalTx 1) ∧ sampleTx 0 (2 ^ 64) ∈ p.executables ∧
      (rivalTx 1).gasPrice < (sampleTx 0 (2 ^ 64)).gasPrice := by
  refine ⟨?_, ?_, ?_⟩
  all_goals decide +kernel

end Sample

end Nxchain.Txpool
