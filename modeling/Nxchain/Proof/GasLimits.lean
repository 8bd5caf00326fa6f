import Nxchain.BlockGas

namespace Nxchain

variable {t g : Nat}

theorem calculateGasLimit_of_lt (ht : t < 2 ^ 63) (hgt : g < t) : calculateGasLimit t g = min t (g + g / 1024) := by
  have hsum : (g + g / 1024) % 2 ^ 64 = g + g / 1024 := Nat.mod_eq_of_lt (by omega)
  rw [calculateGasLimit, if_neg (by omega), if_neg (by omega)]
  simp only [Nat.mul_one, blockGasTargetDivisor, Nat.mod_eq_of_lt (show g < 2 ^ 64 by omega), hsum, if_pos hgt]

theorem calculateGasLimit_of_gt (ht : 0 < t) (hg : g < 2 ^ 63) (htg : t < g) :
    calculateGasLimit t g = max t (g - g / 1024) := by
  have hdiff : sub64 g (g / 1024) = g - g / 1024 := sub64_eq (by omega) (by omega)
  rw [calculateGasLimit, if_neg (by omega), if_neg (by omega)]
  simp only [Nat.mul_one, blockGasTargetDivisor, Nat.mod_eq_of_lt (show g < 2 ^ 64 by omega), hdiff,
    if_neg (show ¬ g < t by omega), Nat.max_zero]

theorem calculateGasLimit_self (t : Nat) : calculateGasLimit t t = t := by
  rw [calculateGasLimit]
  split
  · rfl
  · rw [if_pos rfl]

structure StepsTowards (t g g' : Nat) : Prop where
  up : g ≤ t → g ≤ g' ∧ g' ≤ t
  down : t ≤ g → t ≤ g' ∧ g' ≤ g
  near : g' ≤ g + g / 1024 ∧ g ≤ g' + g / 1024
  moves : g ≠ t → g' ≠ g

theorem calculateGasLimit_steps (ht : 0 < t) (ht63 : t < 2 ^ 63) (hg : 1024 ≤ g) (hg63 : g < 2 ^ 63) :
    StepsTowards t g (calculateGasLimit t g) := by
  rcases lt_trichotomy g t with hlt | rfl | hgt
  · rw [calculateGasLimit_of_lt ht63 hlt]
    constructor <;> omega
  · rw [calculateGasLimit_self]
    constructor <;> omega
  · rw [calculateGasLimit_of_gt ht hg63 hgt]
    constructor <;> omega

theorem verifyGasLimit_of_near {header parent : Header} (hused : header.gasUsed ≤ header.gasLimit)
    (hlimit : header.gasLimit < 2 ^ 63) (hparent : parent.gasLimit < 2 ^ 63)
    (hup : header.gasLimit ≤ parent.gasLimit + parent.gasLimit / 1024)
    (hdown : parent.gasLimit ≤ header.gasLimit + parent.gasLimit / 1024) :
    verifyGasLimit header parent = .ok () := by
  rw [verifyGasLimit, if_neg (by omega)]
  split
  · rfl
  · rw [asInt64_eq (n := parent.gasLimit) (by omega) (by omega),
      asInt64_eq (n := header.gasLimit) (by omega) (by omega), asInt64_eq (by omega) (by omega)]
    dsimp only
    rcases Nat.lt_or_ge parent.gasLimit header.gasLimit with hlt | hge
    · rw [if_pos (show (parent.gasLimit : Int) - header.gasLimit < 0 by omega),
        asInt64_eq (by omega) (by omega), if_neg (by rw [blockGasTargetDivisor]; omega)]
    · rw [if_neg (show ¬ (parent.gasLimit : Int) - header.gasLimit < 0 by omega),
        if_neg (by rw [blockGasTargetDivisor]; omega)]

def gasLimits (t g : Nat) (k : Nat) : Nat := (calculateGasLimit t)^[k] g

theorem gasLimits_succ (t g k : Nat) : gasLimits t g (k + 1) = calculateGasLimit t (gasLimits t g k) :=
  Function.iterate_succ_apply' _ _ _

section Chain

variable (ht : 1024 ≤ t) (ht63 : t < 2 ^ 63) (hg : 1024 ≤ g) (hg63 : g < 2 ^ 63)

include ht ht63 hg hg63

theorem gasLimits_range (k : Nat) : 1024 ≤ gasLimits t g k ∧ gasLimits t g k < 2 ^ 63 := by
  induction k with
  | zero => exact ⟨hg, hg63⟩
  | succ k ih =>
    rw [gasLimits_succ]
    have hstep := calculateGasLimit_steps (by omega) ht63 ih.1 ih.2
    rcases Nat.le_total (gasLimits t g k) t with hle | hge
    · have := hstep.up hle
      omega
    · have := hstep.down hge
      omega

theorem gasLimits_steps (k : Nat) : StepsTowards t (gasLimits t g k) (gasLimits t g (k + 1)) := by
  rw [gasLimits_succ]
  have hrange := gasLimits_range ht ht63 hg hg63 k
  exact calculateGasLimit_steps (by omega) ht63 hrange.1 hrange.2

theorem gasLimits_le (hgt : g ≤ t) (k : Nat) : gasLimits t g k ≤ t := by
  induction k with
  | zero => exact hgt
  | succ k ih => exact ((gasLimits_steps ht ht63 hg hg63 k).up ih).2

theorem le_gasLimits (htg : t ≤ g) (k : Nat) : t ≤ gasLimits t g k := by
  induction k with
  | zero => exact htg
  | succ k ih => exact ((gasLimits_steps ht ht63 hg hg63 k).down ih).1

theorem gasLimits_distance (k : Nat) :
    (gasLimits t g k - t) + (t - gasLimits t g k) + k ≤ (g - t) + (t - g) ∨ gasLimits t g k = t := by
  induction k with
  | zero => exact Or.inl le_rfl
  | succ k ih =>
    have hstep := gasLimits_steps ht ht63 hg hg63 k
    rcases ih with hle | heq
    · by_cases heq : gasLimits t g k = t
      · right
        rw [gasLimits_succ, heq, calculateGasLimit_self]
      · have hne := hstep.moves heq
        rcases Nat.le_total (gasLimits t g k) t with hlow | hhigh
        · have := hstep.up hlow
          omega
        · have := hstep.down hhigh
          omega
    · right
      rw [gasLimits_succ, heq, calculateGasLimit_self]

theorem gasLimits_eq_target {k : Nat} (hk : (g - t) + (t - g) ≤ k) : gasLimits t g k = t := by
  rcases gasLimits_distance ht ht63 hg hg63 k with hle | heq
  · omega
  · exact heq

end Chain

theorem gas_limit_converges {headers : Nat → Header} (ht : 1024 ≤ t) (ht63 : t < 2 ^ 63)
    (hg : 1024 ≤ (headers 0).gasLimit) (hg63 : (headers 0).gasLimit < 2 ^ 63)
    (hcalculated : ∀ k, (headers (k + 1)).gasLimit = calculateGasLimit t (headers k).gasLimit) :
    (∀ k, (headers (k + 1)).gasUsed ≤ (headers (k + 1)).gasLimit →
        verifyGasLimit (headers (k + 1)) (headers k) = .ok ())
      ∧ ((headers 0).gasLimit ≤ t → Monotone (fun k => (headers k).gasLimit) ∧ ∀ k, (headers k).gasLimit ≤ t)
      ∧ (t ≤ (headers 0).gasLimit → Antitone (fun k => (headers k).gasLimit) ∧ ∀ k, t ≤ (headers k).gasLimit)
      ∧ ∃ n, ∀ k, n ≤ k → (headers k).gasLimit = t := by
  obtain ⟨g, hfirst⟩ : ∃ g, (headers 0).gasLimit = g := ⟨_, rfl⟩
  have hlimits : ∀ k, (headers k).gasLimit = gasLimits t g k := by
    intro k
    induction k with
    | zero => exact hfirst
    | succ k ih => rw [hcalculated, ih, gasLimits_succ]
  rw [hfirst] at hg hg63 ⊢
  have hsteps := gasLimits_steps ht ht63 hg hg63
  have hrange := gasLimits_range ht ht63 hg hg63
  refine ⟨?_, ?_, ?_, ?_⟩
  · intro k hused
    have hnear := (hsteps k).near
    have hlimit := (hrange (k + 1)).2
    have hparent := (hrange k).2
    rw [← hlimits] at hlimit hparent
    rw [← hlimits, ← hlimits] at hnear
    exact verifyGasLimit_of_near hused hlimit hparent hnear.1 hnear.2
  · intro hle
    have hbelow := gasLimits_le ht ht63 hg hg63 hle
    simp only [hlimits]
    exact ⟨monotone_nat_of_le_succ fun k => ((hsteps k).up (hbelow k)).1, hbelow⟩
  · intro hge
    have habove := le_gasLimits ht ht63 hg hg63 hge
    simp only [hlimits]
    exact ⟨antitone_nat_of_succ_le fun k => ((hsteps k).down (habove k)).2, habove⟩
  · refine ⟨(g - t) + (t - g), fun k hk => ?_⟩
    rw [hlimits]
    exact gasLimits_eq_target ht ht63 hg hg63 hk

def emptyHeaders (t g k : Nat) : Header where
  parentHash := zeroHash
  sha3Uncles := zeroHash
  miner := []
  stateRoot := zeroHash
  txRoot := zeroHash
  receiptsRoot := zeroHash
  logsBloom := FixedBytes.zero 256
  difficulty := k
  number := k
  gasLimit := gasLimits t g k
  gasUsed := 0
  timestamp := k
  extraData := []
  mixHash := zeroHash
  nonce := FixedBytes.zero 8
  hash := zeroHash

theorem gas_limit_converges_downwards :
    (∀ k, verifyGasLimit (emptyHeaders 1024 5000 (k + 1)) (emptyHeaders 1024 5000 k) = .ok ())
      ∧ ∃ n, ∀ k, n ≤ k → (emptyHeaders 1024 5000 k).gasLimit = 1024 := by
  have hcalculated : ∀ k, (emptyHeaders 1024 5000 (k + 1)).gasLimit
      = calculateGasLimit 1024 (emptyHeaders 1024 5000 k).gasLimit := gasLimits_succ 1024 5000
  have hconverges := gas_limit_converges (by decide) (by decide) (by decide) (by decide) hcalculated
  exact ⟨fun k => hconverges.1 k (Nat.zero_le _), hconverges.2.2.2⟩

end Nxchain
