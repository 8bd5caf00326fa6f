import Nxchain.BlockGas
import Nxchain.Lib.Runs
import Mathlib.Algebra.Order.BigOperators.Group.List

namespace Nxchain.GasPriceAverage

variable {gp : GasPriceAverage} {values : List Int} {lo hi : Int} {updates : Nat}

def Fits (gp : GasPriceAverage) (newValues : List Int) : Prop :=
  gp.count.natAbs % 2 ^ 64 = 0 ∨ newValues.length ≤ gp.count

instance (gp : GasPriceAverage) (newValues : List Int) : Decidable (gp.Fits newValues) :=
  inferInstanceAs (Decidable (_ ∨ _))

structure Within (lo hi : Int) (updates : Nat) (gp : GasPriceAverage) : Prop where
  count_pos : 0 < gp.count
  lower : lo - updates ≤ gp.price
  upper : gp.price ≤ hi
  nonneg : 0 ≤ gp.price

theorem ediv_add_ediv_le {a b c n : Int} (hn : 0 < n) (h : a + b ≤ c * n) : a / n + b / n ≤ c := by
  apply le_of_mul_le_mul_right _ hn
  calc (a / n + b / n) * n = a / n * n + b / n * n := add_mul _ _ _
    _ ≤ a + b := add_le_add (Int.ediv_mul_le a hn.ne') (Int.ediv_mul_le b hn.ne')
    _ ≤ c * n := h

theorem le_ediv_add_ediv {a b c n : Int} (hn : 0 < n) (h : c * n ≤ a + b) : c - 1 ≤ a / n + b / n := by
  have hlt : c * n < (a / n + 1 + (b / n + 1)) * n := by
    calc c * n ≤ a + b := h
      _ < (a / n + 1) * n + (b / n + 1) * n :=
        add_lt_add (Int.lt_ediv_add_one_mul_self a hn) (Int.lt_ediv_add_one_mul_self b hn)
      _ = (a / n + 1 + (b / n + 1)) * n := (add_mul _ _ _).symm
  have := lt_of_mul_lt_mul_right hlt hn.le
  omega

theorem sum_bounds (hvalues : ∀ p ∈ values, lo ≤ p ∧ p ≤ hi) :
    lo * values.length ≤ values.foldl (· + ·) 0 ∧ values.foldl (· + ·) 0 ≤ hi * values.length := by
  rw [← List.sum_eq_foldl]
  have hlow := List.card_nsmul_le_sum values lo fun p hp => (hvalues p hp).1
  have hhigh := List.sum_le_card_nsmul values hi fun p hp => (hvalues p hp).2
  rw [nsmul_eq_mul, mul_comm] at hlow hhigh
  exact ⟨hlow, hhigh⟩

theorem within_calcArithmeticAverage (hne : values ≠ []) (hnonneg : ∀ p ∈ values, 0 ≤ p)
    (hvalues : ∀ p ∈ values, lo ≤ p ∧ p ≤ hi) :
    Within lo hi updates (calcArithmeticAverage values (values.foldl (· + ·) 0)) := by
  have hcount : (0 : Int) < values.length := by exact_mod_cast List.length_pos_iff.mpr hne
  obtain ⟨hlow, hhigh⟩ := sum_bounds hvalues
  have hzero := (sum_bounds fun p hp => ⟨hnonneg p hp, (hvalues p hp).2⟩).1
  rw [zero_mul] at hzero
  refine ⟨hcount, ?_, ?_, ?_⟩
  · have := Int.le_ediv_of_mul_le hcount hlow
    simp only [calcArithmeticAverage]
    omega
  · exact Int.ediv_le_of_le_mul hcount hhigh
  · exact Int.ediv_nonneg hzero hcount.le

theorem within_calcRollingAverage (hgp : Within lo hi updates gp) (hfits : values.length ≤ gp.count)
    (hnonneg : ∀ p ∈ values, 0 ≤ p) (hvalues : ∀ p ∈ values, lo ≤ p ∧ p ≤ hi) :
    Within lo hi (updates + 1) (gp.calcRollingAverage values (values.foldl (· + ·) 0)) := by
  have hweight : 0 ≤ gp.count - values.length := by omega
  obtain ⟨hlow, hhigh⟩ := sum_bounds hvalues
  have hzero := (sum_bounds fun p hp => ⟨hnonneg p hp, (hvalues p hp).2⟩).1
  rw [zero_mul] at hzero
  refine ⟨?_, ?_, ?_, ?_⟩
  · have := hgp.count_pos
    simp only [calcRollingAverage]
    omega
  · have hold := mul_le_mul_of_nonneg_right hgp.lower hweight
    have hnew : (updates : Int) * values.length ≥ 0 := by positivity
    have := le_ediv_add_ediv (c := lo - updates) hgp.count_pos
      (show (lo - updates) * gp.count ≤ gp.price * (gp.count - values.length)
          + values.foldl (· + ·) 0 by linarith)
    simp only [calcRollingAverage]
    push_cast
    linarith
  · apply ediv_add_ediv_le hgp.count_pos
    have hold := mul_le_mul_of_nonneg_right hgp.upper hweight
    linarith
  · exact add_nonneg (Int.ediv_nonneg (mul_nonneg hgp.nonneg hweight) hgp.count_pos.le)
      (Int.ediv_nonneg hzero hgp.count_pos.le)

theorem within_updateGasPriceAvg (hgp : gp = new ∨ Within lo hi updates gp) (hfits : gp.Fits values)
    (hne : values ≠ []) (hnonneg : ∀ p ∈ values, 0 ≤ p) (hvalues : ∀ p ∈ values, lo ≤ p ∧ p ≤ hi) :
    Within lo hi (updates + 1) (gp.updateGasPriceAvg values) := by
  rw [updateGasPriceAvg]
  split
  · exact within_calcArithmeticAverage hne hnonneg hvalues
  · rename_i hcount
    rcases hgp with rfl | hgp
    · exact absurd rfl hcount
    · exact within_calcRollingAverage hgp (hfits.resolve_left hcount) hnonneg hvalues

theorem within_foldl {blocks : List (List Int)} (hgp : Within lo hi updates gp)
    (hfits : Runs.Along updateGasPriceAvg Fits gp blocks) (hne : ∀ values ∈ blocks, values ≠ [])
    (hnonneg : ∀ values ∈ blocks, ∀ p ∈ values, 0 ≤ p)
    (hvalues : ∀ values ∈ blocks, ∀ p ∈ values, lo ≤ p ∧ p ≤ hi) :
    Within lo hi (updates + blocks.length) (blocks.foldl updateGasPriceAvg gp) := by
  induction blocks generalizing gp updates with
  | nil => exact hgp
  | cons values blocks ih =>
    rw [List.forall_mem_cons] at hne hnonneg hvalues
    have hstep := within_updateGasPriceAvg (Or.inr hgp) hfits.1 hne.1 hnonneg.1 hvalues.1
    have hrest := ih hstep hfits.2 hne.2 hnonneg.2 hvalues.2
    rwa [List.length_cons, Nat.add_comm blocks.length, ← Nat.add_assoc]

theorem average_price_is_bounded {blocks : List (List Int)} (hsome : blocks ≠ [])
    (hne : ∀ values ∈ blocks, values ≠ []) (hnonneg : ∀ values ∈ blocks, ∀ p ∈ values, 0 ≤ p)
    (hfits : Runs.Along updateGasPriceAvg Fits new blocks)
    (hvalues : ∀ values ∈ blocks, ∀ p ∈ values, lo ≤ p ∧ p ≤ hi) :
    lo - blocks.length ≤ (blocks.foldl updateGasPriceAvg new).price
      ∧ (blocks.foldl updateGasPriceAvg new).price ≤ hi
      ∧ 0 ≤ (blocks.foldl updateGasPriceAvg new).price := by
  suffices hwithin : Within lo hi blocks.length (blocks.foldl updateGasPriceAvg new) from
    ⟨hwithin.lower, hwithin.upper, hwithin.nonneg⟩
  cases blocks with
  | nil => exact absurd rfl hsome
  | cons values blocks =>
    rw [List.forall_mem_cons] at hne hnonneg hvalues
    have hfirst : Within lo hi 1 (new.updateGasPriceAvg values) :=
      within_updateGasPriceAvg (Or.inl rfl) hfits.1 hne.1 hnonneg.1 hvalues.1
    have hrest := within_foldl hfirst hfits.2 hne.2 hnonneg.2 hvalues.2
    rwa [Nat.add_comm] at hrest

theorem average_price_is_bounded_two_blocks :
    (100 - 2 : Int) ≤ ([[100, 130], [120]].foldl updateGasPriceAvg new).price
      ∧ ([[100, 130], [120]].foldl updateGasPriceAvg new).price ≤ 130
      ∧ 0 ≤ ([[100, 130], [120]].foldl updateGasPriceAvg new).price :=
  average_price_is_bounded (by decide) (by decide) (by decide) (by decide) (by decide)

theorem average_price_is_negative : ([[100], [0, 0, 0]].foldl updateGasPriceAvg new).price = -200 := by
  decide

end Nxchain.GasPriceAverage
