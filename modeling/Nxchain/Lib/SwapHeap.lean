import Mathlib.Data.Nat.Basic

namespace SwapHeap

structure Interface (σ : Type) where
  len : σ → Nat
  less : σ → Nat → Nat → Bool
  swap : σ → Nat → Nat → σ

namespace Interface

variable {σ : Type} (h : Interface σ)

def up : Nat → σ → Nat → σ
  | 0, s, _ => s
  | rounds + 1, s, j =>
    let i := (j - 1) / 2
    if i = j ∨ h.less s j i = false then s else up rounds (h.swap s i j) i

def child (n : Nat) (s : σ) (i : Nat) : Nat :=
  let left := 2 * i + 1
  if left + 1 < n ∧ h.less s (left + 1) left then left + 1 else left

def down (n : Nat) : Nat → σ → Nat → σ × Nat
  | 0, s, i => (s, i)
  | rounds + 1, s, i =>
    let j := h.child n s i
    if n ≤ 2 * i + 1 ∨ h.less s j i = false then (s, i) else down n rounds (h.swap s i j) j

def raiseLast (s : σ) : σ := h.up (h.len s - 1) s (h.len s - 1)

def sink (s : σ) (i : Nat) : σ :=
  let n := h.len s - 1
  if n = i then s
  else
    let (moved, k) := h.down n (n - i) (h.swap s i n) i
    if i < k then moved else h.up i moved i

def sinkFirst (s : σ) : σ :=
  let n := h.len s - 1
  (h.down n n (h.swap s 0 n) 0).1

variable {h} {p : σ → Prop} {n : Nat}

theorem up_inv (hswap : ∀ s i j, i < n → j < n → p s → p (h.swap s i j)) :
    ∀ rounds s j, j < n → p s → p (h.up rounds s j) := by
  intro rounds
  induction rounds with
  | zero => exact fun _ _ _ hs => hs
  | succ rounds ih =>
    intro s j hj hs
    unfold up
    dsimp only
    split
    · exact hs
    · have hi : (j - 1) / 2 < n := by omega
      exact ih _ _ hi (hswap s _ _ hi hj hs)

theorem child_lt {s : σ} {i : Nat} (hi : 2 * i + 1 < n) : h.child n s i < n := by
  unfold child
  dsimp only
  split <;> omega

theorem down_inv (hswap : ∀ s i j, i < n → j < n → p s → p (h.swap s i j)) :
    ∀ rounds s i, i < n → p s → p (h.down n rounds s i).1 := by
  intro rounds
  induction rounds with
  | zero => exact fun _ _ _ hs => hs
  | succ rounds ih =>
    intro s i hi hs
    unfold down
    dsimp only
    split
    · exact hs
    · have hj : h.child n s i < n := child_lt (by omega)
      exact ih _ _ hj (hswap s _ _ hi hj hs)

theorem sink_inv {s : σ} {i : Nat} (hi : i < h.len s)
    (hswap : ∀ t j k, j < h.len s - 1 → k < h.len s - 1 → p t → p (h.swap t j k)) (hlast : i = h.len s - 1 → p s)
    (hfirst : i < h.len s - 1 → p (h.swap s i (h.len s - 1))) : p (h.sink s i) := by
  unfold sink
  dsimp only
  split
  · rename_i heq
    exact hlast heq.symm
  · have hlt : i < h.len s - 1 := by omega
    have hmoved := down_inv hswap (h.len s - 1 - i) _ i hlt (hfirst hlt)
    split
    · exact hmoved
    · exact up_inv hswap _ _ _ hlt hmoved

theorem sinkFirst_inv {s : σ} (hswap : ∀ t j k, j < h.len s - 1 → k < h.len s - 1 → p t → p (h.swap t j k))
    (hfirst : p (h.swap s 0 (h.len s - 1))) : p (h.sinkFirst s) := by
  unfold sinkFirst
  rcases Nat.eq_zero_or_pos (h.len s - 1) with hzero | hpos
  · rw [hzero] at hfirst ⊢
    exact hfirst
  · exact down_inv hswap _ _ 0 hpos hfirst

end Interface

end SwapHeap
