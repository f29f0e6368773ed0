import Mathlib.Algebra.BigOperators.Fin
import Mathlib.Algebra.BigOperators.Intervals

/-! # Sums computed in pieces

A kernel that distributes one long sum over its blocks computes it either in blocks of one
length or between cut points. Both give the sum over the whole range.
-/

namespace Nvllm.SlicedSum

open Finset

variable {M : Type*} [AddCommMonoid M]

/-- Blocks of length `n`. -/
theorem sum_blocks (m n : ℕ) (f : ℕ → M) :
    ∑ b ∈ range m, ∑ k ∈ range n, f (b * n + k) = ∑ i ∈ range (m * n), f i := by
  induction m with
  | zero => simp
  | succ m ih => rw [sum_range_succ, ih, Nat.succ_mul, sum_range_add]

/-- Slices between consecutive cut points. -/
theorem sum_slices {cut : ℕ → ℕ} (hcut : Monotone cut) (s : ℕ) (f : ℕ → M) :
    ∑ b ∈ range s, ∑ k ∈ Ico (cut b) (cut (b + 1)), f k = ∑ k ∈ Ico (cut 0) (cut s), f k := by
  induction s with
  | zero => simp
  | succ s ih =>
    rw [sum_range_succ, ih]
    exact sum_Ico_consecutive f (hcut (Nat.zero_le s)) (hcut (Nat.le_succ s))

/-- The cut points `n * b / s` of `s` slices of `[0, n)`. -/
theorem monotone_mul_div (n s : ℕ) : Monotone fun b => n * b / s := fun _ _ h =>
  Nat.div_le_div_right (Nat.mul_le_mul_left n h)

end Nvllm.SlicedSum
