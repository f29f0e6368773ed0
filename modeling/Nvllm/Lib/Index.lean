import Mathlib.Algebra.Order.Group.Nat
import Mathlib.Tactic.Common

/-! # Row-major indices

`q * d + r` with `r < d` is the index of column `r` of row `q` in rows of width `d`. The row and
the column are determined by the index, and the indices of `n` rows are those below `n * d`.
-/

namespace Nvllm.Index

theorem mul_add_div_of_lt {q d r : ℕ} (hr : r < d) : (q * d + r) / d = q := by
  rw [Nat.mul_comm, Nat.mul_add_div (by omega), Nat.div_eq_of_lt hr, Nat.add_zero]

theorem mul_add_inj {q q' d r r' : ℕ} (hr : r < d) (hr' : r' < d)
    (h : q * d + r = q' * d + r') : q = q' ∧ r = r' := by
  have hq : q = q' := by
    rw [← mul_add_div_of_lt (q := q) hr, h, mul_add_div_of_lt hr']
  subst hq
  exact ⟨rfl, by omega⟩

theorem exists_mul_add_lt {n d x : ℕ} : (∃ q < n, ∃ r < d, x = q * d + r) ↔ x < n * d := by
  constructor
  · rintro ⟨q, hq, r, hr, rfl⟩
    calc q * d + r < q * d + d := by omega
      _ = (q + 1) * d := (Nat.succ_mul _ _).symm
      _ ≤ n * d := Nat.mul_le_mul_right _ hq
  · intro h
    have hpos : 0 < d := Nat.pos_of_ne_zero fun h0 => by simp [h0] at h
    refine ⟨x / d, Nat.div_lt_of_lt_mul (by rwa [Nat.mul_comm]), x % d, Nat.mod_lt _ hpos, ?_⟩
    rw [Nat.mul_comm]
    exact (Nat.div_add_mod x d).symm

end Nvllm.Index
