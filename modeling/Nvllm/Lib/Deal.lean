import Mathlib.Algebra.BigOperators.Group.Finset.Piecewise
import Mathlib.Tactic.Ring

/-! # Dealing out in units

Items are dealt out to `W` holders in turn, `I` at a time: item `p` goes to `holder p` and is number
`number p` there. `share n r` is what holder `r` has of the first `n` items. If the items come in
blocks of `I * m` for each holder, all of this can be computed inside a block.
-/

namespace Nvllm.Deal

open List

variable (W I : ℕ)

def holder (p : ℕ) : ℕ := p / I % W

def number (p : ℕ) : ℕ := p / (W * I) * I + p % I

/-- A unit of each full round, and what there is of the last one. -/
def share (n r : ℕ) : ℕ :=
  n / (W * I) * I + if r < holder W I n then I else if r = holder W I n then n % I else 0

variable {W I} {p r q j t : ℕ} (hW : 0 < W) (hI : 0 < I)

include hW hI in
/-- A number of items as full rounds, full units of the last round and the last unit. -/
theorem exists_digits (n : ℕ) : ∃ q j t, j < W ∧ t < I ∧ n = (q * W + j) * I + t :=
  ⟨_, _, _, Nat.mod_lt (n / I) hW, Nat.mod_lt n hI, by rw [Nat.div_add_mod', Nat.div_add_mod']⟩

section

variable (hj : j < W) (ht : t < I)
include ht

theorem digits_unit : ((q * W + j) * I + t) / I = q * W + j := by
  rw [Nat.mul_comm, Nat.mul_add_div (by omega), Nat.div_eq_of_lt ht, Nat.add_zero]

include hj

theorem digits_round : ((q * W + j) * I + t) / I / W = q := by
  rw [digits_unit ht, Nat.mul_comm, Nat.mul_add_div (by omega), Nat.div_eq_of_lt hj, Nat.add_zero]

theorem holder_digits : holder W I ((q * W + j) * I + t) = j := by
  rw [holder, digits_unit ht, Nat.mul_comm, Nat.mul_add_mod, Nat.mod_eq_of_lt hj]

theorem share_digits : share W I ((q * W + j) * I + t) r =
    q * I + if r < j then I else if r = j then t else 0 := by
  have hunit : ((q * W + j) * I + t) % I = t := by
    rw [Nat.mul_comm, Nat.mul_add_mod, Nat.mod_eq_of_lt ht]
  rw [share, holder_digits hj ht, hunit, Nat.mul_comm W, ← Nat.div_div_eq_div_mul,
    digits_round hj ht]

end

include hW hI

/-- The share by rounding down and clipping. -/
theorem share_eq_clip (n r : ℕ) : (share W I n r : ℤ) =
    (n : ℤ) / I / W * I + min (max (n - (n : ℤ) / I / W * I * W - r * I) 0) I := by
  obtain ⟨q, j, t, hj, ht, rfl⟩ := exists_digits hW hI n
  rw [share_digits hj ht, ← Int.natCast_ediv, ← Int.natCast_ediv, digits_round hj ht]
  have hrest : (((q * W + j) * I + t : ℕ) : ℤ) - q * I * W = j * I + t := by
    push_cast
    ring
  have hmul {a b : ℕ} (h : a < b) : (a * I + I : ℤ) ≤ b * I := by
    rw [← add_one_mul]
    exact_mod_cast Nat.mul_le_mul_right I (Nat.succ_le_of_lt h)
  rw [hrest]
  rcases lt_trichotomy r j with h | rfl | h
  · have := hmul h
    rw [if_pos h]
    omega
  · rw [if_neg (lt_irrefl _), if_pos rfl]
    omega
  · have := hmul h
    rw [if_neg h.not_gt, if_neg h.ne']
    omega

/-- **One more item** is one more for its holder and no other. -/
theorem share_succ (n : ℕ) (hr : r < W) :
    share W I (n + 1) r = share W I n r + if holder W I n = r then 1 else 0 := by
  obtain ⟨q, j, t, hj, ht, rfl⟩ := exists_digits hW hI n
  rw [share_digits hj ht, holder_digits hj ht]
  by_cases ht' : t + 1 < I
  · rw [Nat.add_assoc, share_digits hj ht']
    split_ifs <;> omega
  · have hfull : (q * W + j) * I + t + 1 = (q * W + (j + 1)) * I + 0 := by
      rw [← Nat.add_assoc, Nat.succ_mul]
      omega
    by_cases hj' : j + 1 < W
    · rw [hfull, share_digits hj' hI]
      split_ifs <;> omega
    · -- a new round begins
      have hround : q * W + (j + 1) = (q + 1) * W + 0 := by
        rw [Nat.succ_mul]
        omega
      rw [hfull, hround, share_digits hW hI, Nat.succ_mul]
      split_ifs <;> omega

/-- The items of a holder are numbered in order. -/
theorem map_number (n : ℕ) (hr : r < W) :
    ((range n).filter (holder W I · = r)).map (number W I) = range (share W I n r) := by
  induction n with
  | zero => simp [share, holder]
  | succ n ih =>
    rw [range_succ, filter_append, map_append, ih, share_succ hW hI n hr]
    by_cases h : holder W I n = r
    · have hnumber : number W I n = share W I n r := by simp [share, number, h]
      simp [h, range_succ, hnumber]
    · simp [h]

theorem sum_share (n : ℕ) : ∑ r ∈ Finset.range W, share W I n r = n := by
  induction n with
  | zero => simp [share, holder]
  | succ n ih =>
    rw [Finset.sum_congr rfl fun r hr => share_succ hW hI n (Finset.mem_range.mp hr),
      Finset.sum_add_distrib, ih, Finset.sum_ite_eq, holder,
      if_pos (Finset.mem_range.mpr (Nat.mod_lt _ hW))]

omit hW hI

/-! ## Blocks -/

variable {m : ℕ}

theorem holder_mod (p : ℕ) : p % (I * m * W) / I % W = holder W I p := by
  rw [Nat.mul_assoc, Nat.mod_mul_right_div_self, Nat.mul_comm m, Nat.mod_mul_right_mod, holder]

theorem number_mod_lt (hI : 0 < I) (hm : 0 < m) (p : ℕ) :
    number W I (p % (I * m * W)) < I * m := by
  have hround : p % (I * m * W) / (W * I) = p / (W * I) % m := by
    rw [show I * m * W = W * I * m by ring, Nat.mod_mul_right_div_self]
  have hle := Nat.mul_le_mul_right I (Nat.succ_le_of_lt (Nat.mod_lt (p / (W * I)) hm))
  have := Nat.mod_lt (p % (I * m * W)) hI
  rw [Nat.succ_mul, Nat.mul_comm m] at hle
  rw [number, hround]
  omega

/-- Full blocks and the number inside the block. -/
theorem number_div_add_mod (p : ℕ) :
    I * m * (p / (I * m * W)) + number W I (p % (I * m * W)) = number W I p := by
  have hunit : p % (I * m * W) % I = p % I := by
    rw [Nat.mul_assoc, Nat.mod_mul_right_mod]
  have hsize : I * m * W = W * I * m := by ring
  rw [number, number, hunit, hsize, Nat.mod_mul_right_div_self, ← Nat.div_div_eq_div_mul]
  conv_rhs => rw [← Nat.div_add_mod (p / (W * I)) m]
  ring

end Nvllm.Deal
