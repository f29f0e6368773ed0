import Mathlib.Algebra.Ring.Nat
import Mathlib.Data.List.Basic
import Mathlib.Tactic.Common

/-! # Rows of different lengths in one flat array

A flat array holds one row after the other; `counts` are the lengths of the rows. `cumsum` gives
the ends of the rows, `repeatEach` spreads one value per row over its places, and `arange` numbers
the places inside each row. Adding a start per row to `arange` lists a range of each row.
-/

namespace Nvllm.Ragged

open List

variable {α β ρ : Type}

/-- The running totals of `counts`, from `a` on. -/
def cumsum (a : ℕ) : List ℕ → List ℕ
  | [] => []
  | n :: counts => (a + n) :: cumsum (a + n) counts

/-- Every value as often as its count says. -/
def repeatEach (xs : List α) (counts : List ℕ) : List α :=
  (zipWith (fun x n => replicate n x) xs counts).flatten

/-- The places of each row, counted from 0: all places, less the start of their row. -/
def arange (counts : List ℕ) : List ℕ :=
  zipWith (· - ·) (range counts.sum)
    (repeatEach (zipWith (· - ·) (cumsum 0 counts) counts) counts)

/-- The rows with the places where they start, from `a` on. -/
def located (len : ρ → ℕ) (a : ℕ) : List ρ → List (ℕ × ρ)
  | [] => []
  | r :: rows => (a, r) :: located len (a + len r) rows

/-- The entries at the given places; `none` if a place is out of range. -/
def gather (xs : List α) : List ℕ → Option (List α)
  | [] => some []
  | i :: is => do return (← xs[i]?) :: (← gather xs is)

theorem cumsum_eq (len : ρ → ℕ) (a : ℕ) (rows : List ρ) :
    cumsum a (rows.map len) = (located len a rows).map fun p => p.1 + len p.2 := by
  induction rows generalizing a with
  | nil => rfl
  | cons r rows ih => simp [cumsum, located, ih]

theorem map_located (len : ρ → ℕ) (a : ℕ) (g : ρ → β) (rows : List ρ) :
    (located len a rows).map (fun p => g p.2) = rows.map g := by
  induction rows generalizing a with
  | nil => rfl
  | cons r rows ih => simp [located, ih]

theorem flatMap_located (len : ρ → ℕ) (a : ℕ) (g : ρ → List β) (rows : List ρ) :
    (located len a rows).flatMap (fun p => g p.2) = rows.flatMap g := by
  rw [flatMap_def, map_located, flatMap_def]

theorem getLast?_cumsum (a : ℕ) {counts : List ℕ} (h : counts ≠ []) :
    (cumsum a counts).getLast? = some (a + counts.sum) := by
  induction counts generalizing a with
  | nil => exact absurd rfl h
  | cons n counts ih =>
    cases counts with
    | nil => simp [cumsum]
    | cons m counts =>
      rw [cumsum, cumsum, getLast?_cons_cons, ← cumsum, ih (a + n) (by simp)]
      simp [Nat.add_assoc]

@[simp] theorem repeatEach_cons (x : α) (xs : List α) (n : ℕ) (counts : List ℕ) :
    repeatEach (x :: xs) (n :: counts) = replicate n x ++ repeatEach xs counts := rfl

private theorem zipWith_sub_replicate (a n : ℕ) :
    zipWith (· - ·) (range' a n) (replicate n a) = range n := by
  apply ext_getElem <;> simp

/-- The numbering, for rows that start at `a`. -/
theorem arange_from (a : ℕ) (counts : List ℕ) :
    zipWith (· - ·) (range' a counts.sum)
      (repeatEach (zipWith (· - ·) (cumsum a counts) counts) counts) =
      (counts.map range).flatten := by
  induction counts generalizing a with
  | nil => rfl
  | cons n counts ih =>
    have hsplit : range' a (n + counts.sum) = range' a n ++ range' (a + n) counts.sum := by simp
    simp only [cumsum, sum_cons, zipWith_cons_cons, repeatEach_cons, map_cons,
      flatten_cons, Nat.add_sub_cancel, hsplit]
    rw [zipWith_append (by simp), ih (a + n), zipWith_sub_replicate]

theorem arange_eq (counts : List ℕ) : arange counts = (counts.map range).flatten := by
  rw [arange, range_eq_range', arange_from]

/-- **A range of each row**, from a start per row and the numbering. -/
theorem repeatEach_add_arange (start n : ρ → ℕ) (rows : List ρ) :
    zipWith (· + ·) (repeatEach (rows.map start) (rows.map n)) (arange (rows.map n)) =
      rows.flatMap fun r => range' (start r) (n r) := by
  rw [arange_eq]
  induction rows with
  | nil => rfl
  | cons r rows ih =>
    have hrow : zipWith (· + ·) (replicate (n r) (start r)) (range (n r)) =
        range' (start r) (n r) := by
      apply ext_getElem <;> simp
    rw [map_cons, map_cons, repeatEach_cons, map_cons, flatten_cons,
      zipWith_append (by simp), hrow, ih, flatMap_cons]

theorem gather_append (xs : List α) (is js : List ℕ) :
    gather xs (is ++ js) = do return (← gather xs is) ++ (← gather xs js) := by
  induction is with
  | nil => simp [gather]
  | cons i is ih =>
    simp only [cons_append, gather, ih]
    cases xs[i]? <;> cases gather xs is <;> cases gather xs js <;> rfl

/-- A range of places inside the middle part. -/
theorem gather_range' (pre mid post : List α) (i n : ℕ) (h : i + n ≤ mid.length) :
    gather (pre ++ (mid ++ post)) (range' (pre.length + i) n) =
      some ((mid.drop i).take n) := by
  induction n generalizing i with
  | zero => simp [gather]
  | succ n ih =>
    have hi : i < mid.length := by omega
    have hget : (pre ++ (mid ++ post))[pre.length + i]? = some mid[i] := by
      simp [getElem?_append, hi]
    rw [range'_succ, gather, hget, Nat.add_assoc, ih (i + 1) (by omega),
      drop_eq_getElem_cons hi]
    rfl

/-- **A part of each row**, read through the places of the flat array. -/
theorem gather_located (row : ρ → List α) (i n : ρ → ℕ) (rows : List ρ)
    (h : ∀ r ∈ rows, i r + n r ≤ (row r).length) (pre post : List α) :
    gather (pre ++ (rows.flatMap row ++ post))
      ((located (fun r => (row r).length) pre.length rows).flatMap fun p =>
        range' (p.1 + i p.2) (n p.2)) =
      some (rows.flatMap fun r => ((row r).drop (i r)).take (n r)) := by
  induction rows generalizing pre with
  | nil => rfl
  | cons r rows ih =>
    have hrest := ih (fun r hr => h r (mem_cons_of_mem _ hr)) (pre ++ row r)
    simp only [length_append, append_assoc] at hrest
    simp only [located, flatMap_cons, append_assoc, gather_append, hrest,
      gather_range' pre (row r) _ (i r) (n r) (h r mem_cons_self)]
    rfl

end Nvllm.Ragged
