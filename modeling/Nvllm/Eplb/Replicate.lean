import Mathlib.Data.List.MinMax
import Mathlib.Data.Rat.Cast.Order
import Mathlib.Algebra.BigOperators.Fin
import Mathlib.Algebra.Order.BigOperators.Group.Finset
import Mathlib.Algebra.Order.Field.Basic
import Nvllm.Lib.Run

/-! # Replicas for heavy experts

`replicate_experts` gives every logical expert one replica and hands out the others one by one,
each to the expert whose replicas carry the most. The rows of `weight` (one per layer) do not
affect each other, so the model has one of them.

The counts are optimal because no replica was handed out in vain (`Fair`): before an expert got its
last replica, each of its replicas carried at least as much as any replica carries now.
-/

namespace Nvllm.Eplb

open Nvllm.Run List

variable {numLog : ℕ}

/-- `phy2log` and `logcnt`. -/
structure Replicas (numLog : ℕ) where
  phy2log : List ℕ
  logcnt : Fin numLog → ℕ

/-- One round of the loop. `argmax` takes the first of several maxima, and fails on an empty row. -/
def replicaRound (weight : Fin numLog → ℚ) (s : Replicas numLog) (i : ℕ) :
    Option (Replicas numLog) := do
  let redundantIndex ← (finRange numLog).argmax fun e => weight e / s.logcnt e
  return { phy2log := s.phy2log.set i redundantIndex
           logcnt := Function.update s.logcnt redundantIndex (s.logcnt redundantIndex + 1) }

/-- `replicate_experts`, for one layer. -/
def replicateExperts (weight : Fin numLog → ℚ) (numPhy : ℕ) : Option (Replicas numLog) := do
  guard (numLog ≤ numPhy)
  run (replicaRound weight) { phy2log := range numPhy, logcnt := fun _ => 1 }
    (range' numLog (numPhy - numLog))

/-- Positive counts for `numPhy` replicas. -/
structure IsCount (numPhy : ℕ) (counts : Fin numLog → ℕ) : Prop where
  pos : ∀ e, 0 < counts e
  sum : ∑ e, counts e = numPhy

/-- The maximum over the experts of `weight / count`. -/
def maxLoad (weight : Fin numLog → ℚ) (counts : Fin numLog → ℕ) : WithBot ℚ :=
  ((finRange numLog).map fun e => weight e / counts e).maximum

/-- With one replica less, an expert carries at least as much as every expert does now. -/
def Fair (weight : Fin numLog → ℚ) (counts : Fin numLog → ℕ) : Prop :=
  ∀ e j, 1 < counts j → weight e / counts e ≤ weight j / (counts j - 1 : ℕ)

section

variable {weight : Fin numLog → ℚ} {counts logcnt : Fin numLog → ℕ} {n numPhy : ℕ}

theorem load_anti (hw : ∀ e, 0 ≤ weight e) (e : Fin numLog) {a b : ℕ} (ha : 0 < a) (hab : a ≤ b) :
    weight e / b ≤ weight e / a :=
  div_le_div_of_nonneg_left (hw e) (by exact_mod_cast ha) (by exact_mod_cast hab)

/-- One more replica for an expert that carries the most. -/
theorem Fair.update (hw : ∀ e, 0 ≤ weight e) (hfair : Fair weight logcnt)
    (hpos : ∀ e, 0 < logcnt e) {m : Fin numLog}
    (hm : ∀ e, weight e / logcnt e ≤ weight m / logcnt m) :
    Fair weight (Function.update logcnt m (logcnt m + 1)) := by
  intro e j hj
  -- the load of `e` does not grow
  have hload : weight e / (Function.update logcnt m (logcnt m + 1) e : ℕ) ≤
      weight e / logcnt e := by
    apply load_anti hw e (hpos e)
    by_cases he : e = m
    · simp [he]
    · simp [he]
  apply hload.trans
  by_cases hjm : j = m
  · simpa [hjm] using hm e
  · rw [Function.update_of_ne hjm] at hj ⊢
    exact hfair e j hj

/-- **Exchange.** Counts that spread the load better give some expert more replicas, so another one
fewer; but that one then carries at least the largest load there is now. -/
theorem Fair.maxLoad_le (hw : ∀ e, 0 ≤ weight e) (hfair : Fair weight logcnt)
    (hlog : IsCount numPhy logcnt) (hcounts : IsCount numPhy counts) :
    maxLoad weight logcnt ≤ maxLoad weight counts := by
  apply maximum_le_of_forall_le
  intro load hload
  obtain ⟨e, -, rfl⟩ := mem_map.mp hload
  have hmax (j : Fin numLog) : ((weight j / counts j : ℚ) : WithBot ℚ) ≤ maxLoad weight counts :=
    le_maximum_of_mem' (mem_map.mpr ⟨j, mem_finRange j, rfl⟩)
  by_cases he : counts e ≤ logcnt e
  · exact le_trans (by exact_mod_cast load_anti hw e (hcounts.pos e) he) (hmax e)
  obtain ⟨j, hj⟩ : ∃ j, counts j < logcnt j := by
    by_contra hnone
    have hlt := Finset.sum_lt_sum (fun j _ => not_lt.mp fun h => hnone ⟨j, h⟩)
      ⟨e, Finset.mem_univ e, not_le.mp he⟩
    rw [hlog.sum, hcounts.sum] at hlt
    exact lt_irrefl _ hlt
  have hpos := hcounts.pos j
  have hle : weight e / logcnt e ≤ weight j / counts j :=
    (hfair e j (by omega)).trans (load_anti hw j hpos (by omega))
  exact le_trans (by exact_mod_cast hle) (hmax j)

theorem replicaRound_spec (hw : ∀ e, 0 ≤ weight e) (hlog : 0 < numLog) {s : Replicas numLog}
    (hcount : IsCount n s.logcnt) (hfair : Fair weight s.logcnt) (i : ℕ) :
    ∃ s', replicaRound weight s i = some s' ∧ IsCount (n + 1) s'.logcnt ∧
      Fair weight s'.logcnt := by
  obtain ⟨m, hm⟩ : ∃ m, (finRange numLog).argmax (fun e => weight e / s.logcnt e) = some m := by
    rw [← Option.ne_none_iff_exists', ne_eq, argmax_eq_none, finRange_eq_nil_iff]
    omega
  refine ⟨_, by rw [replicaRound, hm]; rfl, ⟨fun e => ?_, ?_⟩, hfair.update hw hcount.pos fun e =>
    le_of_mem_argmax (mem_finRange e) hm⟩
  · by_cases he : e = m
    · simp [he]
    · simpa [he] using hcount.pos e
  · rw [Finset.sum_update_of_mem (Finset.mem_univ m), Finset.sdiff_singleton_eq_erase, ← hcount.sum,
      ← Finset.add_sum_erase _ s.logcnt (Finset.mem_univ m)]
    omega

theorem run_replicaRound (hw : ∀ e, 0 ≤ weight e) (hlog : 0 < numLog) {s : Replicas numLog}
    (hcount : IsCount n s.logcnt) (hfair : Fair weight s.logcnt) (is : List ℕ) :
    ∃ s', run (replicaRound weight) s is = some s' ∧ IsCount (n + is.length) s'.logcnt ∧
      Fair weight s'.logcnt := by
  induction is generalizing s n with
  | nil => exact ⟨s, rfl, hcount, hfair⟩
  | cons i is ih =>
    obtain ⟨m, hround, hcount', hfair'⟩ := replicaRound_spec hw hlog hcount hfair i
    obtain ⟨s', hrun, hcount', hfair'⟩ := ih hcount' hfair'
    refine ⟨s', by rw [run_cons, hround]; exact hrun, ?_, hfair'⟩
    rwa [length_cons, Nat.add_comm is.length, ← Nat.add_assoc]

end

/-- **The counts are optimal**: no other counts for `numPhy` replicas have a smaller maximal load.
(Without experts there are counts only for `numPhy = 0`.) -/
theorem replicateExperts_optimal (weight : Fin numLog → ℚ) (hw : ∀ e, 0 ≤ weight e) (numPhy : ℕ)
    (hphy : numLog ≤ numPhy) (counts : Fin numLog → ℕ) (hcounts : IsCount numPhy counts) :
    ∃ s, replicateExperts weight numPhy = some s ∧ IsCount numPhy s.logcnt ∧
      maxLoad weight s.logcnt ≤ maxLoad weight counts := by
  have hone : IsCount numLog fun _ : Fin numLog => 1 := ⟨fun _ => Nat.one_pos, by simp⟩
  have hfair : Fair weight fun _ : Fin numLog => 1 := fun _ _ h => absurd h (lt_irrefl 1)
  obtain ⟨s, hrun, hcount, hfair'⟩ : ∃ s, run (replicaRound weight)
      { phy2log := range numPhy, logcnt := fun _ => 1 } (range' numLog (numPhy - numLog)) = some s ∧
      IsCount numPhy s.logcnt ∧ Fair weight s.logcnt := by
    rcases Nat.eq_zero_or_pos numLog with rfl | hlog
    · have hzero : numPhy = 0 := by simpa using hcounts.sum.symm
      subst hzero
      exact ⟨_, rfl, hone, hfair⟩
    · have h := run_replicaRound (s := { phy2log := range numPhy, logcnt := fun _ => 1 }) hw hlog
        hone hfair (range' numLog (numPhy - numLog))
      rwa [length_range', Nat.add_sub_cancel' hphy] at h
  refine ⟨s, ?_, hcount, hfair'.maxLoad_le hw hcount hcounts⟩
  rw [replicateExperts, hrun]
  simp [hphy]

theorem replicateExperts_optimal_three : ∃ s,
    replicateExperts (![3, 1] : Fin 2 → ℚ) 3 = some s ∧ IsCount 3 s.logcnt ∧
      maxLoad ![3, 1] s.logcnt ≤ maxLoad (![3, 1] : Fin 2 → ℚ) ![1, 2] :=
  replicateExperts_optimal ![3, 1] (by decide) 3 (by decide) ![1, 2] ⟨by decide, by decide⟩

end Nvllm.Eplb
