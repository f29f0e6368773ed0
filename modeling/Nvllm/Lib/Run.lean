import Mathlib.Data.List.Basic
import Mathlib.Tactic.Common

/-! # Runs of a labelled transition function

A system is given by a step function `step : σ → α → Option σ`: from the state `s` the label
`a` either leads to one state or is not possible (`none`). `run` executes a list of labels,
`Reach` is the set of states that a run can end in when every step it takes satisfies a
condition `ok` on the state before the step and the label.
-/

namespace Nvllm.Run

variable {σ α : Type*}

/-- Execute a list of labels from left to right; `none` as soon as a step is not possible. -/
def run (step : σ → α → Option σ) : σ → List α → Option σ
  | s, [] => some s
  | s, a :: as => (step s a).bind fun s' => run step s' as

/-- **Reachable states.** `Reach step ok s0 s`: a run from `s0` ends in `s`, and each of its
steps satisfies `ok`. -/
inductive Reach (step : σ → α → Option σ) (ok : σ → α → Prop) (s0 : σ) : σ → Prop
  | init : Reach step ok s0 s0
  | next {s s' : σ} {a : α} : Reach step ok s0 s → ok s a → step s a = some s' →
      Reach step ok s0 s'

/-- The condition that every step satisfies. -/
def always : σ → α → Prop := fun _ _ => True

section

variable {step : σ → α → Option σ} {ok : σ → α → Prop} {s0 s s' : σ}

@[simp] theorem run_nil : run step s [] = some s := rfl

theorem run_cons (a : α) (as : List α) :
    run step s (a :: as) = (step s a).bind fun s' => run step s' as := rfl

theorem run_cons_eq_some {a : α} {as : List α} :
    run step s (a :: as) = some s' ↔ ∃ m, step s a = some m ∧ run step m as = some s' := by
  rw [run_cons, Option.bind_eq_some_iff]

/-- **Invariant rule.** What holds at the start and is preserved by every step taken under
`ok` holds of every reachable state. -/
theorem Reach.invariant (Inv : σ → Prop) (h0 : Inv s0)
    (hstep : ∀ s a s', Inv s → ok s a → step s a = some s' → Inv s')
    (h : Reach step ok s0 s) : Inv s := by
  induction h with
  | init => exact h0
  | next _ hok hs ih => exact hstep _ _ _ ih hok hs

theorem Reach.trans {s1 : σ} (h1 : Reach step ok s0 s1) (h2 : Reach step ok s1 s) :
    Reach step ok s0 s := by
  induction h2 with
  | init => exact h1
  | next _ hok hs ih => exact ih.next hok hs

theorem Reach.imp {ok' : σ → α → Prop} (himp : ∀ s a, ok s a → ok' s a)
    (h : Reach step ok s0 s) : Reach step ok' s0 s := by
  induction h with
  | init => exact .init
  | next _ hok hs ih => exact ih.next (himp _ _ hok) hs

/-- A run is a way to reach its last state. -/
theorem Reach.of_run {as : List α} (h : Reach step always s0 s) (hr : run step s as = some s') :
    Reach step always s0 s' := by
  induction as generalizing s with
  | nil =>
    cases hr
    exact h
  | cons a as ih =>
    obtain ⟨m, hm, hr⟩ := run_cons_eq_some.mp hr
    exact ih (h.next trivial hm) hr

/-- A step that is taken only if it satisfies the condition, for conditions that can be checked. -/
def guarded (ok : σ → α → Prop) [∀ s a, Decidable (ok s a)] (step : σ → α → Option σ) :
    σ → α → Option σ :=
  fun s a => if ok s a then step s a else none

theorem Reach.of_guarded_run [∀ s a, Decidable (ok s a)] {as : List α} (h : Reach step ok s0 s)
    (hr : run (guarded ok step) s as = some s') : Reach step ok s0 s' := by
  induction as generalizing s with
  | nil =>
    cases hr
    exact h
  | cons a as ih =>
    obtain ⟨m, hm, hr⟩ := run_cons_eq_some.mp hr
    rw [guarded] at hm
    split at hm
    · exact ih (h.next ‹_› hm) hr
    · cases hm

/-- **Bounded runs.** If every step lowers a rank, no run is longer than the rank of the state
it starts in. -/
theorem run_length_le (rank : σ → ℕ) (Inv : σ → Prop)
    (hinv : ∀ s a s', Inv s → step s a = some s' → Inv s')
    (hrank : ∀ s a s', Inv s → step s a = some s' → rank s' < rank s)
    (hs : Inv s) {as : List α} (hr : run step s as = some s') : as.length ≤ rank s := by
  induction as generalizing s with
  | nil => exact Nat.zero_le _
  | cons a as ih =>
    obtain ⟨m, hm, hr⟩ := run_cons_eq_some.mp hr
    have hle := ih (hinv _ _ _ hs hm) hr
    have hlt := hrank _ _ _ hs hm
    rw [List.length_cons]
    omega

end

/-- A `while` loop, for at most `fuel` turns. -/
def whileLoop (cond : σ → Bool) (body : σ → σ) : ℕ → σ → σ
  | 0, s => s
  | fuel + 1, s => if cond s then whileLoop cond body fuel (body s) else s

/-- **Loop rule.** If the body keeps an invariant and lowers a rank, the loop ends within as many
turns as the rank of the state it starts in. -/
theorem whileLoop_spec {cond : σ → Bool} {body : σ → σ} (Inv : σ → Prop) (rank : σ → ℕ)
    (hbody : ∀ s, Inv s → cond s = true → Inv (body s) ∧ rank (body s) < rank s) {fuel : ℕ} {s : σ}
    (hs : Inv s) (hrank : rank s ≤ fuel) :
    Inv (whileLoop cond body fuel s) ∧ cond (whileLoop cond body fuel s) = false := by
  induction fuel generalizing s with
  | zero =>
    refine ⟨hs, Bool.eq_false_iff.mpr fun hc => ?_⟩
    have hlt := (hbody s hs hc).2
    omega
  | succ fuel ih =>
    unfold whileLoop
    split
    · rename_i hc
      obtain ⟨hinv, hlt⟩ := hbody s hs hc
      exact ih hinv (by omega)
    · rename_i hc
      exact ⟨hs, Bool.eq_false_iff.mpr hc⟩

end Nvllm.Run
