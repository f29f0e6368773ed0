import Mathlib.Data.List.Induction
import Mathlib.Tactic.Common

/-! # Hash chains

The digest of a list of entries is the fold of a hash step from a seed. If the step is injective
and never gives the seed back, a digest determines the list it was made from: its length as well
as its entries.
-/

namespace Nvllm.HashChain

variable {H α : Type*}

def digest (step : H → α → H) (seed : H) (l : List α) : H := l.foldl step seed

/-- The step is injective in both arguments and never gives the seed. -/
structure Ideal (step : H → α → H) (seed : H) : Prop where
  inj : ∀ {p q : H} {a b : α}, step p a = step q b → p = q ∧ a = b
  ne_seed : ∀ (p : H) (a : α), step p a ≠ seed

variable {step : H → α → H} {seed : H}

@[simp] theorem digest_nil : digest step seed [] = seed := rfl

@[simp] theorem digest_concat (l : List α) (a : α) :
    digest step seed (l ++ [a]) = step (digest step seed l) a := by
  simp [digest]

theorem Ideal.digest_inj (h : Ideal step seed) {l l' : List α}
    (heq : digest step seed l = digest step seed l') : l = l' := by
  induction l using List.reverseRecOn generalizing l' with
  | nil =>
    cases l' using List.reverseRecOn with
    | nil => rfl
    | append_singleton init' b =>
      rw [digest_nil, digest_concat] at heq
      exact absurd heq.symm (h.ne_seed _ _)
  | append_singleton init a ih =>
    cases l' using List.reverseRecOn with
    | nil =>
      rw [digest_nil, digest_concat] at heq
      exact absurd heq (h.ne_seed _ _)
    | append_singleton init' b =>
      rw [digest_concat, digest_concat] at heq
      obtain ⟨hp, rfl⟩ := h.inj heq
      rw [ih hp]

end Nvllm.HashChain
