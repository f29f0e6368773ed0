import Mathlib.Data.List.Basic
import Mathlib.Order.Nat
import Mathlib.Tactic.Common

/-! # Borders of the prefixes of a list

A border of the first `i` elements of `w` is a shorter beginning of `w` with which they end. The
borders of one prefix are borders of each other, which is why failure tables work: the next shorter
border is found in the entry of the longest one.
-/

namespace Nvllm

open List

variable {α : Type*} {w : List α} {i u v : ℕ}

/-- The first `i` elements of `w` end with the first `v < i` ones. -/
structure Border (w : List α) (i v : ℕ) : Prop where
  lt : v < i
  le : i ≤ w.length
  suffix : w.take v <:+ w.take i

theorem Border.zero (hpos : 0 < i) (hi : i ≤ w.length) : Border w i 0 :=
  ⟨hpos, hi, by simp⟩

theorem Border.trans (hv : Border w i v) (hu : Border w v u) : Border w i u :=
  ⟨hu.lt.trans hv.lt, hv.le, hu.suffix.trans hv.suffix⟩

theorem Border.nest (hv : Border w i v) (hu : Border w i u) (h : u < v) : Border w v u := by
  have hlen : (w.take u).length ≤ (w.take v).length := by
    rw [length_take, length_take]
    omega
  exact ⟨h, hv.lt.le.trans hv.le, suffix_of_suffix_length_le hu.suffix hv.suffix hlen⟩

/-- A border grows with the prefix if the next elements agree. -/
theorem border_succ_iff (hi : i < w.length) :
    Border w (i + 1) (v + 1) ↔ Border w i v ∧ w[v]? = w[i]? := by
  constructor
  · intro h
    have hlt : v < i := Nat.lt_of_succ_lt_succ h.lt
    have hs := h.suffix
    rw [take_succ_eq_append_getElem hi, take_succ_eq_append_getElem (hlt.trans hi),
      suffix_concat_iff] at hs
    rcases hs with hs | ⟨t, ht, hs⟩
    · cases (append_eq_nil_iff.mp hs).2
    · obtain ⟨rfl, heq⟩ := append_inj' ht rfl
      rw [getElem?_eq_getElem hi, getElem?_eq_getElem (hlt.trans hi)]
      exact ⟨⟨hlt, hi.le, hs⟩, congrArg some (singleton_inj.mp heq)⟩
  · rintro ⟨h, heq⟩
    refine ⟨Nat.succ_lt_succ h.lt, hi, ?_⟩
    rw [getElem?_eq_getElem hi, getElem?_eq_getElem (h.lt.trans hi),
      Option.some_inj] at heq
    rw [take_succ_eq_append_getElem hi, take_succ_eq_append_getElem (h.lt.trans hi),
      suffix_concat_iff, heq]
    exact .inr ⟨_, rfl, h.suffix⟩

/-- A border of a reversed list is a second occurrence of the end of the list. -/
theorem border_reverse_iff {l : List α} (hv : v < i) (hi : i ≤ l.length) :
    Border l.reverse i v ↔ l.drop (l.length - v) <:+ l.take (l.length - (i - v)) := by
  have hlen : i ≤ l.reverse.length := by rwa [length_reverse]
  have hocc : l.reverse.take v <:+ l.reverse.take i ↔
      l.reverse.take v <+: l.reverse.drop (i - v) := by
    rw [suffix_iff_eq_drop, prefix_iff_eq_take, length_take_of_le hlen,
      length_take_of_le (hv.le.trans hlen), drop_take, Nat.sub_sub_self hv.le]
  rw [← reverse_prefix, ← take_reverse, ← drop_reverse, ← hocc]
  exact ⟨Border.suffix, fun h => ⟨hv, hlen, h⟩⟩

end Nvllm
