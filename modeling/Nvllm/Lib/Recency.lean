import Mathlib.Data.List.Dedup
import Mathlib.Data.List.Induction
import Mathlib.Algebra.Order.Ring.NNRat
import Mathlib.Algebra.BigOperators.Group.List.Basic
import Mathlib.Algebra.Order.BigOperators.Group.List
import Mathlib.Tactic.Linarith

/-! # Orders of use

A list of keys, the least recently used one first. `touch` moves a key to the end, `touchAll` is
the order after a series of uses, and `room` drops the least recently used keys until what is left
fits beside a given amount.
-/

namespace Nvllm.Recency

open List

variable {K : Type} [DecidableEq K]

/-- Use of one key. A key that is not in the order enters it. -/
def touch (k : K) (l : List K) : List K := l.erase k ++ [k]

/-- Use of several keys: the others keep their places before them, and each key stands where its
last use puts it. -/
def touchAll (ks l : List K) : List K := (l.filter fun k => k ∉ ks) ++ ks.dedup

@[simp] theorem touchAll_nil (l : List K) : touchAll [] l = l := by
  simp [touchAll]

theorem dedup_concat (ks : List K) (k : K) : (ks ++ [k]).dedup = ks.dedup.erase k ++ [k] := by
  induction ks with
  | nil => simp
  | cons a ks ih =>
    by_cases ha : a ∈ ks
    · rw [cons_append, dedup_cons_of_mem (mem_append_left _ ha), ih,
        dedup_cons_of_mem ha]
    · rw [dedup_cons_of_notMem ha]
      by_cases hk : a = k
      · subst hk
        have hnot : a ∉ ks.dedup := fun h => ha (mem_dedup.mp h)
        rw [cons_append, dedup_cons_of_mem (by simp), ih, erase_cons_head,
          erase_of_not_mem hnot]
      · have hnot : a ∉ ks ++ [k] := by simp [ha, hk]
        rw [cons_append, dedup_cons_of_notMem hnot, ih,
          erase_cons_tail (by simpa using hk), cons_append]

variable {l : List K}

theorem filter_not_mem_concat (hl : l.Nodup) (ks : List K) (k : K) :
    (l.filter fun a => a ∉ ks ++ [k]) = (l.filter fun a => a ∉ ks).erase k := by
  rw [(hl.filter _).erase_eq_filter, filter_filter]
  apply filter_congr
  intro a _
  by_cases hak : a = k
  · simp [hak]
  · simp [hak]

/-- One more use. -/
theorem touch_touchAll (hl : l.Nodup) (ks : List K) (k : K) :
    touch k (touchAll ks l) = touchAll (ks ++ [k]) l := by
  rw [touch, touchAll, touchAll, filter_not_mem_concat hl, dedup_concat]
  by_cases hk : k ∈ l.filter fun a => a ∉ ks
  · have hnot : k ∉ ks.dedup := by
      simpa using (mem_filter.mp hk).2
    rw [erase_append_left _ hk, erase_of_not_mem hnot, append_assoc]
  · rw [erase_append_right _ hk, erase_of_not_mem hk, append_assoc]

theorem foldl_touch (hl : l.Nodup) (ks : List K) :
    ks.foldl (fun l k => touch k l) l = touchAll ks l := by
  induction ks using List.reverseRecOn with
  | nil => simp
  | append_singleton ks k ih =>
    rw [foldl_append, ih]
    exact touch_touchAll hl ks k

theorem touch_append {k : K} {olds : List K} (h : k ∉ olds) (l : List K) :
    touch k (olds ++ l) = olds ++ touch k l := by
  rw [touch, touch, erase_append_right _ h, append_assoc]

theorem mem_touchAll {ks : List K} {k : K} : k ∈ touchAll ks l ↔ k ∈ l ∨ k ∈ ks := by
  simp only [touchAll, mem_append, mem_filter, mem_dedup, decide_eq_true_eq]
  tauto

theorem nodup_touchAll (hl : l.Nodup) (ks : List K) : (touchAll ks l).Nodup := by
  refine List.Nodup.append (hl.filter _) (nodup_dedup ks) ?_
  intro k hk hks
  have hnot : k ∉ ks := by simpa using (mem_filter.mp hk).2
  exact hnot (mem_dedup.mp hks)

/-- Using the keys that stand last, in their order, changes nothing. -/
theorem touchAll_of_suffix {ks : List K} (hl : l.Nodup) (h : ks.dedup <:+ l) :
    touchAll ks l = l := by
  obtain ⟨olds, rfl⟩ := h
  rw [touchAll, filter_append]
  have hdisj := (nodup_append.mp hl).2.2
  have hleft : (olds.filter fun k => k ∉ ks) = olds := by
    apply filter_eq_self.mpr
    intro k hk
    have hnot : k ∉ ks := fun hks => hdisj k hk k (mem_dedup.mpr hks) rfl
    simpa using hnot
  have hright : (ks.dedup.filter fun k => k ∉ ks) = [] := by
    apply filter_eq_nil_iff.mpr
    intro k hk
    simpa using mem_dedup.mp hk
  rw [hleft, hright, append_nil]

/-! ## Making room -/

section Room

variable (size : K → ℕ) (cap : ℚ≥0)

omit [DecidableEq K] in
/-- Total size of a list of keys. -/
def weight (l : List K) : ℕ := (l.map size).sum

/-- What is left when keys are dropped from the front until the rest fits beside `need`. -/
def room (need : ℕ) : List K → List K
  | [] => []
  | k :: l => if ((weight size (k :: l) + need : ℕ) : ℚ≥0) ≤ cap then k :: l else room need l

omit [DecidableEq K]

@[simp] theorem weight_nil : weight size ([] : List K) = 0 := rfl

@[simp] theorem weight_cons (k : K) (l : List K) :
    weight size (k :: l) = size k + weight size l := by
  simp [weight]

@[simp] theorem weight_append (l l' : List K) :
    weight size (l ++ l') = weight size l + weight size l' := by
  simp [weight]

variable {size cap}

variable {l : List K} {need : ℕ}

theorem weight_congr {size' : K → ℕ} (h : ∀ k ∈ l, size k = size' k) :
    weight size l = weight size' l := by
  rw [weight, weight, map_congr_left h]

theorem weight_perm {l' : List K} (h : l.Perm l') : weight size l = weight size l' :=
  (h.map size).sum_eq

theorem weight_sublist {l' : List K} (h : l.Sublist l') : weight size l ≤ weight size l' :=
  (h.map size).sum_le_sum fun _ _ => Nat.zero_le _

theorem room_of_le (h : ((weight size l + need : ℕ) : ℚ≥0) ≤ cap) : room size cap need l = l := by
  cases l with
  | nil => rfl
  | cons k l => rw [room, if_pos h]

theorem room_suffix (need : ℕ) (l : List K) : room size cap need l <:+ l := by
  induction l with
  | nil => exact suffix_rfl
  | cons k l ih =>
    rw [room]
    split
    · exact suffix_rfl
    · exact ih.trans (suffix_cons k l)

theorem weight_room (h : (need : ℚ≥0) ≤ cap) (l : List K) :
    ((weight size (room size cap need l) + need : ℕ) : ℚ≥0) ≤ cap := by
  induction l with
  | nil => simpa [room] using h
  | cons k l ih =>
    rw [room]
    split
    · assumption
    · exact ih

/-- A larger need goes on where a smaller one stopped. -/
theorem room_room {need' : ℕ} (h : need ≤ need') (l : List K) :
    room size cap need' (room size cap need l) = room size cap need' l := by
  induction l with
  | nil => rfl
  | cons k l ih =>
    by_cases hk : ((weight size (k :: l) + need : ℕ) : ℚ≥0) ≤ cap
    · rw [room_of_le hk]
    · have hk' : ¬((weight size (k :: l) + need' : ℕ) : ℚ≥0) ≤ cap := by
        intro h'
        apply hk
        exact (Nat.cast_le.mpr (Nat.add_le_add_left h _)).trans h'
      rw [room, if_neg hk, ih, room, if_neg hk']

theorem room_congr {size' : K → ℕ} (h : ∀ k ∈ l, size k = size' k) :
    room size cap need l = room size' cap need l := by
  induction l with
  | nil => rfl
  | cons k l ih =>
    rw [room, room, weight_congr h, ih fun a ha => h a (mem_cons_of_mem _ ha)]

end Room

end Nvllm.Recency
