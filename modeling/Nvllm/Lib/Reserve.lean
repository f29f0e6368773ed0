import Mathlib.Algebra.Ring.Nat
import Mathlib.Data.List.Nodup
import Mathlib.Data.List.Perm.Subperm
import Mathlib.Tactic.Common

/-! # Reserving from one queue, client after client

Several clients are served from one queue in turn. Each first takes elements that it names, which
leave the queue if they are in it, and then a number of further ones from the front. What a client
names is safe from the clients after it; from those before it, it is safe only if their share of
the front happens not to contain it.
-/

namespace Nvllm.Reserve

open List

/-- What a client asks for: elements by name, and how many more. -/
structure Claim (α : Type) where
  named : List α
  fresh : ℕ
  deriving DecidableEq, Repr

/-- What it gets. -/
structure Share (α : Type) where
  named : List α
  fresh : List α
  deriving DecidableEq, Repr

variable {α : Type} [DecidableEq α]

def without (queue named : List α) : List α := queue.filter (· ∉ named)

/-- What the queue has for one client. -/
def Claim.share (c : Claim α) (queue : List α) : Share α :=
  ⟨c.named, (without queue c.named).take c.fresh⟩

/-- What it keeps for the others. -/
def Claim.rest (c : Claim α) (queue : List α) : List α := (without queue c.named).drop c.fresh

def reserve : List α → List (Claim α) → List (Share α)
  | _, [] => []
  | queue, c :: cs => c.share queue :: reserve (c.rest queue) cs

/-- The queue once all clients are served. -/
def left : List α → List (Claim α) → List α
  | queue, [] => queue
  | queue, c :: cs => left (c.rest queue) cs

/-- How many elements the queue loses at most to one client. -/
def Claim.cost (c : Claim α) (queue : List α) : ℕ := c.named.countP (· ∈ queue) + c.fresh

/-- The costs of all clients. -/
def costs (queue : List α) (cs : List (Claim α)) : ℕ := (cs.map fun c => c.cost queue).sum

/-- **No client is handed what a later one names.** -/
def Apart (queue : List α) (cs : List (Claim α)) : Prop :=
  (reserve queue cs).Pairwise fun s s' => ∀ a ∈ s.fresh, a ∉ s'.named

instance (queue : List α) (cs : List (Claim α)) : Decidable (Apart queue cs) :=
  inferInstanceAs (Decidable (List.Pairwise _ _))

variable {queue : List α} {cs : List (Claim α)} {a : α}

theorem mem_without {named : List α} : a ∈ without queue named ↔ a ∈ queue ∧ a ∉ named := by
  simp [without]

theorem without_nil (queue : List α) : without queue [] = queue := by simp [without]

theorem without_cons (b : α) (named : List α) :
    without queue (b :: named) = without (queue.filter (· ≠ b)) named := by
  rw [without, without, filter_filter]
  apply filter_congr
  simp [Bool.and_comm]

theorem Claim.mem_of_share {c : Claim α} (ha : a ∈ (c.share queue).fresh) :
    a ∈ queue ∧ a ∉ c.named := mem_without.mp (mem_of_mem_take ha)

theorem Claim.mem_of_rest {c : Claim α} (ha : a ∈ c.rest queue) : a ∈ queue ∧ a ∉ c.named :=
  mem_without.mp (mem_of_mem_drop ha)

/-- A queue without repetition loses an element for each name that is in it. -/
theorem length_le_without (hnd : queue.Nodup) (named : List α) :
    queue.length ≤ (without queue named).length + named.countP (· ∈ queue) := by
  have hsplit : queue.length = (queue.filter (· ∈ named)).length +
      (queue.filter (· ∉ named)).length := by
    simpa using length_eq_length_filter_add (l := queue) (fun a => decide (a ∈ named))
  have hsub : (queue.filter (· ∈ named)).length ≤ (named.filter (· ∈ queue)).length := by
    apply (subperm_of_subset (hnd.filter _) _).length_le
    intro a ha
    simpa [and_comm] using ha
  rw [countP_eq_length_filter, without]
  omega

theorem Claim.length_le_rest (hnd : queue.Nodup) (c : Claim α) :
    queue.length ≤ (c.rest queue).length + c.cost queue := by
  have h := length_le_without hnd c.named
  rw [Claim.rest, Claim.cost, length_drop]
  omega

/-- A smaller queue loses less. -/
theorem Claim.cost_le {queue' : List α} (h : ∀ a ∈ queue', a ∈ queue) (c : Claim α) :
    c.cost queue' ≤ c.cost queue := by
  have hcount : c.named.countP (· ∈ queue') ≤ c.named.countP (· ∈ queue) :=
    countP_mono_left fun a _ ha => by simpa using h a (by simpa using ha)
  rw [Claim.cost, Claim.cost]
  omega

theorem costs_cons (queue : List α) (c : Claim α) (cs : List (Claim α)) :
    costs queue (c :: cs) = c.cost queue + costs queue cs := by
  rw [costs, map_cons, sum_cons, costs]

theorem costs_le {queue' : List α} (h : ∀ a ∈ queue', a ∈ queue) (cs : List (Claim α)) :
    costs queue' cs ≤ costs queue cs := by
  induction cs with
  | nil => exact Nat.le_refl _
  | cons c cs ih =>
    exact Nat.add_le_add (c.cost_le h) ih

/-- Every client gets what it names. -/
theorem map_named_reserve (queue : List α) (cs : List (Claim α)) :
    (reserve queue cs).map Share.named = cs.map Claim.named := by
  induction cs generalizing queue with
  | nil => rfl
  | cons c cs ih => rw [reserve, map_cons, map_cons, ih, Claim.share]

/-- Every fresh element comes from the queue. -/
theorem mem_of_fresh {s : Share α} (hs : s ∈ reserve queue cs) (ha : a ∈ s.fresh) : a ∈ queue := by
  induction cs generalizing queue with
  | nil => cases hs
  | cons c cs ih =>
    rcases mem_cons.mp hs with rfl | hs
    · exact (Claim.mem_of_share ha).1
    · exact (Claim.mem_of_rest (ih hs)).1

theorem mem_of_left (ha : a ∈ left queue cs) : a ∈ queue := by
  induction cs generalizing queue with
  | nil => exact ha
  | cons c cs ih => exact (Claim.mem_of_rest (ih ha)).1

/-- No client is handed what it names itself. -/
theorem not_fresh_of_named {s : Share α} (hs : s ∈ reserve queue cs) (ha : a ∈ s.named) :
    a ∉ s.fresh := by
  induction cs generalizing queue with
  | nil => cases hs
  | cons c cs ih =>
    rcases mem_cons.mp hs with rfl | hs
    · exact fun hfresh => (Claim.mem_of_share hfresh).2 ha
    · exact ih hs

/-- No client is handed what an earlier one named. -/
theorem pairwise_not_fresh (queue : List α) (cs : List (Claim α)) :
    (reserve queue cs).Pairwise fun s s' => ∀ a ∈ s.named, a ∉ s'.fresh := by
  induction cs generalizing queue with
  | nil => exact .nil
  | cons c cs ih =>
    refine .cons (fun s' hs' a ha hfresh => ?_) (ih _)
    exact (Claim.mem_of_rest (mem_of_fresh hs' hfresh)).2 ha

/-- What some client named is not left over. -/
theorem not_left_of_named {s : Share α} (hs : s ∈ reserve queue cs) (ha : a ∈ s.named) :
    a ∉ left queue cs := by
  induction cs generalizing queue with
  | nil => cases hs
  | cons c cs ih =>
    rcases mem_cons.mp hs with rfl | hs
    · exact fun hleft => (Claim.mem_of_rest (mem_of_left hleft)).2 ha
    · exact ih hs

/-- Being apart in terms of positions: no client at all is handed what another one names. -/
theorem apart_iff : Apart queue cs ↔ ∀ (i j : ℕ) (s s' : Share α), (reserve queue cs)[i]? = some s →
    (reserve queue cs)[j]? = some s' → ∀ a ∈ s.fresh, a ∉ s'.named := by
  have hbehind := pairwise_iff_getElem.mp (pairwise_not_fresh queue cs)
  constructor
  · intro h i j s s' hs hs' a ha hnamed
    obtain ⟨hi, rfl⟩ := List.getElem?_eq_some_iff.mp hs
    obtain ⟨hj, rfl⟩ := List.getElem?_eq_some_iff.mp hs'
    rcases Nat.lt_trichotomy i j with hij | rfl | hij
    · exact pairwise_iff_getElem.mp h i j hi hj hij a ha hnamed
    · exact not_fresh_of_named (getElem_mem hi) hnamed ha
    · exact hbehind j i hj hi hij a hnamed ha
  · intro h
    apply pairwise_iff_getElem.mpr
    intro i j hi hj _
    exact h i j _ _ (getElem?_eq_getElem hi) (getElem?_eq_getElem hj)

end Nvllm.Reserve
