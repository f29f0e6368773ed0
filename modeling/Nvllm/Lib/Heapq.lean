import Mathlib.Data.List.Perm.Basic
import Mathlib.Tactic.Common

/-! # Binary heaps in a list

The algorithms of Python's `heapq` on a list with a Boolean comparison `lt`. Nothing is assumed of
`lt`, and a list need not be ordered as a heap: keys may change while their items are in the list.
What holds in any case is that no operation loses or duplicates an item.

The loops of the Python code carry one item up or down and write it at the end; here it is
exchanged at every step, which gives the same lists.
-/

namespace Nvllm.Heapq

variable {α : Type} (lt : α → α → Bool)

/-- Exchanges two positions. -/
def swap (h : List α) (i j : ℕ) : List α :=
  match h[i]?, h[j]? with
  | some x, some y => (h.set i y).set j x
  | _, _ => h

/-- The loop of `_siftdown`: the item at `pos` goes up while it is smaller than its parent. `pos`
rounds are enough. -/
def siftdown (startpos : ℕ) : ℕ → ℕ → List α → List α
  | 0, _, h => h
  | fuel + 1, pos, h =>
    if pos ≤ startpos then h
    else
      match h[pos]?, h[(pos - 1) / 2]? with
      | some x, some parent =>
        if lt x parent then siftdown startpos fuel ((pos - 1) / 2) (swap h pos ((pos - 1) / 2))
        else h
      | _, _ => h

/-- The child of `pos` that moves up: the right one unless the left one is smaller. -/
def smallerChild (pos : ℕ) (h : List α) : Option ℕ :=
  match h[2 * pos + 1]?, h[2 * pos + 2]? with
  | none, _ => none
  | some _, none => some (2 * pos + 1)
  | some l, some r => some (if lt l r then 2 * pos + 1 else 2 * pos + 2)

/-- The first loop of `_siftup`: the item at `pos` goes down to a leaf. As many rounds as there
are items are enough. -/
def toLeaf : ℕ → ℕ → List α → ℕ × List α
  | 0, pos, h => (pos, h)
  | fuel + 1, pos, h =>
    match smallerChild lt pos h with
    | none => (pos, h)
    | some child => toLeaf fuel child (swap h pos child)

def siftup (pos : ℕ) (h : List α) : List α :=
  let (leaf, h) := toLeaf lt h.length pos h
  siftdown lt pos leaf leaf h

def heappush (h : List α) (x : α) : List α := siftdown lt 0 h.length h.length (h ++ [x])

def heappop : List α → Option (α × List α)
  | [] => none
  | [x] => some (x, [])
  | x :: y :: ys => some (x, siftup lt 0 (ys.getLastD y :: (y :: ys).dropLast))

def heapify (h : List α) : List α :=
  (List.range (h.length / 2)).foldr (fun pos h => siftup lt pos h) h

/-- All items in the order in which they are popped. -/
def drain : ℕ → List α → List α
  | 0, _ => []
  | fuel + 1, h =>
    match heappop lt h with
    | none => []
    | some (x, h) => x :: drain fuel h

/-! ## Items are kept -/

theorem swap_perm (h : List α) (i j : ℕ) : (swap h i j).Perm h := by
  unfold swap
  split
  · rename_i x y hx hy
    obtain ⟨hi, rfl⟩ := List.getElem?_eq_some_iff.mp hx
    obtain ⟨hj, rfl⟩ := List.getElem?_eq_some_iff.mp hy
    exact List.set_set_perm hi hj
  · exact List.Perm.refl h

theorem siftdown_perm (startpos fuel pos : ℕ) (h : List α) :
    (siftdown lt startpos fuel pos h).Perm h := by
  induction fuel generalizing pos h with
  | zero => exact List.Perm.refl h
  | succ fuel ih =>
    unfold siftdown
    split
    · exact List.Perm.refl h
    · split
      · split
        · exact (ih _ _).trans (swap_perm _ _ _)
        · exact List.Perm.refl h
      · exact List.Perm.refl h

theorem toLeaf_perm (fuel pos : ℕ) (h : List α) : (toLeaf lt fuel pos h).2.Perm h := by
  induction fuel generalizing pos h with
  | zero => exact List.Perm.refl h
  | succ fuel ih =>
    unfold toLeaf
    split
    · exact List.Perm.refl h
    · exact (ih _ _).trans (swap_perm _ _ _)

theorem siftup_perm (pos : ℕ) (h : List α) : (siftup lt pos h).Perm h :=
  (siftdown_perm lt _ _ _ _).trans (toLeaf_perm lt _ _ _)

theorem heappush_perm (h : List α) (x : α) : (heappush lt h x).Perm (x :: h) :=
  (siftdown_perm lt _ _ _ _).trans (List.perm_append_singleton x h)

theorem heappop_perm {h h' : List α} {x : α} (hp : heappop lt h = some (x, h')) :
    h.Perm (x :: h') := by
  match h, hp with
  | [y], hp =>
    cases hp
    exact List.Perm.refl _
  | a :: y :: ys, hp =>
    cases hp
    apply List.Perm.cons
    refine List.Perm.trans ?_ (siftup_perm lt _ _).symm
    -- the last item, taken off the end and put to the front
    have hlast : (y :: ys).dropLast ++ [ys.getLastD y] = y :: ys := by
      rw [← List.getLast_eq_getLastD]
      exact List.dropLast_append_getLast (List.cons_ne_nil y ys)
    calc y :: ys = (y :: ys).dropLast ++ [ys.getLastD y] := hlast.symm
      List.Perm _ (ys.getLastD y :: (y :: ys).dropLast) := List.perm_append_singleton _ _

theorem head?_of_heappop {h h' : List α} {x : α} (hp : heappop lt h = some (x, h')) :
    h.head? = some x := by
  match h, hp with
  | [_], hp =>
    cases hp
    rfl
  | _ :: _ :: _, hp =>
    cases hp
    rfl

theorem eq_nil_of_heappop {h : List α} (hp : heappop lt h = none) : h = [] := by
  match h, hp with
  | [], _ => rfl
  | [_], hp => cases hp
  | _ :: _ :: _, hp => cases hp

theorem heapify_perm (h : List α) : (heapify lt h).Perm h := by
  unfold heapify
  induction List.range (h.length / 2) with
  | nil => exact List.Perm.refl h
  | cons pos rest ih => exact (siftup_perm lt pos _).trans ih

theorem drain_perm {fuel : ℕ} {h : List α} (hf : h.length ≤ fuel) : (drain lt fuel h).Perm h := by
  induction fuel generalizing h with
  | zero =>
    rw [List.eq_nil_of_length_eq_zero (Nat.le_zero.mp hf)]
    exact List.Perm.refl []
  | succ fuel ih =>
    unfold drain
    split
    · rename_i hp
      rw [eq_nil_of_heappop lt hp]
    · rename_i x h' hp
      have hperm := heappop_perm lt hp
      have hlen : h'.length ≤ fuel := by
        have := hperm.length_eq
        rw [List.length_cons] at this
        omega
      exact ((ih hlen).cons x).trans hperm.symm

end Nvllm.Heapq
