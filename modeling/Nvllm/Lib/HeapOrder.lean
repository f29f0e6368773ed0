import Mathlib.Data.List.Basic
import Nvllm.Lib.Heapq

/-! # The order of a heap

`IsHeap lt h` says that no item of the list `h` is before its parent. Then none is before the first
one (`IsHeap.not_lt_head`). For a strict weak order the operations of `Heapq` keep heaps, and
`heapify` makes one.

Both loops move one item, whose position `q` is a hole in the order: `Hole` leaves out the pairs at
`q`, and `UpHole` only that of `q` and its parent. `HeapFrom pos` is the order of the items whose
parents are at `pos` or after it.
-/

namespace Nvllm.Heapq

open List

variable {α : Type} {lt lt' : α → α → Bool} {h : List α}

/-- A strict weak order. -/
structure StrictWeak (lt : α → α → Bool) : Prop where
  asymm : ∀ a b, lt a b = true → lt b a = false
  negTrans : ∀ a b c, lt a b = false → lt b c = false → lt a c = false

theorem StrictWeak.irrefl (hlt : StrictWeak lt) (a : α) : lt a a = false := by
  by_contra hcon
  exact hcon (hlt.asymm a a (by simpa using hcon))

/-- The item at `i` is not before the one at `j`. -/
def NotBefore (lt : α → α → Bool) (h : List α) (i j : ℕ) : Prop :=
  ∀ x y, h[i]? = some x → h[j]? = some y → lt x y = false

def HeapFrom (lt : α → α → Bool) (pos : ℕ) (h : List α) : Prop :=
  ∀ i, 0 < i → pos ≤ (i - 1) / 2 → NotBefore lt h i ((i - 1) / 2)

def IsHeap (lt : α → α → Bool) (h : List α) : Prop := HeapFrom lt 0 h

theorem isHeap_iff : IsHeap lt h ↔ ∀ i < h.length, 0 < i → ∀ x ∈ h[i]?, ∀ y ∈ h[(i - 1) / 2]?,
    lt x y = false := by
  constructor
  · intro hh i _ hi x hx y hy
    exact hh i hi (Nat.zero_le _) x y hx hy
  · intro hh i hi _ x y hx hy
    exact hh i (List.getElem?_eq_some_iff.mp hx).1 hi x hx y hy

instance (lt : α → α → Bool) (h : List α) : Decidable (IsHeap lt h) :=
  decidable_of_iff' _ isHeap_iff

variable {y x : α} {pos q : ℕ}

theorem NotBefore.trans (hlt : StrictWeak lt) {i j k : ℕ} (hj : h[j]? = some y)
    (hij : NotBefore lt h i j) (hjk : NotBefore lt h j k) : NotBefore lt h i k :=
  fun x z hx hz => hlt.negTrans x y z (hij x y hx hj) (hjk y z hj hz)

/-- Only the comparisons of items of the list count. -/
theorem HeapFrom.congr (hh : HeapFrom lt pos h)
    (heq : ∀ x ∈ h, ∀ y ∈ h, lt' x y = lt x y) : HeapFrom lt' pos h := by
  intro i hi hpos x y hx hy
  rw [heq x (mem_of_getElem? hx) y (mem_of_getElem? hy)]
  exact hh i hi hpos x y hx hy

theorem isHeap_nil (lt : α → α → Bool) : IsHeap lt [] := fun _ _ _ _ _ hx => by cases hx

/-- No item is before the first one. -/
theorem IsHeap.notBefore_zero (hlt : StrictWeak lt) (hh : IsHeap lt h) (i : ℕ) :
    NotBefore lt h i 0 := by
  induction i using Nat.strongRecOn with
  | _ i ih =>
    intro x y hx hy
    by_cases hi : i = 0
    · rw [hi, hy] at hx
      cases hx
      exact hlt.irrefl _
    · have hlen : i < h.length := (List.getElem?_eq_some_iff.mp hx).1
      have hparent : (i - 1) / 2 < i := by omega
      have hp : h[(i - 1) / 2]? = some (h.get ⟨(i - 1) / 2, by omega⟩) :=
        getElem?_eq_getElem (by omega)
      exact (hh i (by omega) (Nat.zero_le _)).trans hlt hp (ih _ hparent) x y hx hy

theorem IsHeap.not_lt_head (hlt : StrictWeak lt) (hh : IsHeap lt h) (hx : h.head? = some x)
    (hy : y ∈ h) : lt y x = false := by
  obtain ⟨i, hi⟩ := mem_iff_getElem?.mp hy
  rw [head?_eq_getElem?] at hx
  exact hh.notBefore_zero hlt i y x hi hx

/-! ## Exchanges -/

theorem getElem?_swap {i j : ℕ} (hx : h[i]? = some x) (hy : h[j]? = some y) (k : ℕ) :
    (swap h i j)[k]? = if k = j then some x else if k = i then some y else h[k]? := by
  obtain ⟨hi, -⟩ := List.getElem?_eq_some_iff.mp hx
  obtain ⟨hj, -⟩ := List.getElem?_eq_some_iff.mp hy
  unfold swap
  rw [hx, hy]
  by_cases hkj : k = j
  · rw [if_pos hkj, hkj, getElem?_set_self (by simpa using hj)]
  · rw [if_neg hkj, getElem?_set_ne (Ne.symm hkj)]
    by_cases hki : k = i
    · rw [if_pos hki, hki, getElem?_set_self hi]
    · rw [if_neg hki, getElem?_set_ne (Ne.symm hki)]

/-! ## Holes -/

/-- The order apart from the pairs at `q`; the children of `q` are in order with its parent. -/
structure Hole (lt : α → α → Bool) (pos : ℕ) (h : List α) (q : ℕ) : Prop where
  except : ∀ i, 0 < i → pos ≤ (i - 1) / 2 → i ≠ q → (i - 1) / 2 ≠ q →
    NotBefore lt h i ((i - 1) / 2)
  grand : 0 < q → pos ≤ (q - 1) / 2 → ∀ c, 0 < c → (c - 1) / 2 = q →
    NotBefore lt h c ((q - 1) / 2)

/-- The order apart from the pair of `q` and its parent. -/
structure UpHole (lt : α → α → Bool) (pos : ℕ) (h : List α) (q : ℕ) : Prop
    extends Hole lt pos h q where
  below : ∀ c, 0 < c → (c - 1) / 2 = q → NotBefore lt h c q

/-- `q` is `pos` or comes from it by going to children. -/
inductive Under (pos : ℕ) : ℕ → Prop
  | refl : Under pos pos
  | child {c : ℕ} : 0 < c → Under pos ((c - 1) / 2) → Under pos c

theorem Under.le (hu : Under pos q) : pos ≤ q := by
  induction hu with
  | refl => exact Nat.le_refl _
  | child hc _ ih => omega

theorem Under.parent (hu : Under pos q) (hq : pos < q) : Under pos ((q - 1) / 2) := by
  cases hu with
  | refl => exact absurd hq (Nat.lt_irrefl _)
  | child _ hu => exact hu

theorem under_zero (q : ℕ) : Under 0 q := by
  induction q using Nat.strongRecOn with
  | _ q ih =>
    by_cases hq : q = 0
    · rw [hq]
      exact .refl
    · exact .child (by omega) (ih _ (by omega))

/-- The hole is closed. -/
theorem UpHole.heapFrom (hole : UpHole lt pos h q)
    (hq : 0 < q → pos ≤ (q - 1) / 2 → NotBefore lt h q ((q - 1) / 2)) : HeapFrom lt pos h := by
  intro i hi hpos
  by_cases hiq : i = q
  · rw [hiq] at hi hpos ⊢
    exact hq hi hpos
  · by_cases hpq : (i - 1) / 2 = q
    · rw [hpq]
      exact hole.below i hi hpq
    · exact hole.except i hi hpos hiq hpq

/-- The item in the hole is before its parent and changes places with it. -/
theorem UpHole.up (hlt : StrictWeak lt) (hole : UpHole lt pos h q) (hq : 0 < q)
    (hpos : pos ≤ (q - 1) / 2) (hx : h[q]? = some x) (hy : h[(q - 1) / 2]? = some y)
    (hxy : lt x y = true) : UpHole lt pos (swap h q ((q - 1) / 2)) ((q - 1) / 2) := by
  have hswap := getElem?_swap hx hy
  set p := (q - 1) / 2 with hp
  have hyx : lt y x = false := hlt.asymm x y hxy
  -- what is at a position that the exchange does not touch
  have hother : ∀ k, k ≠ p → k ≠ q → (swap h q p)[k]? = h[k]? := by
    intro k hkp hkq
    rw [hswap, if_neg hkp, if_neg hkq]
  have hatq : (swap h q p)[q]? = some y := by rw [hswap, if_neg (by omega), if_pos rfl]
  have hatp : (swap h q p)[p]? = some x := by rw [hswap, if_pos rfl]
  have hsibling : ∀ c, 0 < c → (c - 1) / 2 = p → c ≠ q → NotBefore lt h c p := by
    intro c hc hcp hcq
    have := hole.except c hc (by omega) hcq (by omega)
    rwa [hcp] at this
  refine ⟨⟨fun i hi hpi hip hpp => ?_, fun hp0 hpp c hc hcp => ?_⟩, fun c hc hcp => ?_⟩
  · have hiq : i ≠ q := fun heq => hpp (heq ▸ rfl)
    intro a b ha hb
    rw [hother i hip hiq] at ha
    by_cases hparent : (i - 1) / 2 = q
    · rw [hparent, hatq] at hb
      cases hb
      exact hole.grand hq hpos i hi hparent a y ha hy
    · rw [hother _ hpp hparent] at hb
      exact hole.except i hi hpi hiq hparent a b ha hb
  · have htop : NotBefore lt h p ((p - 1) / 2) := hole.except p hp0 hpp (by omega) (by omega)
    intro a b ha hb
    rw [hother _ (by omega) (by omega)] at hb
    by_cases hcq : c = q
    · rw [hcq, hatq] at ha
      cases ha
      exact htop y b hy hb
    · rw [hother c (by omega) hcq] at ha
      exact (hsibling c hc hcp hcq).trans hlt hy htop a b ha hb
  · intro a b ha hb
    rw [hatp] at hb
    cases hb
    by_cases hcq : c = q
    · rw [hcq, hatq] at ha
      cases ha
      exact hyx
    · rw [hother c (by omega) hcq] at ha
      exact hlt.negTrans a y x (hsibling c hc hcp hcq a y ha hy) hyx

theorem siftdown_heapFrom (hlt : StrictWeak lt) {fuel : ℕ} (hu : Under pos q) (hfuel : q ≤ fuel)
    (hole : UpHole lt pos h q) : HeapFrom lt pos (siftdown lt pos fuel q h) := by
  induction fuel generalizing q h with
  | zero =>
    refine hole.heapFrom fun hq _ => ?_
    omega
  | succ fuel ih =>
    unfold siftdown
    split
    · refine hole.heapFrom fun hq hpos => ?_
      omega
    · have hpos : pos ≤ (q - 1) / 2 := (hu.parent (by omega)).le
      split
      · rename_i x y hx hy
        split
        · rename_i hxy
          exact ih (hu.parent (by omega)) (by omega) (hole.up hlt (by omega) hpos hx hy hxy)
        · rename_i hxy
          refine hole.heapFrom fun _ _ a b ha hb => ?_
          rw [hx] at ha
          rw [hy] at hb
          cases ha
          cases hb
          simpa using hxy
      · rename_i hnone
        exact hole.heapFrom fun _ _ a b ha hb => absurd hb (hnone a b ha)

/-! ## Going down -/

theorem smallerChild_spec (hlt : StrictWeak lt) {c : ℕ} (hc : smallerChild lt q h = some c) :
    0 < c ∧ (c - 1) / 2 = q ∧ (∃ y, h[c]? = some y) ∧
      ∀ d, 0 < d → (d - 1) / 2 = q → NotBefore lt h d c := by
  have hchild : ∀ d, 0 < d → (d - 1) / 2 = q → d = 2 * q + 1 ∨ d = 2 * q + 2 := by
    omega
  unfold smallerChild at hc
  split at hc
  · cases hc
  · rename_i l hl hr
    cases hc
    refine ⟨by omega, by omega, ⟨l, hl⟩, fun d hd hdq a b ha hb => ?_⟩
    rcases hchild d hd hdq with rfl | rfl
    · rw [ha] at hb
      cases hb
      exact hlt.irrefl a
    · rw [hr] at ha
      cases ha
  · rename_i l r hl hr
    cases hc
    split
    · rename_i hlr
      refine ⟨by omega, by omega, ⟨l, hl⟩, fun d hd hdq a b ha hb => ?_⟩
      rw [hl] at hb
      cases hb
      rcases hchild d hd hdq with rfl | rfl
      · rw [hl] at ha
        cases ha
        exact hlt.irrefl _
      · rw [hr] at ha
        cases ha
        exact hlt.asymm _ _ hlr
    · rename_i hlr
      refine ⟨by omega, by omega, ⟨r, hr⟩, fun d hd hdq a b ha hb => ?_⟩
      rw [hr] at hb
      cases hb
      rcases hchild d hd hdq with rfl | rfl
      · rw [hl] at ha
        cases ha
        simpa using hlr
      · rw [hr] at ha
        cases ha
        exact hlt.irrefl _

theorem smallerChild_none (hc : smallerChild lt q h = none) : h.length ≤ 2 * q + 1 := by
  unfold smallerChild at hc
  split at hc
  · rename_i hl
    exact getElem?_eq_none_iff.mp hl
  · cases hc
  · cases hc

/-- The item in the hole changes places with its smaller child. -/
theorem Hole.down {c : ℕ} (hole : Hole lt pos h q) (hpos : pos ≤ q) (hc : 0 < c)
    (hcq : (c - 1) / 2 = q) (hx : h[q]? = some x) (hy : h[c]? = some y)
    (hmin : ∀ d, 0 < d → (d - 1) / 2 = q → NotBefore lt h d c) : Hole lt pos (swap h q c) c := by
  have hswap := getElem?_swap hx hy
  have hother : ∀ k, k ≠ c → k ≠ q → (swap h q c)[k]? = h[k]? := by
    intro k hkc hkq
    rw [hswap, if_neg hkc, if_neg hkq]
  have hatq : (swap h q c)[q]? = some y := by rw [hswap, if_neg (by omega), if_pos rfl]
  refine ⟨fun i hi hpi hic hpc a b ha hb => ?_, fun _ _ d hd hdc a b ha hb => ?_⟩
  · by_cases hiq : i = q
    · rw [hiq, hatq] at ha
      cases ha
      rw [hother _ hpc (by omega), hiq] at hb
      exact hole.grand (by omega) (by omega) c hc hcq y b hy hb
    · rw [hother i hic hiq] at ha
      by_cases hparent : (i - 1) / 2 = q
      · rw [hparent, hatq] at hb
        cases hb
        exact hmin i hi hparent a y ha hy
      · rw [hother _ hpc hparent] at hb
        exact hole.except i hi hpi hiq hparent a b ha hb
  · rw [hcq, hatq] at hb
    cases hb
    rw [hother d (by omega) (by omega)] at ha
    have := hole.except d hd (by omega) (by omega) (by omega)
    rw [hdc] at this
    exact this a y ha hy

theorem toLeaf_upHole (hlt : StrictWeak lt) {fuel : ℕ} (hu : Under pos q)
    (hfuel : h.length ≤ q + fuel) (hole : Hole lt pos h q) :
    Under pos (toLeaf lt fuel q h).1 ∧
      UpHole lt pos (toLeaf lt fuel q h).2 (toLeaf lt fuel q h).1 := by
  -- a position without children
  have hleaf : h.length ≤ 2 * q + 1 → Under pos q ∧ UpHole lt pos h q := by
    refine fun hlen => ⟨hu, hole, fun c hc hcq a b ha _ => ?_⟩
    have := (List.getElem?_eq_some_iff.mp ha).1
    omega
  induction fuel generalizing q h with
  | zero => exact hleaf (by omega)
  | succ fuel ih =>
    unfold toLeaf
    split
    · rename_i hnone
      exact hleaf (smallerChild_none hnone)
    · rename_i c hc
      obtain ⟨hc0, hcq, ⟨y, hy⟩, hmin⟩ := smallerChild_spec hlt hc
      have hlen : c < h.length := (List.getElem?_eq_some_iff.mp hy).1
      have hx : h[q]? = some (h.get ⟨q, by omega⟩) := getElem?_eq_getElem (by omega)
      have hlen' : (swap h q c).length = h.length := (swap_perm h q c).length_eq
      have hu' : Under pos c := .child hc0 (hcq ▸ hu)
      have hole' := hole.down hu.le hc0 hcq hx hy hmin
      refine ih hu' (by omega) hole' fun hle => ⟨hu', hole', fun d hd hdc a b ha _ => ?_⟩
      have := (List.getElem?_eq_some_iff.mp ha).1
      omega

theorem siftup_heapFrom (hlt : StrictWeak lt) (hh : HeapFrom lt (pos + 1) h) :
    HeapFrom lt pos (siftup lt pos h) := by
  have hole : Hole lt pos h pos := by
    refine ⟨fun i hi hpi _ hne => hh i hi (by omega), fun hp hle => ?_⟩
    omega
  obtain ⟨hu, hup⟩ := toLeaf_upHole hlt .refl (Nat.le_add_left ..) hole
  exact siftdown_heapFrom hlt hu (Nat.le_refl _) hup

/-! ## The operations -/

theorem IsHeap.heappush (hlt : StrictWeak lt) (hh : IsHeap lt h) (x : α) :
    IsHeap lt (heappush lt h x) := by
  refine siftdown_heapFrom hlt (under_zero _) (Nat.le_refl _) ?_
  have hnone : ∀ c y, h.length < c → (h ++ [x])[c]? ≠ some y := by
    intro c y hc hy
    have := (List.getElem?_eq_some_iff.mp hy).1
    rw [length_append, length_singleton] at this
    omega
  refine ⟨⟨fun i hi _ hne hpe a b ha hb => ?_, fun _ _ c _ _ a b ha _ => ?_⟩,
    fun c _ _ a b ha _ => ?_⟩
  · have hlen : i < h.length := by
      by_contra hcon
      exact hnone i a (by omega) ha
    rw [getElem?_append_left hlen] at ha
    rw [getElem?_append_left (by omega)] at hb
    exact hh i hi (Nat.zero_le _) a b ha hb
  · exact absurd ha (hnone c a (by omega))
  · exact absurd ha (hnone c a (by omega))

theorem IsHeap.heappop (hlt : StrictWeak lt) (hh : IsHeap lt h) {h' : List α}
    (hp : heappop lt h = some (x, h')) : IsHeap lt h' := by
  match h, hp with
  | [_], hp =>
    cases hp
    exact isHeap_nil lt
  | x :: y :: ys, hp =>
    cases hp
    refine siftup_heapFrom hlt fun i hi hpi a b ha hb => ?_
    -- apart from the first place the items are where they were
    have hsame : ∀ k, 0 < k → ∀ z, (ys.getLastD y :: (y :: ys).dropLast)[k]? = some z →
        (x :: y :: ys)[k]? = some z := by
      intro k hk z hz
      obtain ⟨j, rfl⟩ : ∃ j, k = j + 1 := ⟨k - 1, by omega⟩
      rw [getElem?_cons_succ] at hz ⊢
      rw [getElem?_dropLast] at hz
      split at hz
      · exact hz
      · cases hz
    exact hh i hi (Nat.zero_le _) a b (hsame i hi a ha) (hsame _ (by omega) b hb)

theorem isHeap_heapify (hlt : StrictWeak lt) (h : List α) : IsHeap lt (heapify lt h) := by
  have hall : ∀ k (h : List α), HeapFrom lt k h →
      HeapFrom lt 0 ((List.range k).foldr (fun pos h => siftup lt pos h) h) := by
    intro k
    induction k with
    | zero => exact fun h hh => hh
    | succ k ih =>
      intro h hh
      rw [range_succ, foldr_append]
      exact ih _ (siftup_heapFrom hlt hh)
  refine hall _ h fun i hi hpi a b ha _ => ?_
  have := (List.getElem?_eq_some_iff.mp ha).1
  omega

theorem isHeap_foldl_heappush (hlt : StrictWeak lt) (xs : List α) (hh : IsHeap lt h) :
    IsHeap lt (xs.foldl (Heapq.heappush lt) h) := by
  induction xs generalizing h with
  | nil => exact hh
  | cons x xs ih => exact ih (hh.heappush hlt x)

end Nvllm.Heapq
