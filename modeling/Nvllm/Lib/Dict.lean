import Mathlib.Data.List.Nodup
import Mathlib.Algebra.Order.BigOperators.Group.List
import Mathlib.Algebra.Order.Ring.Nat

/-! # Insertion-ordered dictionaries

A finite map as a list of entries with distinct keys. A new key goes to the end, a known key keeps
its place, so that the entries are in the order in which the keys were inserted first.
-/

namespace Nvllm

open List

structure Dict (κ ν : Type) where
  entries : List (κ × ν)
  nodup : (entries.map Prod.fst).Nodup
  deriving DecidableEq

namespace Dict

variable {κ ν : Type}

instance : EmptyCollection (Dict κ ν) := ⟨⟨[], nodup_nil⟩⟩

def keys (d : Dict κ ν) : List κ := d.entries.map Prod.fst

def values (d : Dict κ ν) : List ν := d.entries.map Prod.snd

variable [DecidableEq κ]

/-- Value of the first entry with key `k`. -/
def lookup (k : κ) : List (κ × ν) → Option ν
  | [] => none
  | e :: es => if e.1 = k then some e.2 else lookup k es

def get? (d : Dict κ ν) (k : κ) : Option ν := lookup k d.entries

def contains (d : Dict κ ν) (k : κ) : Bool := (d.get? k).isSome

def getD (d : Dict κ ν) (k : κ) (v : ν) : ν := (d.get? k).getD v

/-- `d[k] = v` on the entries. -/
def put (k : κ) (v : ν) : List (κ × ν) → List (κ × ν)
  | [] => [(k, v)]
  | e :: es => if e.1 = k then (k, v) :: es else e :: put k v es

variable {es : List (κ × ν)} {k k' : κ} {v : ν} {d : Dict κ ν}

theorem filter_ne (h : k ∉ es.map Prod.fst) : (es.filter fun e => e.1 ≠ k) = es := by
  refine filter_eq_self.mpr fun e he => ?_
  have hne : e.1 ≠ k := fun h' => h (h' ▸ mem_map_of_mem he)
  simpa using hne

/-- The entry and the others. -/
theorem perm_put (h : (es.map Prod.fst).Nodup) :
    (put k v es).Perm ((k, v) :: es.filter fun e => e.1 ≠ k) := by
  induction es with
  | nil => exact .refl _
  | cons e es ih =>
    rw [map_cons, nodup_cons] at h
    by_cases hk : e.1 = k
    · rw [put, if_pos hk, filter_cons_of_neg (by simp [hk]), filter_ne (hk ▸ h.1)]
    · rw [put, if_neg hk, filter_cons_of_pos (by simpa using hk)]
      exact ((ih h.2).cons e).trans (.swap ..)

theorem nodup_put (h : (es.map Prod.fst).Nodup) : ((put k v es).map Prod.fst).Nodup := by
  rw [((perm_put h).map Prod.fst).nodup_iff, map_cons, nodup_cons]
  exact ⟨by simp, (filter_sublist.map Prod.fst).nodup h⟩

/-- `d[k] = v`. -/
def set (d : Dict κ ν) (k : κ) (v : ν) : Dict κ ν := ⟨put k v d.entries, nodup_put d.nodup⟩

/-- `d.pop(k, None)` without the value. -/
def erase (d : Dict κ ν) (k : κ) : Dict κ ν :=
  ⟨d.entries.filter fun e => e.1 ≠ k, (filter_sublist.map Prod.fst).nodup d.nodup⟩

/-! ## Lookup -/

theorem lookup_eq_none_iff :
    lookup k es = none ↔ k ∉ es.map Prod.fst := by
  induction es with
  | nil => simp [lookup]
  | cons e es ih =>
    rw [map_cons, mem_cons, not_or, lookup]
    by_cases he : e.1 = k
    · simp [he]
    · simp only [if_neg he, ih, Ne.symm he, not_false_eq_true, true_and]

theorem lookup_eq_none (h : k ∉ es.map Prod.fst) : lookup k es = none :=
  lookup_eq_none_iff.mpr h

/-- With distinct keys, an entry is found. -/
theorem lookup_eq_some_iff (h : (es.map Prod.fst).Nodup) :
    lookup k es = some v ↔ (k, v) ∈ es := by
  induction es with
  | nil => simp [lookup]
  | cons e es ih =>
    rw [map_cons, nodup_cons] at h
    by_cases he : e.1 = k
    · have hnot : (k, v) ∉ es := fun hmem => h.1 (he ▸ mem_map_of_mem hmem)
      rw [lookup, if_pos he, mem_cons, or_iff_left hnot, ← he]
      simp [Prod.ext_iff, eq_comm]
    · have hne : (k, v) ≠ e := fun heq => he (heq ▸ rfl)
      rw [lookup, if_neg he, ih h.2, mem_cons, or_iff_right hne]

theorem get?_eq_some_iff : d.get? k = some v ↔ (k, v) ∈ d.entries := lookup_eq_some_iff d.nodup

theorem mem_of_get? (h : d.get? k = some v) : (k, v) ∈ d.entries := get?_eq_some_iff.mp h

theorem get?_of_mem (h : (k, v) ∈ d.entries) : d.get? k = some v := get?_eq_some_iff.mpr h

@[simp, grind =] theorem get?_empty (k : κ) : (∅ : Dict κ ν).get? k = none := rfl

@[grind =] theorem get?_set (d : Dict κ ν) (k k' : κ) (v : ν) :
    (d.set k v).get? k' = if k' = k then some v else d.get? k' := by
  refine Option.ext fun w => ?_
  rw [get?_eq_some_iff, set, (perm_put d.nodup).mem_iff]
  by_cases h : k' = k
  · simp [h, eq_comm]
  · simp [h, get?_eq_some_iff]

@[simp] theorem get?_set_self (d : Dict κ ν) (k : κ) (v : ν) : (d.set k v).get? k = some v := by
  rw [get?_set, if_pos rfl]

theorem get?_set_of_ne (d : Dict κ ν) (v : ν) (h : k' ≠ k) : (d.set k v).get? k' = d.get? k' := by
  rw [get?_set, if_neg h]

@[grind =] theorem get?_erase (d : Dict κ ν) (k k' : κ) :
    (d.erase k).get? k' = if k' = k then none else d.get? k' := by
  refine Option.ext fun w => ?_
  rw [get?_eq_some_iff]
  by_cases h : k' = k <;> simp [erase, h, get?_eq_some_iff]

@[simp] theorem get?_erase_self (d : Dict κ ν) (k : κ) : (d.erase k).get? k = none := by
  rw [get?_erase, if_pos rfl]

theorem get?_erase_of_ne (d : Dict κ ν) (h : k' ≠ k) : (d.erase k).get? k' = d.get? k' := by
  rw [get?_erase, if_neg h]

theorem get?_of_erase {d : Dict κ ν} (h : (d.erase k).get? k' = some v) : d.get? k' = some v := by
  rw [get?_erase] at h
  split at h
  · cases h
  · exact h

theorem put_put {w : ν} : put k w (put k v es) = put k w es := by
  induction es with
  | nil => simp [put]
  | cons e es ih =>
    by_cases hk : e.1 = k
    · simp [put, hk]
    · simp [put, hk, ih]

theorem set_set (d : Dict κ ν) (k : κ) (v w : ν) : (d.set k v).set k w = d.set k w := by
  simp only [set, put_put]

/-! ## The order of the entries -/

theorem put_of_not_mem (h : k ∉ es.map Prod.fst) : put k v es = es ++ [(k, v)] := by
  induction es with
  | nil => rfl
  | cons e es ih =>
    rw [map_cons, mem_cons, not_or] at h
    rw [put, if_neg (Ne.symm h.1), ih h.2, cons_append]

theorem not_mem_keys_of_get? (h : d.get? k = none) : k ∉ d.keys :=
  lookup_eq_none_iff.mp h

@[grind =] theorem mem_keys_iff : k ∈ d.keys ↔ (d.get? k).isSome := by
  constructor
  · intro hk
    obtain ⟨⟨k', v⟩, hmem, rfl⟩ := mem_map.mp hk
    rw [get?_of_mem hmem]
    rfl
  · intro hs
    by_contra hk
    rw [show d.get? k = none from lookup_eq_none hk] at hs
    cases hs

theorem keys_put_of_mem (h : k ∈ es.map Prod.fst) :
    (put k v es).map Prod.fst = es.map Prod.fst := by
  induction es with
  | nil => cases h
  | cons e es ih =>
    by_cases hk : e.1 = k
    · rw [put, if_pos hk, map_cons, map_cons, hk]
    · have hmem : k ∈ es.map Prod.fst := by
        rcases mem_cons.mp h with h | h
        · exact absurd h.symm hk
        · exact h
      rw [put, if_neg hk, map_cons, ih hmem, map_cons]

/-- A known key keeps its place. -/
theorem keys_set_of_known {w : ν} (v : ν) (h : d.get? k = some w) : (d.set k v).keys = d.keys :=
  keys_put_of_mem (mem_map_of_mem (mem_of_get? h))

/-- A new key goes to the end. -/
theorem entries_set_of_new (v : ν) (h : d.get? k = none) :
    (d.set k v).entries = d.entries ++ [(k, v)] := put_of_not_mem (not_mem_keys_of_get? h)

theorem put_of_lookup (h : lookup k es = some v) : put k v es = es := by
  induction es with
  | nil => cases h
  | cons e es ih =>
    by_cases hk : e.1 = k
    · rw [lookup, if_pos hk] at h
      rw [put, if_pos hk, ← hk, ← Option.some.inj h]
    · rw [lookup, if_neg hk] at h
      rw [put, if_neg hk, ih h]

/-- An entry and the others. -/
theorem perm_erase (h : d.get? k = some v) : d.entries.Perm ((k, v) :: (d.erase k).entries) := by
  have hput := perm_put (k := k) (v := v) d.nodup
  rwa [put_of_lookup h] at hput

/-- Several entries and the others. -/
theorem perm_foldl_erase (hes : ∀ e ∈ es, e ∈ d.entries) (hnd : (es.map Prod.fst).Nodup) :
    d.entries.Perm (es ++ ((es.map Prod.fst).foldl erase d).entries) := by
  induction es generalizing d with
  | nil => exact .refl _
  | cons e es ih =>
    rw [map_cons, nodup_cons] at hnd
    have hrest : ∀ e' ∈ es, e' ∈ (d.erase e.1).entries := by
      intro e' he'
      have hne : e'.1 ≠ e.1 := fun h => hnd.1 (h ▸ mem_map_of_mem he')
      exact mem_filter.mpr ⟨hes e' (mem_cons_of_mem _ he'), by simpa using hne⟩
    exact (perm_erase (get?_of_mem (hes e mem_cons_self))).trans ((ih hrest hnd.2).cons e)

/-- Another value for a known key. -/
theorem perm_set (v : ν) : (d.set k v).entries.Perm ((k, v) :: (d.erase k).entries) :=
  perm_put d.nodup

/-- Lookup does not depend on the order of entries with distinct keys. -/
theorem lookup_perm {es' : List (κ × ν)} (h : es.Perm es') (hnd : (es.map Prod.fst).Nodup)
    (k : κ) : lookup k es = lookup k es' := by
  refine Option.ext fun v => ?_
  rw [lookup_eq_some_iff hnd, lookup_eq_some_iff ((h.map Prod.fst).nodup_iff.mp hnd), h.mem_iff]

theorem lookup_append {es' : List (κ × ν)} :
    lookup k (es ++ es') = (lookup k es).or (lookup k es') := by
  induction es with
  | nil => rfl
  | cons e es ih =>
    by_cases hk : e.1 = k
    · rw [cons_append, lookup, if_pos hk, lookup, if_pos hk, Option.some_or]
    · rw [cons_append, lookup, if_neg hk, lookup, if_neg hk, ih]

/-- `move_to_end`, for a key that is there. -/
def moveToEnd (d : Dict κ ν) (k : κ) : Dict κ ν :=
  match d.get? k with
  | none => d
  | some v => (d.erase k).set k v

theorem perm_moveToEnd (d : Dict κ ν) (k : κ) : (d.moveToEnd k).entries.Perm d.entries := by
  rw [moveToEnd]
  split
  · exact .refl _
  · rename_i v h
    rw [entries_set_of_new v (get?_erase_self d k)]
    exact (perm_append_singleton _ _).trans (perm_erase h).symm

omit [DecidableEq κ] in
/-- `popitem(last=False)`, several times. -/
def dropFirst (d : Dict κ ν) (n : ℕ) : Dict κ ν :=
  ⟨d.entries.drop n, ((drop_sublist n _).map Prod.fst).nodup d.nodup⟩

/-! ## Sums over the entries -/

omit [DecidableEq κ] in
/-- Sum of a measure over the entries. -/
def weight (w : κ × ν → ℕ) (d : Dict κ ν) : ℕ := (d.entries.map w).sum

/-- `d'` has `o` at `k` and is `d` elsewhere. -/
structure Changed (d d' : Dict κ ν) (k : κ) (o : Option ν) : Prop where
  get? : ∀ k', d'.get? k' = if k' = k then o else d.get? k'
  weight : ∀ w : κ × ν → ℕ, d'.weight w + (d.get? k).elim 0 (fun v => w (k, v)) =
    d.weight w + o.elim 0 fun v => w (k, v)

theorem changed_same {o : Option ν} (h : d.get? k = o) : d.Changed d k o where
  get? k' := by
    split
    · rename_i hk
      rw [hk, h]
    · rfl
  weight w := by rw [h]

theorem changed_erase (d : Dict κ ν) (k : κ) : d.Changed (d.erase k) k none where
  get? := get?_erase d k
  weight w := by
    cases h : d.get? k with
    | none =>
      have hsame : (d.erase k).entries = d.entries := filter_ne (not_mem_keys_of_get? h)
      rw [Dict.weight, hsame]
      rfl
    | some v =>
      have hsum := ((perm_erase h).map w).sum_eq
      simp only [map_cons, sum_cons] at hsum
      simp only [Dict.weight, Option.elim_some, Option.elim_none]
      omega

theorem changed_set (d : Dict κ ν) (k : κ) (v : ν) : d.Changed (d.set k v) k (some v) where
  get? k' := get?_set d k k' v
  weight w := by
    have hsum := ((perm_set (d := d) (k := k) v).map w).sum_eq
    have herase := (changed_erase d k).weight w
    simp only [map_cons, sum_cons] at hsum
    simp only [Dict.weight, Option.elim_none, Option.elim_some] at herase ⊢
    omega

omit [DecidableEq κ] in
/-- Sum of a measure over the values. -/
def sumBy (f : ν → ℕ) (d : Dict κ ν) : ℕ := (d.entries.map fun e => f e.2).sum

theorem sumBy_erase (f : ν → ℕ) (d : Dict κ ν) (k : κ) :
    (d.erase k).sumBy f + (d.get? k).elim 0 f = d.sumBy f :=
  (changed_erase d k).weight fun e => f e.2

theorem sumBy_set (f : ν → ℕ) (d : Dict κ ν) (k : κ) (v : ν) :
    (d.set k v).sumBy f + (d.get? k).elim 0 f = d.sumBy f + f v :=
  (changed_set d k v).weight fun e => f e.2

end Dict

end Nvllm
