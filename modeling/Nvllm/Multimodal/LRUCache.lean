import Nvllm.Lib.Dict
import Nvllm.Lib.Recency

/-! # The LRU cache of multi-modal items

`LRUCache` of `vllm/utils/cache.py` on top of `cachetools`, and the way in which both the sender
cache of P0 and the receiver cache of P1 handle the items of a request: every key is touched first,
then `get_and_update_item` is called for each item.

* `touch` also enters keys that are not stored.
* `popitem` pops the first unpinned key of the order. For a key that is not stored `pop` does
  nothing, so the loop of `__setitem__` may go on forever: `makeRoom` and what calls it are `none`
  then (`makeRoom_eq_none`).
* An exception leaves the cache as it is at that moment, and the next request finds it so.
-/

namespace Nvllm.Multimodal

open Recency

structure LRUCache (K V : Type) where
  maxsize : ℚ≥0
  data : Dict K V
  currsize : ℕ
  order : List K
  pinnedItems : List K
  deriving DecidableEq

namespace LRUCache

variable {K V : Type} [DecidableEq K] (getsizeof : V → ℕ)

/-- `LRUCache(capacity)`. -/
def new (capacity : ℚ≥0) : LRUCache K V := ⟨capacity, ∅, 0, [], []⟩

def touch (k : K) (c : LRUCache K V) : LRUCache K V := { c with order := Recency.touch k c.order }

/-- `__delitem__` of a stored key. That it reads the item first has no effect: the key leaves the
order. -/
def delitem (k : K) (v : V) (c : LRUCache K V) : LRUCache K V :=
  { c with
    data := c.data.erase k
    currsize := c.currsize - getsizeof v
    order := c.order.erase k
    pinnedItems := c.pinnedItems.erase k }

def pop (k : K) (c : LRUCache K V) : LRUCache K V :=
  match c.data.get? k with
  | none => c
  | some v => c.delitem getsizeof k v

/-- First key of the order that is not pinned. -/
def lruKey (c : LRUCache K V) : Option K := c.order.find? fun k => k ∉ c.pinnedItems

/-- `popitem`; `none` is its `RuntimeError`. -/
def popitem (c : LRUCache K V) : Option (LRUCache K V) :=
  c.lruKey.map fun k => c.pop getsizeof k

/-- `while currsize + size > maxsize: popitem()`. The flag says whether the loop ended without an
exception. -/
def makeRoom (size : ℕ) : ℕ → LRUCache K V → Option (Bool × LRUCache K V)
  | 0, _ => none
  | n + 1, c =>
    if ((c.currsize + size : ℕ) : ℚ≥0) ≤ c.maxsize then some (true, c)
    else
      match c.popitem getsizeof with
      | none => some (false, c)
      | some c' => makeRoom size n c'

/-- The caches at which that loop calls `popitem`. -/
def popitems (size : ℕ) : ℕ → LRUCache K V → List (LRUCache K V)
  | 0, _ => []
  | n + 1, c =>
    if ((c.currsize + size : ℕ) : ℚ≥0) ≤ c.maxsize then []
    else
      c :: match c.popitem getsizeof with
        | none => []
        | some c' => popitems size n c'

/-- Passes of the loop after which it does not end any more. -/
def fuel (c : LRUCache K V) : ℕ := c.order.length + 1

/-- The last part of `__setitem__`: the value is stored and its key is the last one used. -/
def store (k : K) (v : V) (c : LRUCache K V) : LRUCache K V :=
  { c with
    data := c.data.set k v
    currsize := c.currsize + getsizeof v - (c.data.get? k).elim 0 getsizeof
    order := Recency.touch k c.order }

/-- `__setitem__`. The flag is `false` if it raises. -/
def setitem (k : K) (v : V) (c : LRUCache K V) : Option (Bool × LRUCache K V) :=
  if c.maxsize < (getsizeof v : ℚ≥0) then some (false, c)
  else if (c.data.get? k).any fun w => decide (getsizeof v ≤ getsizeof w) then
    some (true, c.store getsizeof k v)
  else
    (c.makeRoom getsizeof (getsizeof v) c.fuel).map fun r =>
      if r.1 then (true, r.2.store getsizeof k v) else r

/-- The caches at which `__setitem__` calls `popitem`. -/
def setitemPops (k : K) (v : V) (c : LRUCache K V) : List (LRUCache K V) :=
  if c.maxsize < (getsizeof v : ℚ≥0) then []
  else if (c.data.get? k).any fun w => decide (getsizeof v ≤ getsizeof w) then []
  else c.popitems getsizeof (getsizeof v) c.fuel

/-- An item of a request: its cache key, and its value unless it is expected to be cached. -/
abbrev Item (K V : Type) := K × Option V

def keys (req : List (Item K V)) : List K := req.map Prod.fst

/-- `get_and_update_item`: the cached item, or `none` after an insertion. The whole is `none` if
it raises. -/
def getAndUpdateItem (item : Item K V) (c : LRUCache K V) :
    Option (Option (Option V) × LRUCache K V) :=
  match c.data.get? item.1 with
  | some v => some (some (some v), c.touch item.1)
  | none =>
    match item.2 with
    | none => some (none, c)  -- "Expected a cached item"
    | some v => (c.setitem getsizeof item.1 v).map fun r =>
      (if r.1 then some none else none, r.2)

def getAndUpdatePops (item : Item K V) (c : LRUCache K V) : List (LRUCache K V) :=
  match c.data.get? item.1, item.2 with
  | none, some v => c.setitemPops getsizeof item.1 v
  | _, _ => []

/-- `get_and_update_item` for each item, up to the first one that raises. -/
def updateItems : List (Item K V) → LRUCache K V →
    Option (Option (List (Option V)) × LRUCache K V)
  | [], c => some (some [], c)
  | item :: req, c =>
    (c.getAndUpdateItem getsizeof item).bind fun r =>
      match r.1 with
      | none => some (none, r.2)
      | some cached => (updateItems req r.2).map fun r' => (r'.1.map (cached :: ·), r'.2)

def updatePops : List (Item K V) → LRUCache K V → List (LRUCache K V)
  | [], _ => []
  | item :: req, c =>
    c.getAndUpdatePops getsizeof item ++
      match c.getAndUpdateItem getsizeof item with
      | some (some _, c') => updatePops req c'
      | _ => []

/-- Every key of the request is touched before the first update. -/
def touchItems (ks : List K) (c : LRUCache K V) : LRUCache K V := ks.foldl (fun c k => c.touch k) c

/-- One request: the cached items (`none` if the handling raises) and the cache after it. -/
def handle (req : List (Item K V)) (c : LRUCache K V) :
    Option (Option (List (Option V)) × LRUCache K V) :=
  (c.touchItems (keys req)).updateItems getsizeof req

/-- The caches at which the handling of a request calls `popitem`. -/
def handlePops (req : List (Item K V)) (c : LRUCache K V) : List (LRUCache K V) :=
  (c.touchItems (keys req)).updatePops getsizeof req

def step (c : LRUCache K V) (req : List (Item K V)) : Option (LRUCache K V) :=
  (c.handle getsizeof req).map Prod.snd

/-! ## The loop that does not end -/

variable {getsizeof}

theorem popitem_of_stored {c : LRUCache K V} {k : K} {v : V} (hk : c.lruKey = some k)
    (hv : c.data.get? k = some v) : c.popitem getsizeof = some (c.delitem getsizeof k v) := by
  rw [popitem, hk, Option.map_some, pop, hv]

theorem popitem_of_missing {c : LRUCache K V} {k : K} (hk : c.lruKey = some k)
    (hv : c.data.get? k = none) : c.popitem getsizeof = some c := by
  rw [popitem, hk, Option.map_some, pop, hv]

/-- A loop that is still running after more passes than there are keys has met a key that is not
stored, and runs forever. -/
theorem makeRoom_eq_none {size : ℕ} {n : ℕ} {c : LRUCache K V}
    (h : c.makeRoom getsizeof size n = none) (hn : c.order.length < n) (m : ℕ) :
    c.makeRoom getsizeof size m = none := by
  induction n generalizing c m with
  | zero => omega
  | succ n ih =>
    rw [makeRoom] at h
    split at h
    · cases h
    · rename_i hfull
      cases hk : c.lruKey with
      | none =>
        rw [popitem, hk] at h
        cases h
      | some k =>
        cases hv : c.data.get? k with
        | none =>
          -- the pass changes nothing, so every later one is like it
          induction m with
          | zero => rfl
          | succ m ihm =>
            rw [makeRoom, if_neg hfull, popitem_of_missing hk hv]
            exact ihm
        | some v =>
          rw [popitem_of_stored hk hv] at h
          have hmem : k ∈ c.order := List.mem_of_find?_eq_some hk
          have hlen := List.length_erase_of_mem hmem
          have hpos := List.length_pos_of_mem hmem
          have hlt : (c.delitem getsizeof k v).order.length < n := by
            show (c.order.erase k).length < n
            omega
          cases m with
          | zero => rfl
          | succ m =>
            rw [makeRoom, if_neg hfull, popitem_of_stored hk hv]
            exact ih h hlt m

end LRUCache

end Nvllm.Multimodal
