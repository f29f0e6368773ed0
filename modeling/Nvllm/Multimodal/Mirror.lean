import Mathlib.Data.List.Sort
import Nvllm.Lib.Run
import Nvllm.Multimodal.CacheRequest

/-! # The caches of P0 and P1

P0 keeps the sizes of the items that P1 has, in a cache with the same capacity. It handles the items
of a request by modality and sends only those that it has not cached; P1 handles them in the order
of their placeholders. `Pair.step` is one request: P0 handles it, then the input validation rejects
it or P1 handles what P0 has sent.
-/

namespace Nvllm.Multimodal

open LRUCache Recency Run List

variable {V : Type}

/-- An item of a request: its hash, its data (if the request brings them) and the offset of its
placeholder. -/
structure MMItem (V : Type) where
  hash : String
  data : Option V
  offset : ℕ
  deriving DecidableEq

/-- The items by modality, and the name of the adapter if there is one and
`enable_tower_connector_lora` is set. -/
structure MMRequest (V : Type) where
  modalities : List (List (MMItem V))
  loraName : Option String
  deriving DecidableEq

namespace MMRequest

def items (r : MMRequest V) : List (MMItem V) := r.modalities.flatten

def hashes (r : MMRequest V) : List String := r.items.map MMItem.hash

/-- `argsort_mm_positions`, with the place among all items for the pair of modality and index. The
sort is stable. -/
def argsortMmPositions (r : MMRequest V) : List ℕ :=
  (r.items.zipIdx.insertionSort fun a b => a.1.offset ≤ b.1.offset).map Prod.snd

/-- `_get_mm_identifier`. -/
def getMmIdentifier (r : MMRequest V) (mmHash : String) : String :=
  match r.loraName with
  | none => mmHash
  | some name => name ++ ":" ++ mmHash

/-- `feature.mm_hash or feature.identifier`. -/
def cacheKey (r : MMRequest V) (mmHash : String) : String :=
  if mmHash = "" then r.getMmIdentifier mmHash else mmHash

end MMRequest

/-- P0's cache of sizes, P1's cache of items, and whether P1 has raised an exception. -/
structure Pair (V : Type) where
  sender : LRUCache String ℕ
  receiver : LRUCache String V
  failed : Bool
  deriving DecidableEq

/-- A request, and whether the input validation accepts it once P0 has handled it. -/
structure Arrival (V : Type) where
  request : MMRequest V
  accepted : Bool
  deriving DecidableEq

namespace Pair

def new (capacity : ℚ≥0) : Pair V := ⟨LRUCache.new capacity, LRUCache.new capacity, false⟩

/-- `is_cached_item`. -/
def isCachedItem (s : Pair V) (mmHash : String) : Bool := (s.sender.data.get? mmHash).isSome

/-- "Cache miss … but data is not provided", raised before any key is touched. -/
def missesData (s : Pair V) (r : MMRequest V) : Bool :=
  r.items.any fun item => !s.isCachedItem item.hash && item.data.isNone

variable (getsizeof : V → ℕ)

/-- What `_merge_mm_kwargs` passes to the cache of P0: items that were cached before the request
come without data. -/
def senderItems (s : Pair V) (r : MMRequest V) : List (Item String ℕ) :=
  r.items.map fun item =>
    (item.hash, if s.isCachedItem item.hash then none else item.data.map getsizeof)

/-- A feature: what P0 had cached is sent without its data. -/
def feature (r : MMRequest V) (cached : List (Option ℕ)) (i : ℕ) : Option (Item String V) :=
  (r.items[i]?).bind fun item => (cached[i]?).map fun out =>
    (r.cacheKey item.hash, if out.isSome then none else item.data)

/-- The features of the request, sorted by position. -/
def receiverItems (r : MMRequest V) (cached : List (Option ℕ)) : List (Item String V) :=
  r.argsortMmPositions.filterMap (feature r cached)

def step (s : Pair V) (e : Arrival V) : Option (Pair V) :=
  if s.missesData e.request then some s
  else
    (s.sender.handle id (s.senderItems getsizeof e.request)).bind fun r =>
      match r.1, e.accepted with
      | some cached, true =>
        (s.receiver.handle getsizeof (receiverItems e.request cached)).map fun r' =>
          ⟨r.2, r'.2, s.failed || r'.1.isNone⟩
      | _, _ => some { s with sender := r.2 }

/-- The hashes by position. -/
def hashesByPosition (r : MMRequest V) : List String :=
  r.argsortMmPositions.filterMap fun i => r.items[i]?.map MMItem.hash

/-- For P1: the last uses come in the same order by position as by modality, the first item of
every hash is the same one, and P1 uses the hash as key. -/
@[mk_iff]
structure Straight (r : MMRequest V) : Prop where
  order : (hashesByPosition r).dedup = r.hashes.dedup
  first : ∀ h ∈ r.hashes, (r.argsortMmPositions.find? fun i =>
    decide (r.items[i]?.map MMItem.hash = some h)) =
      r.items.findIdx? fun item => decide (item.hash = h)
  keyed : ∀ h ∈ r.hashes, h ≠ "" ∨ r.loraName = none

instance (r : MMRequest V) : Decidable (Straight r) :=
  decidable_of_iff' _ (straight_iff r)

/-- For P0 alone: the hashes are cached already, and are the last ones used, in this order. -/
def Repeats (s : Pair V) (r : MMRequest V) : Prop :=
  r.hashes.dedup <:+ s.sender.order ∧ ∀ h ∈ r.hashes, s.isCachedItem h = true

instance (s : Pair V) (r : MMRequest V) : Decidable (s.Repeats r) :=
  inferInstanceAs (Decidable (_ ∧ _))

/-- A request that raises before P0 touches its cache, or that fits and is either straight and
delivered or a repetition for P0. -/
def Kept (s : Pair V) (e : Arrival V) : Prop :=
  s.missesData e.request = true ∨
    s.sender.Fits id (s.senderItems getsizeof e.request) ∧
      if e.accepted = true then Straight e.request else s.Repeats e.request

instance (s : Pair V) (e : Arrival V) : Decidable (s.Kept getsizeof e) :=
  inferInstanceAs (Decidable (_ ∨ _))

/-! ## Both requests have the same values -/

variable {getsizeof} {s s' : Pair V} {r : MMRequest V} {e : Arrival V}

/-- The caches of P0 and P1 between requests. -/
structure Twin (getsizeof : V → ℕ) (s : Pair V) : Prop where
  sender : s.sender.Ok id
  receiver : s.receiver.Ok getsizeof
  maxsize : s.sender.maxsize = s.receiver.maxsize
  order : s.sender.order = s.receiver.order
  sizes : ∀ k, s.sender.data.get? k = (s.receiver.data.get? k).map getsizeof
  found : s.failed = false

theorem keys_senderItems : keys (s.senderItems getsizeof r) = r.hashes := by
  rw [LRUCache.keys, senderItems, map_map, MMRequest.hashes]
  rfl

theorem Straight.cacheKey_eq (h : Straight r) {a : String} (ha : a ∈ r.hashes) :
    r.cacheKey a = a := by
  rcases h.keyed a ha with hne | hlora
  · rw [MMRequest.cacheKey, if_neg hne]
  · rw [MMRequest.cacheKey, MMRequest.getMmIdentifier, hlora, ite_self]

variable {i : ℕ} {item : MMItem V} {k : String}

theorem mem_hashes_of_getElem? (h : r.items[i]? = some item) :
    item.hash ∈ r.hashes := mem_map_of_mem (mem_of_getElem? h)

variable (getsizeof s r) in
/-- What P0 answers. -/
def answers : List (Option ℕ) :=
  s.sender.found (s.senderItems getsizeof r) [] (s.senderItems getsizeof r)

theorem answers_getElem? (i : ℕ) :
    (s.answers getsizeof r)[i]? =
      (r.items[i]?).map fun item =>
        if item.hash ∈ r.hashes.take i ∨ (s.sender.data.get? item.hash).isSome then
          s.sender.valueFor (s.senderItems getsizeof r) item.hash else none := by
  rw [answers, found_getElem?, keys_senderItems, senderItems, getElem?_map, Option.map_map,
    nil_append]
  rfl

variable (getsizeof s r) in
/-- P1's request, for what P0 answers. -/
def delivered : List (Item String V) := receiverItems r (s.answers getsizeof r)

variable (getsizeof s r) in
/-- A feature of that request. -/
theorem feature_eq (h : Straight r) (i : ℕ) :
    feature r (s.answers getsizeof r) i =
      (r.items[i]?).map fun item => (item.hash,
        if (if item.hash ∈ r.hashes.take i ∨ (s.sender.data.get? item.hash).isSome then
          s.sender.valueFor (s.senderItems getsizeof r) item.hash else none).isSome then none
        else item.data) := by
  rw [feature, answers_getElem?]
  cases hi : r.items[i]? with
  | none => rfl
  | some item =>
    rw [Option.bind_some, Option.map_some, Option.map_some, Option.map_some,
      h.cacheKey_eq (mem_hashes_of_getElem? hi)]

theorem keys_delivered (h : Straight r) : keys (s.delivered getsizeof r) = hashesByPosition r := by
  rw [LRUCache.keys, delivered, receiverItems, map_filterMap, hashesByPosition]
  apply filterMap_congr
  intro i _
  rw [feature_eq getsizeof s r h, Option.map_map]
  rfl

theorem mem_keys_delivered (h : Straight r) :
    k ∈ keys (s.delivered getsizeof r) ↔ k ∈ r.hashes := by
  rw [keys_delivered h, ← mem_dedup, h.order, mem_dedup]

/-- The first item of a hash that is not cached brings its data to P0. -/
theorem firstItem_senderItems (hi : r.items.findIdx? (fun item => decide (item.hash = k)) = some i)
    (hitem : r.items[i]? = some item) (hs : s.sender.data.get? k = none) :
    firstItem (s.senderItems getsizeof r) k = item.data.map getsizeof := by
  obtain ⟨hlt, hk, hbefore⟩ := findIdx?_eq_some_iff_getElem.mp hi
  rw [getElem?_eq_getElem hlt, Option.some.injEq] at hitem
  rw [hitem] at hk
  have hfind : r.items.find? (fun item => decide (item.hash = k)) = some item := by
    apply find?_eq_some_iff_getElem.mpr
    refine ⟨hk, i, hlt, hitem, ?_⟩
    intro j hj
    simpa using hbefore j hj
  rw [firstItem, senderItems, find?_map]
  have hcomp : ((fun item : Item String ℕ => decide (item.1 = k)) ∘ fun item : MMItem V =>
      (item.hash, if s.isCachedItem item.hash then none else item.data.map getsizeof)) =
      fun item => decide (item.hash = k) := rfl
  rw [hcomp, hfind, Option.map_some, Option.bind_some, of_decide_eq_true hk, isCachedItem, hs]
  rfl

/-- And P0 sends it, so that it brings them to P1. -/
theorem firstItem_delivered (h : Straight r)
    (hi : r.items.findIdx? (fun item => decide (item.hash = k)) = some i)
    (hitem : r.items[i]? = some item) (hs : s.sender.data.get? k = none) :
    firstItem (s.delivered getsizeof r) k = item.data := by
  obtain ⟨hlt, hk, hbefore⟩ := findIdx?_eq_some_iff_getElem.mp hi
  have hitem' := hitem
  rw [getElem?_eq_getElem hlt, Option.some.injEq] at hitem'
  rw [hitem'] at hk
  have hkey : item.hash = k := of_decide_eq_true hk
  have hmem : k ∈ r.hashes := hkey ▸ mem_hashes_of_getElem? hitem
  have hnot : k ∉ r.hashes.take i := by
    intro hmem
    obtain ⟨j, hj, hjk⟩ := mem_take_iff_getElem.mp hmem
    have hne := hbefore j (by omega)
    rw [← hjk] at hne
    simp [MMRequest.hashes] at hne
  have hfind : (r.argsortMmPositions.find? fun a =>
      (feature r (s.answers getsizeof r) a).any fun item => decide (item.1 = k)) = some i := by
    rw [← hi, ← h.first k hmem]
    congr 1
    funext a
    rw [feature_eq getsizeof s r h]
    cases r.items[a]? with
    | none => simp
    | some item => simp
  rw [firstItem, delivered, receiverItems, find?_filterMap, hfind, Option.bind_some,
    feature_eq getsizeof s r h, hitem, Option.map_some, Option.bind_some, hkey,
    if_neg (by simp [hnot, hs])]

/-- **Both sides give a key the same size.** -/
theorem Twin.valueFor_eq (ht : s.Twin getsizeof) (h : Straight r) (k : String) :
    s.sender.valueFor (s.senderItems getsizeof r) k =
      (s.receiver.valueFor (s.delivered getsizeof r) k).map getsizeof := by
  rw [valueFor, valueFor, ht.sizes]
  cases hv : s.receiver.data.get? k with
  | some v => rfl
  | none =>
    rw [Option.map_none, Option.none_or, Option.none_or]
    by_cases hk : k ∈ r.hashes
    · have hs : s.sender.data.get? k = none := by rw [ht.sizes, hv, Option.map_none]
      obtain ⟨item, hmem, rfl⟩ := mem_map.mp hk
      obtain ⟨i, hi⟩ : ∃ i, r.items.findIdx? (fun a => decide (a.hash = item.hash)) = some i := by
        apply Option.isSome_iff_exists.mp
        rw [findIdx?_isSome]
        exact any_eq_true.mpr ⟨item, hmem, decide_eq_true rfl⟩
      obtain ⟨hlt, -, -⟩ := findIdx?_eq_some_iff_getElem.mp hi
      have hitem := getElem?_eq_getElem hlt
      rw [firstItem_senderItems hi hitem hs, firstItem_delivered h hi hitem hs]
    · rw [firstItem_eq_none (by rw [keys_senderItems]; exact hk),
        firstItem_eq_none (by rw [mem_keys_delivered h]; exact hk), Option.map_none]

/-! ## One request -/

section

variable (ht : s.Twin getsizeof) (h : Straight r)
include ht h

theorem Twin.sizeFor_eq (k : String) :
    s.sender.sizeFor id (s.senderItems getsizeof r) k =
      s.receiver.sizeFor getsizeof (s.delivered getsizeof r) k := by
  rw [sizeFor, sizeFor, ht.valueFor_eq h]
  cases s.receiver.valueFor (s.delivered getsizeof r) k with
  | none => rfl
  | some v => rfl

theorem Twin.need_eq :
    s.sender.need id (s.senderItems getsizeof r) =
      s.receiver.need getsizeof (s.delivered getsizeof r) := by
  rw [need, need, keys_senderItems, keys_delivered h, h.order]
  exact weight_congr fun k _ => ht.sizeFor_eq h k

theorem Twin.left_eq :
    s.sender.left id (s.senderItems getsizeof r) =
      s.receiver.left getsizeof (s.delivered getsizeof r) := by
  have holds : s.sender.olds (s.senderItems getsizeof r) =
      s.receiver.olds (s.delivered getsizeof r) := by
    rw [olds, olds, ht.order]
    apply filter_congr
    intro k _
    rw [keys_senderItems]
    exact decide_eq_decide.mpr (not_congr (mem_keys_delivered h).symm)
  rw [left, left, ht.need_eq h, ht.maxsize, holds]
  exact room_congr fun k _ => ht.sizeFor_eq h k

/-- What fits in the cache of P0 fits in that of P1. -/
theorem Twin.fits_delivered (hfits : s.sender.Fits id (s.senderItems getsizeof r)) :
    s.receiver.Fits getsizeof (s.delivered getsizeof r) where
  given k hk := by
    have hsome := hfits.given k (by rw [keys_senderItems, ← mem_keys_delivered h]; exact hk)
    rwa [ht.valueFor_eq h, Option.isSome_map] at hsome
  fits := by
    rw [← ht.need_eq h, ← ht.maxsize]
    exact hfits.fits

/-- After a delivery the caches are alike again. -/
theorem Twin.delivered {c : LRUCache String ℕ} {c' : LRUCache String V}
    (hfits : s.sender.Fits id (s.senderItems getsizeof r))
    (hc : s.sender.After id (s.senderItems getsizeof r) c)
    (hc' : s.receiver.After getsizeof (s.delivered getsizeof r) c') :
    (⟨c, c', false⟩ : Pair V).Twin getsizeof := by
  have horder : c.order = c'.order := by
    rw [hc.order, hc'.order, ht.left_eq h, keys_senderItems, keys_delivered h, h.order]
  constructor
  case sender => exact hc.ok ht.sender hfits
  case receiver => exact hc'.ok ht.receiver (ht.fits_delivered h hfits)
  case maxsize => exact hc.maxsize.trans (ht.maxsize.trans hc'.maxsize.symm)
  case order => exact horder
  case sizes =>
    intro k
    rw [hc.get, hc'.get, horder, ht.valueFor_eq h]
    split
    · rfl
    · rfl
  case found => rfl

end

/-- A repetition leaves the cache of P0 as it is. -/
theorem Twin.repeated {c : LRUCache String ℕ} (ht : s.Twin getsizeof) (hrep : s.Repeats r)
    (hfits : s.sender.Fits id (s.senderItems getsizeof r))
    (hc : s.sender.After id (s.senderItems getsizeof r) c) :
    ({ s with sender := c } : Pair V).Twin getsizeof := by
  have hheld : s.sender.held (s.senderItems getsizeof r) [] = r.hashes.dedup := by
    rw [held, keys_senderItems]
    apply filter_eq_self.mpr
    intro k hk
    exact decide_eq_true (Or.inr (hrep.2 k (mem_dedup.mp hk)))
  have hleft : s.sender.left id (s.senderItems getsizeof r) =
      s.sender.olds (s.senderItems getsizeof r) := by
    apply room_of_le
    rw [need, keys_senderItems, ← hheld, ← ht.sender.weight_split]
    exact ht.sender.fits
  have horder : c.order = s.sender.order := by
    rw [hc.order, hleft, olds, keys_senderItems]
    exact touchAll_of_suffix ht.sender.nodup hrep.1
  constructor
  case sender => exact hc.ok ht.sender hfits
  case receiver => exact ht.receiver
  case maxsize => exact hc.maxsize.trans ht.maxsize
  case order => exact horder.trans ht.order
  case sizes =>
    intro k
    rw [hc.get, horder, ← ht.sizes]
    split
    · rename_i hk
      exact valueFor_of_stored ((ht.sender.stored k).mp hk)
    · rename_i hk
      rw [ht.sender.stored k, Option.not_isSome_iff_eq_none] at hk
      exact hk.symm
  case found => exact ht.found

/-- One request that keeps the caches alike is handled by both sides without an exception. -/
theorem Twin.step (ht : s.Twin getsizeof) (hk : s.Kept getsizeof e) :
    ∃ s', s.step getsizeof e = some s' ∧ s'.Twin getsizeof := by
  by_cases hmiss : s.missesData e.request = true
  · exact ⟨s, if_pos hmiss, ht⟩
  · obtain ⟨hfits, hkind⟩ := hk.resolve_left hmiss
    obtain ⟨c, hrun, hafter, -⟩ := handle_spec ht.sender hfits
    rw [Pair.step, if_neg hmiss, hrun, Option.bind_some]
    cases hacc : e.accepted with
    | false =>
      rw [hacc, if_neg Bool.false_ne_true] at hkind
      exact ⟨_, rfl, ht.repeated hkind hfits hafter⟩
    | true =>
      rw [hacc, if_pos rfl] at hkind
      obtain ⟨c', hrun', hafter', -⟩ :=
        handle_spec ht.receiver (ht.fits_delivered hkind hfits)
      refine ⟨⟨c, c', false⟩, ?_, ht.delivered hkind hfits hafter hafter'⟩
      show (s.receiver.handle getsizeof (s.delivered getsizeof e.request)).map _ = _
      rw [hrun', Option.map_some, ht.found]
      rfl

/-! ## Runs -/

end Pair

end Nvllm.Multimodal
