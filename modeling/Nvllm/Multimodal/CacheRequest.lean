import Nvllm.Multimodal.LRUCache

/-! # One request that fits in the cache

`Fits`: every key of the request is stored or comes with a value, and the values of all its keys
together are no larger than the capacity. In a cache whose order lists exactly the stored keys
(`Ok`) the handling of such a request ends without an exception, evicts stored keys only
(`handle_spec`), and leaves the least recently used of the other keys out until the rest fits
beside the request (`After`).
-/

namespace Nvllm.Multimodal.LRUCache

open Recency List Option

variable {K V : Type} [DecidableEq K] (getsizeof : V → ℕ)

/-- The value that the first item with key `k` brings. -/
def firstItem (req : List (Item K V)) (k : K) : Option V :=
  (req.find? fun item => decide (item.1 = k)).bind Prod.snd

/-- The value that a key of the request has after it. -/
def valueFor (c : LRUCache K V) (req : List (Item K V)) (k : K) : Option V :=
  (c.data.get? k).or (firstItem req k)

def sizeFor (c : LRUCache K V) (req : List (Item K V)) (k : K) : ℕ :=
  (c.valueFor req k).elim 0 getsizeof

/-- Total size of the keys of a request. -/
def need (c : LRUCache K V) (req : List (Item K V)) : ℕ :=
  weight (c.sizeFor getsizeof req) (keys req).dedup

@[mk_iff]
structure Fits (c : LRUCache K V) (req : List (Item K V)) : Prop where
  given : ∀ k ∈ keys req, (c.valueFor req k).isSome
  fits : (c.need getsizeof req : ℚ≥0) ≤ c.maxsize

instance (c : LRUCache K V) (req : List (Item K V)) : Decidable (c.Fits getsizeof req) :=
  decidable_of_iff' _ (fits_iff getsizeof c req)

/-- Between two requests: the order lists the stored keys, and their sizes add up to `currsize`. -/
structure Ok (c : LRUCache K V) : Prop where
  nodup : c.order.Nodup
  stored : ∀ k, k ∈ c.order ↔ (c.data.get? k).isSome
  currsize : c.currsize = weight (fun k => (c.data.get? k).elim 0 getsizeof) c.order
  fits : (c.currsize : ℚ≥0) ≤ c.maxsize
  pinned : c.pinnedItems = []

variable {getsizeof} {c0 c : LRUCache K V} {req : List (Item K V)}

theorem ok_new (capacity : ℚ≥0) : (new capacity : LRUCache K V).Ok getsizeof where
  nodup := nodup_nil
  stored k := by simp [new]
  currsize := rfl
  fits := by simp [new]
  pinned := rfl

variable {k : K} {pre rest : List (Item K V)}

theorem find?_eq_none (h : k ∉ keys req) : req.find? (fun item => decide (item.1 = k)) = none := by
  apply List.find?_eq_none.mpr
  intro item hitem heq
  exact h (of_decide_eq_true heq ▸ mem_map_of_mem hitem)

theorem firstItem_eq_none (h : k ∉ keys req) : firstItem req k = none := by
  rw [firstItem, find?_eq_none h, bind_none]

/-! ## Eviction -/

/-- An eviction at this moment removes a stored key. -/
def PopsStored (p : LRUCache K V) : Prop := ∃ k v, p.lruKey = some k ∧ p.data.get? k = some v

theorem lruKey_of_cons {l : List K} (hpin : c.pinnedItems = []) (h : c.order = k :: l) :
    c.lruKey = some k := by
  rw [lruKey, hpin, h, find?_cons_of_pos (by simp)]

/-- **Eviction takes stored keys from the front.** If the order starts with stored keys and what
is kept fits beside the new value, the loop drops as many of them as `room` does. -/
theorem makeRoom_spec {size : K → ℕ} {olds rest : List K} {inside sz n : ℕ}
    (horder : c.order = olds ++ rest) (hnd : c.order.Nodup) (hpin : c.pinnedItems = [])
    (hcur : c.currsize = weight size olds + inside)
    (hst : ∀ k ∈ olds, ∃ v, c.data.get? k = some v ∧ getsizeof v = size k)
    (hfit : ((inside + sz : ℕ) : ℚ≥0) ≤ c.maxsize) (hn : olds.length < n) :
    ∃ c', c.makeRoom getsizeof sz n = some (true, c') ∧ c'.maxsize = c.maxsize ∧
      c'.pinnedItems = [] ∧ c'.order = room size c.maxsize (inside + sz) olds ++ rest ∧
      c'.currsize = weight size (room size c.maxsize (inside + sz) olds) + inside ∧
      (∀ k, c'.data.get? k =
        if k ∈ olds ∧ k ∉ room size c.maxsize (inside + sz) olds then none else c.data.get? k) ∧
      ∀ p ∈ c.popitems getsizeof sz n, p.PopsStored := by
  induction n generalizing c olds with
  | zero => exact absurd hn (Nat.not_lt_zero _)
  | succ n ih =>
    by_cases hroom : ((c.currsize + sz : ℕ) : ℚ≥0) ≤ c.maxsize
    · have hkeep : room size c.maxsize (inside + sz) olds = olds := by
        apply room_of_le
        rw [hcur, Nat.add_assoc] at hroom
        exact hroom
      rw [hkeep]
      refine ⟨c, ?_, rfl, hpin, horder, hcur, ?_, ?_⟩
      · rw [makeRoom, if_pos hroom]
      · intro k
        rw [if_neg fun h => h.2 h.1]
      · intro p hp
        rw [popitems, if_pos hroom] at hp
        cases hp
    cases olds with
    | nil =>
      rw [hcur, weight_nil, Nat.zero_add] at hroom
      exact absurd hfit hroom
    | cons k olds =>
      have hdrop : room size c.maxsize (inside + sz) (k :: olds) =
          room size c.maxsize (inside + sz) olds := by
        rw [hcur, Nat.add_assoc] at hroom
        rw [room, if_neg hroom]
      obtain ⟨v, hv, hsize⟩ := hst k mem_cons_self
      have hlru := lruKey_of_cons hpin horder
      rw [horder, cons_append, nodup_cons] at hnd
      have hpop : c.popitem getsizeof = some (c.delitem getsizeof k v) :=
        popitem_of_stored hlru hv
      have horder' : (c.delitem getsizeof k v).order = olds ++ rest := by
        show c.order.erase k = _
        rw [horder, cons_append, erase_cons_head]
      have hget : ∀ k', (c.delitem getsizeof k v).data.get? k' =
          if k' = k then none else c.data.get? k' := fun k' => Dict.get?_erase _ _ _
      have hnot : k ∉ olds := fun h => hnd.1 (mem_append_left _ h)
      obtain ⟨c', hrun, hmax, hpin', hord, hcur', hdata, hpops⟩ :=
        @ih (c.delitem getsizeof k v) olds horder' (by rw [horder']; exact hnd.2)
          (by show c.pinnedItems.erase k = []; rw [hpin]; rfl)
          (by
            show c.currsize - getsizeof v = _
            rw [hcur, weight_cons, hsize]
            omega)
          (by
            intro k' hk'
            have hne : k' ≠ k := fun h => hnot (h ▸ hk')
            rw [hget, if_neg hne]
            exact hst k' (mem_cons_of_mem _ hk'))
          hfit (by simp at hn; omega)
      rw [hdrop]
      refine ⟨c', ?_, hmax, hpin', hord, hcur', ?_, ?_⟩
      · rw [makeRoom, if_neg hroom, hpop]
        exact hrun
      · intro k'
        rw [hdata, hget]
        have hsub : ∀ a, a ∈ room size c.maxsize (inside + sz) olds → a ∈ olds :=
          fun a ha => (room_suffix _ _).subset ha
        show (if k' ∈ olds ∧ k' ∉ room size c.maxsize (inside + sz) olds then none
          else if k' = k then none else c.data.get? k') = _
        by_cases hk' : k' = k
        · subst hk'
          have hnr : k' ∉ room size c.maxsize (inside + sz) olds := fun h => hnot (hsub _ h)
          rw [if_neg fun h => hnot h.1, if_pos rfl, if_pos ⟨mem_cons_self, hnr⟩]
        · simp only [mem_cons, hk', false_or, if_false]
      · intro p hp
        rw [popitems, if_neg hroom, hpop] at hp
        rcases mem_cons.mp hp with rfl | hp
        · exact ⟨k, v, hlru, hv⟩
        · exact hpops p hp

/-! ## In the middle of a request -/

variable (getsizeof c0 req)

/-- The keys of the request that are in the cache once the keys `done` are handled. -/
def held (done : List K) : List K :=
  (keys req).dedup.filter fun k => k ∈ done ∨ (c0.data.get? k).isSome

/-- The keys that the request does not name, least recently used first. -/
def olds : List K := c0.order.filter fun k => k ∉ keys req

/-- Those of them that are left once the keys `done` are handled. -/
def kept (done : List K) : List K :=
  room (c0.sizeFor getsizeof req) c0.maxsize
    (weight (c0.sizeFor getsizeof req) (c0.held req done)) (c0.olds req)

/-- The keys that are stored then. -/
def present (done : List K) : List K := c0.kept getsizeof req done ++ c0.held req done

/-- The cache `c` in the middle of the request `req`, which found the cache `c0` and has handled
the keys `done`. -/
structure Busy (done : List K) (c : LRUCache K V) : Prop where
  done_sub : ∀ k ∈ done, k ∈ keys req
  maxsize : c.maxsize = c0.maxsize
  pinned : c.pinnedItems = []
  get : ∀ k, c.data.get? k =
    if k ∈ c0.present getsizeof req done then c0.valueFor req k else none
  order : c.order = c0.kept getsizeof req done ++ touchAll done (keys req).dedup
  currsize : c.currsize = weight (c0.sizeFor getsizeof req) (c0.kept getsizeof req done) +
    weight (c0.sizeFor getsizeof req) (c0.held req done)

variable {getsizeof c0 req} {done : List K}

theorem mem_olds : k ∈ c0.olds req ↔ k ∈ c0.order ∧ k ∉ keys req := by
  simp [olds]

theorem mem_held :
    k ∈ c0.held req done ↔ k ∈ keys req ∧ (k ∈ done ∨ (c0.data.get? k).isSome) := by
  simp [held]

theorem kept_subset (h : k ∈ c0.kept getsizeof req done) : k ∈ c0.olds req :=
  (room_suffix _ _).subset h

theorem not_kept (hk : k ∈ keys req) : k ∉ c0.kept getsizeof req done :=
  fun hmem => (mem_olds.mp (kept_subset hmem)).2 hk

theorem mem_present : k ∈ c0.present getsizeof req done ↔
    k ∈ c0.kept getsizeof req done ∨ k ∈ keys req ∧ (k ∈ done ∨ (c0.data.get? k).isSome) := by
  rw [present, mem_append, mem_held]

theorem not_present (hk : k ∈ keys req) (hd : k ∉ done) (hs : c0.data.get? k = none) :
    k ∉ c0.present getsizeof req done := by
  rw [mem_present, hs]
  simp [not_kept hk, hd]

theorem valueFor_of_stored (h : (c0.data.get? k).isSome) : c0.valueFor req k = c0.data.get? k := by
  obtain ⟨v, hv⟩ := isSome_iff_exists.mp h
  rw [valueFor, hv, some_or]

/-- The request's keys in the cache at its start, and the others, are the whole order. -/
theorem Ok.perm_order (ho : c0.Ok getsizeof) : c0.order.Perm (c0.olds req ++ c0.held req []) := by
  have hnd : (c0.olds req ++ c0.held req []).Nodup := by
    refine List.Nodup.append (ho.nodup.filter _) ((nodup_dedup _).filter _) ?_
    intro k hk hk'
    exact (mem_olds.mp hk).2 (mem_held.mp hk').1
  apply (perm_ext_iff_of_nodup ho.nodup hnd).mpr
  intro k
  rw [mem_append, mem_olds, mem_held, ← ho.stored k]
  tauto

theorem Ok.weight_split (ho : c0.Ok getsizeof) :
    c0.currsize = weight (c0.sizeFor getsizeof req) (c0.olds req) +
      weight (c0.sizeFor getsizeof req) (c0.held req []) := by
  rw [ho.currsize, ← weight_append, ← weight_perm ho.perm_order]
  apply weight_congr
  intro k hk
  rw [sizeFor, valueFor_of_stored ((ho.stored k).mp hk)]

theorem Ok.kept_nil (ho : c0.Ok getsizeof) : c0.kept getsizeof req [] = c0.olds req := by
  apply room_of_le
  rw [← ho.weight_split]
  exact ho.fits

theorem touchItems_eq (hnd : c.order.Nodup) (ks : List K) :
    c.touchItems ks = { c with order := touchAll ks c.order } := by
  have hfold : ∀ c : LRUCache K V,
      c.touchItems ks = { c with order := ks.foldl (fun l k => Recency.touch k l) c.order } := by
    induction ks with
    | nil => exact fun c => rfl
    | cons k ks ih => exact fun c => ih (c.touch k)
  rw [hfold, foldl_touch hnd]

/-- After the touches. -/
theorem Ok.busy (ho : c0.Ok getsizeof) : c0.Busy getsizeof req [] (c0.touchItems (keys req)) := by
  rw [touchItems_eq ho.nodup]
  constructor
  case done_sub => exact fun k hk => absurd hk not_mem_nil
  case maxsize => rfl
  case pinned => exact ho.pinned
  case get =>
    intro k
    rw [present, ho.kept_nil]
    split <;> rename_i hk <;> rw [← ho.perm_order.mem_iff, ho.stored] at hk
    · exact (valueFor_of_stored hk).symm
    · exact not_isSome_iff_eq_none.mp hk
  case order =>
    rw [ho.kept_nil, touchAll_nil]
    rfl
  case currsize =>
    rw [ho.kept_nil]
    exact ho.weight_split

theorem Busy.sub_concat (h : c0.Busy getsizeof req done c) (hk : k ∈ keys req) :
    ∀ a ∈ done ++ [k], a ∈ keys req := by
  intro a ha
  rcases mem_append.mp ha with ha | ha
  · exact h.done_sub a ha
  · exact mem_singleton.mp ha ▸ hk

/-- Keys of the request behind those that are left. -/
theorem Ok.nodup_kept_append (ho : c0.Ok getsizeof) {l : List K} (hl : l.Nodup)
    (hsub : ∀ k ∈ l, k ∈ keys req) : (c0.kept getsizeof req done ++ l).Nodup :=
  List.Nodup.append ((room_suffix _ _).sublist.nodup (ho.nodup.filter _)) hl
    fun k hk hk' => not_kept (hsub k hk') hk

theorem Busy.nodup_order (h : c0.Busy getsizeof req done c) (ho : c0.Ok getsizeof) :
    c.order.Nodup := by
  rw [h.order]
  refine ho.nodup_kept_append (nodup_touchAll (nodup_dedup _) _) fun a ha => ?_
  rcases mem_touchAll.mp ha with ha | ha
  · exact mem_dedup.mp ha
  · exact h.done_sub a ha

/-- The keys that may be evicted are stored. -/
theorem Busy.stored_of_kept (h : c0.Busy getsizeof req done c) (ho : c0.Ok getsizeof) {a : K}
    (ha : a ∈ c0.kept getsizeof req done) :
    ∃ w, c.data.get? a = some w ∧ getsizeof w = c0.sizeFor getsizeof req a := by
  have hsome := (ho.stored a).mp (mem_olds.mp (kept_subset ha)).1
  obtain ⟨w, hw⟩ := isSome_iff_exists.mp hsome
  refine ⟨w, ?_, ?_⟩
  · rw [h.get, if_pos (mem_present.mpr (.inl ha)), valueFor_of_stored hsome, hw]
  · rw [sizeFor, valueFor_of_stored hsome, hw, elim_some]

/-- An item whose key is in the cache. -/
theorem Busy.hit (h : c0.Busy getsizeof req done c) (hk : k ∈ keys req)
    (hheld : k ∈ done ∨ (c0.data.get? k).isSome) :
    c0.Busy getsizeof req (done ++ [k]) (c.touch k) := by
  have hsame : c0.held req (done ++ [k]) = c0.held req done := by
    apply filter_congr
    intro a _
    by_cases hak : a = k
    · subst hak
      simp [hheld]
    · simp [hak]
  have hkept : c0.kept getsizeof req (done ++ [k]) = c0.kept getsizeof req done := by
    rw [kept, hsame, kept]
  constructor
  case done_sub => exact h.sub_concat hk
  case maxsize => exact h.maxsize
  case pinned => exact h.pinned
  case get =>
    rw [present, hkept, hsame]
    exact h.get
  case order =>
    rw [hkept, ← touch_touchAll (nodup_dedup _), ← touch_append (not_kept hk), ← h.order]
    rfl
  case currsize =>
    rw [hkept, hsame]
    exact h.currsize

theorem nodup_held : (c0.held req done).Nodup := (nodup_dedup _).filter _

theorem perm_held_concat (hk : k ∈ keys req) (hd : k ∉ done)
    (hs : c0.data.get? k = none) : (c0.held req (done ++ [k])).Perm (k :: c0.held req done) := by
  have hnot : k ∉ c0.held req done := by
    rw [mem_held, hs]
    simp [hd]
  have hnd : (k :: c0.held req done).Nodup :=
    nodup_cons.mpr ⟨hnot, nodup_held⟩
  apply (perm_ext_iff_of_nodup nodup_held hnd).mpr
  intro a
  rw [mem_cons, mem_held, mem_held]
  by_cases hak : a = k
  · subst hak
    simp [hk]
  · simp [hak]

theorem weight_held_concat (hk : k ∈ keys req) (hd : k ∉ done) (hs : c0.data.get? k = none)
    (size : K → ℕ) :
    weight size (c0.held req (done ++ [k])) = weight size (c0.held req done) + size k := by
  rw [weight_perm (perm_held_concat hk hd hs), weight_cons, Nat.add_comm]

/-- An item that is stored: room is made by evicting keys that the request does not name. -/
theorem Busy.insert (h : c0.Busy getsizeof req done c) (ho : c0.Ok getsizeof)
    (hfits : c0.Fits getsizeof req) {v : V} (hk : k ∈ keys req) (hd : k ∉ done)
    (hs : c0.data.get? k = none) (hv : c0.valueFor req k = some v) :
    ∃ c', c.setitem getsizeof k v = some (true, c') ∧
      c0.Busy getsizeof req (done ++ [k]) c' ∧
      ∀ p ∈ c.setitemPops getsizeof k v, p.PopsStored := by
  have hsize : getsizeof v = c0.sizeFor getsizeof req k := by rw [sizeFor, hv, elim_some]
  have hinside := weight_held_concat hk hd hs (c0.sizeFor getsizeof req)
  have hfit : ((weight (c0.sizeFor getsizeof req) (c0.held req done) + getsizeof v : ℕ) : ℚ≥0) ≤
      c.maxsize := by
    rw [h.maxsize, hsize, ← hinside]
    exact (Nat.cast_le.mpr (weight_sublist filter_sublist)).trans hfits.fits
  have hsmall : ¬c.maxsize < (getsizeof v : ℚ≥0) := by
    apply not_lt.mpr
    exact (Nat.cast_le.mpr (Nat.le_add_left _ _)).trans hfit
  have hnone : c.data.get? k = none := by rw [h.get, if_neg (not_present hk hd hs)]
  have hlen : (c0.kept getsizeof req done).length < c.fuel := by
    rw [fuel, h.order, length_append]
    omega
  obtain ⟨c', hrun, hmax, hpin, horder, hcur, hdata, hpops⟩ :=
    makeRoom_spec h.order (h.nodup_order ho) h.pinned h.currsize
      (fun a ha => h.stored_of_kept ho ha) hfit hlen
  have hkept : room (c0.sizeFor getsizeof req) c.maxsize
      (weight (c0.sizeFor getsizeof req) (c0.held req done) + getsizeof v)
      (c0.kept getsizeof req done) = c0.kept getsizeof req (done ++ [k]) := by
    rw [h.maxsize, kept, room_room (Nat.le_add_right _ _), kept, hinside, hsize]
  rw [hkept] at horder hcur hdata
  refine ⟨c'.store getsizeof k v, ?_, ?_, ?_⟩
  · rw [setitem, if_neg hsmall, hnone, if_neg (by simp), hrun]
    rfl
  · have hget : ∀ a, (c'.store getsizeof k v).data.get? a =
        if a = k then some v else c'.data.get? a := fun a => Dict.get?_set _ _ _ _
    constructor
    case done_sub => exact h.sub_concat hk
    case maxsize => exact hmax.trans h.maxsize
    case pinned => exact hpin
    case get =>
      intro a
      rw [hget]
      by_cases hak : a = k
      · rw [if_pos hak, hak, if_pos (mem_present.mpr (.inr (by simp [hk]))), hv]
      · rw [if_neg hak, hdata, h.get]
        by_cases hnew : a ∈ c0.kept getsizeof req (done ++ [k])
        · have hwas : a ∈ c0.kept getsizeof req done := by
            rw [← hkept] at hnew
            exact (room_suffix _ _).subset hnew
          rw [if_neg fun hmem => hmem.2 hnew, if_pos (mem_present.mpr (.inl hwas)),
            if_pos (mem_present.mpr (.inl hnew))]
        · by_cases hwas : a ∈ c0.kept getsizeof req done
          · have hnot : a ∉ keys req := fun ha => not_kept ha hwas
            rw [if_pos ⟨hwas, hnew⟩, if_neg (by simp [mem_present, hnew, hnot])]
          · rw [if_neg fun hmem => hwas hmem.1]
            exact if_congr (by simp [mem_present, hwas, hnew, hak]) rfl rfl
    case order =>
      show Recency.touch k c'.order = _
      rw [horder, touch_append (not_kept hk), touch_touchAll (nodup_dedup _)]
    case currsize =>
      have hnone' : c'.data.get? k = none := by
        rw [hdata, hnone, ite_self]
      show c'.currsize + getsizeof v - (c'.data.get? k).elim 0 getsizeof = _
      rw [hnone', hcur, hinside, hsize, elim_none]
      omega
  · rw [setitemPops, if_neg hsmall, hnone, if_neg (by simp)]
    exact hpops

/-! ## The whole request -/

variable (c0 req) in
/-- What the updates find: the value of a key that is stored or was handled before. -/
def found : List K → List (Item K V) → List (Option V)
  | _, [] => []
  | done, item :: rest =>
    (if item.1 ∈ done ∨ (c0.data.get? item.1).isSome then c0.valueFor req item.1 else none) ::
      found (done ++ [item.1]) rest

theorem found_getElem? (rest : List (Item K V)) (i : ℕ) :
    (c0.found req done rest)[i]? = (rest[i]?).map fun item =>
      if item.1 ∈ done ++ (keys rest).take i ∨ (c0.data.get? item.1).isSome then
        c0.valueFor req item.1 else none := by
  induction rest generalizing done i with
  | nil => rfl
  | cons item rest ih =>
    rw [found]
    cases i with
    | zero =>
      rw [getElem?_cons_zero, getElem?_cons_zero, map_some, take_zero,
        append_nil]
    | succ i =>
      rw [getElem?_cons_succ, getElem?_cons_succ, ih]
      simp only [keys, map_cons, take_succ_cons, append_assoc,
        singleton_append]

theorem firstItem_append {item : Item K V} (h : item.1 ∉ keys pre) :
    firstItem (pre ++ item :: rest) item.1 = item.2 := by
  rw [firstItem, find?_append, find?_eq_none h, none_or,
    find?_cons_of_pos (by simp), bind_some]

omit [DecidableEq K] in
theorem keys_append (pre rest : List (Item K V)) : keys (pre ++ rest) = keys pre ++ keys rest :=
  map_append

/-- One item in the middle of a request that fits. -/
theorem Busy.item {item : Item K V} (h : c0.Busy getsizeof (pre ++ item :: rest) (keys pre) c)
    (ho : c0.Ok getsizeof) (hfits : c0.Fits getsizeof (pre ++ item :: rest)) :
    ∃ c', c.getAndUpdateItem getsizeof item = some (some
        (if item.1 ∈ keys pre ∨ (c0.data.get? item.1).isSome then
          c0.valueFor (pre ++ item :: rest) item.1 else none), c') ∧
      c0.Busy getsizeof (pre ++ item :: rest) (keys pre ++ [item.1]) c' ∧
      ∀ p ∈ c.getAndUpdatePops getsizeof item, p.PopsStored := by
  have hk : item.1 ∈ keys (pre ++ item :: rest) := mem_map_of_mem (by simp)
  obtain ⟨v, hv⟩ := isSome_iff_exists.mp (hfits.given item.1 hk)
  by_cases hheld : item.1 ∈ keys pre ∨ (c0.data.get? item.1).isSome
  · have hget : c.data.get? item.1 = some v := by
      rw [h.get, if_pos (mem_present.mpr (.inr ⟨hk, hheld⟩)), hv]
    refine ⟨c.touch item.1, ?_, h.hit hk hheld, ?_⟩
    · rw [if_pos hheld, hv, getAndUpdateItem, hget]
    · intro p hp
      rw [getAndUpdatePops, hget] at hp
      cases hp
  · rw [not_or, not_isSome_iff_eq_none] at hheld
    obtain ⟨hd, hs⟩ := hheld
    have hget : c.data.get? item.1 = none := by rw [h.get, if_neg (not_present hk hd hs)]
    have hitem : item.2 = some v := by
      rw [← hv, valueFor, hs, none_or, firstItem_append hd]
    obtain ⟨c', hset, hbusy, hpops⟩ := h.insert ho hfits hk hd hs hv
    refine ⟨c', ?_, hbusy, ?_⟩
    · rw [getAndUpdateItem, hget, hitem, if_neg (by simp [hd, hs])]
      show (c.setitem getsizeof item.1 v).map _ = _
      rw [hset]
      rfl
    · rw [getAndUpdatePops, hget, hitem]
      exact hpops

/-- The items that are left, in the middle of a request that fits. -/
theorem Busy.items (h : c0.Busy getsizeof (pre ++ rest) (keys pre) c) (ho : c0.Ok getsizeof)
    (hfits : c0.Fits getsizeof (pre ++ rest)) :
    ∃ c', c.updateItems getsizeof rest =
        some (some (c0.found (pre ++ rest) (keys pre) rest), c') ∧
      c0.Busy getsizeof (pre ++ rest) (keys (pre ++ rest)) c' ∧
      ∀ p ∈ c.updatePops getsizeof rest, p.PopsStored := by
  induction rest generalizing pre c with
  | nil =>
    refine ⟨c, rfl, ?_, fun p hp => absurd hp not_mem_nil⟩
    rw [append_nil] at h ⊢
    exact h
  | cons item rest ih =>
    obtain ⟨c1, hitem, hbusy, hpops⟩ := h.item ho hfits
    have hpre : pre ++ item :: rest = (pre ++ [item]) ++ rest := by simp
    have hkeys : keys (pre ++ [item]) = keys pre ++ [item.1] := keys_append _ _
    rw [← hkeys, hpre] at hbusy
    rw [hpre] at hfits
    obtain ⟨c', hrun, hbusy', hpops'⟩ := ih hbusy hfits
    rw [← hpre] at hrun hbusy'
    refine ⟨c', ?_, hbusy', ?_⟩
    · rw [updateItems, hitem, bind_some]
      rw [hrun, found, ← hkeys]
      rfl
    · intro p hp
      rw [updatePops, hitem] at hp
      rcases mem_append.mp hp with hp | hp
      · exact hpops p hp
      · exact hpops' p hp

variable (getsizeof c0 req) in
/-- The other keys that are left after a request. -/
def left : List K :=
  room (c0.sizeFor getsizeof req) c0.maxsize (c0.need getsizeof req) (c0.olds req)

variable (getsizeof c0 req) in
/-- The cache after a request that fits: the keys that are left, then those of the request. -/
structure After (c : LRUCache K V) : Prop where
  maxsize : c.maxsize = c0.maxsize
  pinned : c.pinnedItems = []
  order : c.order = c0.left getsizeof req ++ (keys req).dedup
  get : ∀ k, c.data.get? k = if k ∈ c.order then c0.valueFor req k else none
  currsize : c.currsize = weight (c0.sizeFor getsizeof req) c.order

theorem held_keys : c0.held req (keys req) = (keys req).dedup := by
  apply filter_eq_self.mpr
  intro k hk
  exact decide_eq_true (Or.inl (mem_dedup.mp hk))

theorem kept_keys : c0.kept getsizeof req (keys req) = c0.left getsizeof req := by
  rw [kept, held_keys, left, need]

theorem Busy.after (h : c0.Busy getsizeof req (keys req) c) :
    c0.After getsizeof req c := by
  have hord : touchAll (keys req) (keys req).dedup = (keys req).dedup :=
    touchAll_of_suffix (nodup_dedup _) suffix_rfl
  have horder : c.order = c0.left getsizeof req ++ (keys req).dedup := by
    rw [h.order, kept_keys, hord]
  constructor
  case maxsize => exact h.maxsize
  case pinned => exact h.pinned
  case order => exact horder
  case get =>
    rw [horder, ← kept_keys, ← held_keys]
    exact h.get
  case currsize =>
    rw [h.currsize, kept_keys, held_keys, horder, weight_append]

theorem After.nodup (h : c0.After getsizeof req c) (ho : c0.Ok getsizeof) : c.order.Nodup := by
  rw [h.order, ← kept_keys]
  exact ho.nodup_kept_append (nodup_dedup _) fun k hk => mem_dedup.mp hk

theorem After.ok (h : c0.After getsizeof req c) (ho : c0.Ok getsizeof)
    (hfits : c0.Fits getsizeof req) : c.Ok getsizeof := by
  have hsome : ∀ k ∈ c.order, (c0.valueFor req k).isSome := by
    intro k hk
    rw [h.order, mem_append] at hk
    rcases hk with hk | hk
    · have hold := mem_olds.mp ((room_suffix _ _).subset hk)
      have hst := (ho.stored k).mp hold.1
      rw [valueFor_of_stored hst]
      exact hst
    · exact hfits.given k (mem_dedup.mp hk)
  constructor
  case nodup => exact h.nodup ho
  case stored =>
    intro k
    rw [h.get]
    split
    · exact ⟨fun hk => hsome k hk, fun _ => by assumption⟩
    · simp [*]
  case currsize =>
    rw [h.currsize]
    apply weight_congr
    intro k hk
    rw [h.get, if_pos hk, sizeFor]
  case fits =>
    rw [h.currsize, h.order, weight_append, h.maxsize]
    exact weight_room hfits.fits _
  case pinned => exact h.pinned

/-- **A request that fits.** Its handling ends without an exception, every eviction removes a
stored key, and the cache after it is the one that `After` describes. -/
theorem handle_spec (ho : c0.Ok getsizeof) (hfits : c0.Fits getsizeof req) :
    ∃ c, c0.handle getsizeof req = some (some (c0.found req [] req), c) ∧
      c0.After getsizeof req c ∧
      ∀ p ∈ c0.handlePops getsizeof req, p.PopsStored := by
  obtain ⟨c, hrun, hbusy, hpops⟩ :=
    @Busy.items K V _ getsizeof c0 _ [] req ho.busy ho hfits
  exact ⟨c, hrun, hbusy.after, hpops⟩

end Nvllm.Multimodal.LRUCache
