import Nvllm.Sched.Schedule

/-! # The books of the encoder cache

`Accounted`: the free slots are those that no entry takes, the freeable slots are the free ones and
those of the entries without users, and `freeable` lists exactly these entries. Every method of
`EncoderCacheManager` keeps the books, if equal hashes have equal sizes.

`can_allocate` makes room for all items that one request is about to allocate. `Reserved` is the
state of `_try_schedule_encoder_inputs` in between: the items are not cached, and there is room for
all of them. Requests that are preempted before the allocations do not change that.
-/

namespace Nvllm.Sched

open Nvllm.KVCache List

namespace EncoderCacheManager

variable (size : MmHash → ℕ)

structure Accounted (e : EncoderCacheManager) : Prop where
  plain : e.encoderDecoder = false
  free : e.numFreeSlots + e.cached.weight (fun x => size x.1) = e.cacheSize
  freeable : e.numFreeableSlots = e.numFreeSlots + e.freeable.weight (·.2)
  busy : e.numFreeableSlots + e.cached.weight (fun x => if x.2 = [] then 0 else size x.1) =
    e.cacheSize
  unused : ∀ h, e.freeable.get? h = if e.cached.get? h = some [] then some (size h) else none
  nonneg : 0 ≤ e.numFreeSlots

variable {size} {e e' e'' : EncoderCacheManager} {r : Request} {i : ℕ} {f : MultiModalFeature}
  {k : MmHash}

theorem accounted_init (n : ℕ) : (init false n).Accounted size where
  plain := rfl
  free := by simp [init, Dict.weight, EmptyCollection.emptyCollection]
  freeable := by simp [init, Dict.weight, EmptyCollection.emptyCollection]
  busy := by simp [init, Dict.weight, EmptyCollection.emptyCollection]
  unused h := by simp [init]
  nonneg := by simp [init]

/-- **One entry changes.** Its slots are free if it is gone and freeable if it has no users. -/
theorem Accounted.change (h : e.Accounted size) {o : Option (List RequestId)}
    (hplain : e'.encoderDecoder = false) (hsize : e'.cacheSize = e.cacheSize)
    (hcached : e.cached.Changed e'.cached k o)
    (hfreeable : e.freeable.Changed e'.freeable k (if o = some [] then some (size k) else none))
    (hfree : e'.numFreeSlots + (o.elim 0 fun _ => size k : ℕ) =
      e.numFreeSlots + ((e.cached.get? k).elim 0 fun _ => size k : ℕ))
    (hbusy : e'.numFreeableSlots + (o.elim 0 fun us => if us = [] then 0 else size k : ℕ) =
      e.numFreeableSlots + ((e.cached.get? k).elim 0 fun us => if us = [] then 0 else size k : ℕ))
    (hnonneg : 0 ≤ e'.numFreeSlots) : e'.Accounted size := by
  have hcases : ∀ o : Option (List RequestId), (o.elim 0 fun _ => size k) =
      (o.elim 0 fun us => if us = [] then 0 else size k) +
        (if o = some [] then some (size k) else none).elim 0 fun n => n := by
    intro o
    cases o with
    | none => rfl
    | some us => by_cases hus : us = [] <;> simp [hus]
  have hold := hcases (e.cached.get? k)
  have hnew := hcases o
  have hf := hcached.weight fun x => size x.1
  have hb := hcached.weight fun x => if x.2 = [] then 0 else size x.1
  have hs := hfreeable.weight (·.2)
  rw [h.unused] at hs
  dsimp only at hf hb hs
  refine ⟨hplain, ?_, ?_, ?_, fun k' => ?_, hnonneg⟩
  · have := h.free
    omega
  · have := h.freeable
    omega
  · have := h.busy
    omega
  · rw [hfreeable.get?, hcached.get?, h.unused]
    by_cases hk : k' = k
    · simp [hk]
    · simp [hk]

/-- What a method other than `allocate` does: it takes no slots and enters no key. -/
structure Keeps (e e' : EncoderCacheManager) : Prop where
  cacheSize : e'.cacheSize = e.cacheSize
  free : e.numFreeSlots ≤ e'.numFreeSlots
  missing : ∀ h, e.cached.get? h = none → e'.cached.get? h = none

theorem Keeps.refl (e : EncoderCacheManager) : Keeps e e := ⟨rfl, le_refl _, fun _ h => h⟩

theorem Keeps.trans (h : Keeps e e') (h' : Keeps e' e'') : Keeps e e'' :=
  ⟨h'.cacheSize.trans h.cacheSize, h.free.trans h'.free, fun k hk => h'.missing k (h.missing k hk)⟩

variable {users : List RequestId} {is : List ℕ}

theorem missing_set {h : MmHash} (users' : List RequestId) (hk : e.cached.get? h = some users)
    (k : MmHash) (hnone : e.cached.get? k = none) : (e.cached.set h users').get? k = none := by
  rw [Dict.get?_set_of_ne _ _ (fun hkh => by rw [hkh, hk] at hnone; cases hnone)]
  exact hnone

/-- An entry that has and keeps users gets others. -/
theorem Accounted.setUsers (h : e.Accounted size) {users' : List RequestId}
    (hk : e.cached.get? k = some users) (hne : users ≠ []) (hne' : users' ≠ []) :
    Accounted size { e with cached := e.cached.set k users' } :=
  h.change h.plain rfl (e.cached.changed_set k users')
    (Dict.changed_same (by simp [h.unused, hk, hne, hne'])) (by simp [hk]) (by simp [hk, hne, hne'])
    h.nonneg

/-- An entry without users gets some. -/
theorem Accounted.use (h : e.Accounted size) (hk : e.cached.get? k = some []) (hne : users ≠ []) :
    e.freeable.get? k = some (size k) ∧
      Accounted size { e with
        freeable := e.freeable.erase k
        numFreeableSlots := e.numFreeableSlots - (size k : ℕ)
        cached := e.cached.set k users } := by
  refine ⟨by rw [h.unused, if_pos hk], h.change h.plain rfl (e.cached.changed_set k users) ?_
    (by simp [hk]) (by simp [hk, hne]) h.nonneg⟩
  rw [if_neg (by simp [hne])]
  exact e.freeable.changed_erase k

/-- An entry loses its users. -/
theorem Accounted.release (h : e.Accounted size) (hk : e.cached.get? k = some users)
    (hne : users ≠ []) :
    Accounted size { e with
      cached := e.cached.set k []
      freeable := e.freeable.set k (size k)
      numFreeableSlots := e.numFreeableSlots + (size k : ℕ) } :=
  h.change h.plain rfl (e.cached.changed_set k []) (e.freeable.changed_set k (size k))
    (by simp [hk]) (by simp [hk, hne]) h.nonneg

/-! ## The methods -/

theorem Accounted.check (h : e.Accounted size) (hf : r.mmFeatures[i]? = some f) :
    ∃ cached e', e.checkAndUpdateCache r i = some (cached, e') ∧ e'.Accounted size ∧ e.Keeps e' ∧
      (cached = false → e' = e ∧ e.cached.get? f.identifier = none) := by
  rw [checkAndUpdateCache, if_neg (by simp [h.plain]), hf]
  simp only [bind, Option.bind_some]
  cases hk : e.cached.get? f.identifier with
  | none => exact ⟨false, e, rfl, h, .refl e, fun _ => ⟨rfl, rfl⟩⟩
  | some users =>
    cases users with
    | nil =>
      obtain ⟨hget, hacc⟩ := h.use hk (cons_ne_nil r.requestId [])
      refine ⟨true, _, ?_, hacc, ⟨rfl, le_refl _, missing_set _ hk⟩, nofun⟩
      rw [hget]
      rfl
    | cons u us =>
      refine ⟨true, _, rfl, h.setUsers hk (cons_ne_nil u us) ?_,
        ⟨rfl, le_refl _, missing_set _ hk⟩, nofun⟩
      exact ne_nil_of_mem (mem_insert_self)

/-- The entries that are left keep their users; those that are gone had none. -/
def Spares (e e' : EncoderCacheManager) : Prop :=
  ∀ h users, e.cached.get? h = some users → users ≠ [] → e'.cached.get? h = some users

theorem Accounted.evict (h : e.Accounted size) {numEmbeds : ℤ}
    (hle : numEmbeds ≤ e.numFreeableSlots) :
    ∃ e', EncoderCacheManager.evict numEmbeds e.freeable.entries e = some e' ∧
      e'.Accounted size ∧ e.Keeps e' ∧ e.Spares e' ∧ numEmbeds ≤ e'.numFreeSlots := by
  obtain ⟨es, hes⟩ : ∃ es, e.freeable.entries = es := ⟨_, rfl⟩
  rw [hes]
  induction es generalizing e with
  | nil =>
    have hsum : e.freeable.weight (·.2) = 0 := by rw [Dict.weight, hes]; rfl
    have hroom : ¬e.numFreeSlots < numEmbeds := by
      have hold := h.freeable
      omega
    rw [EncoderCacheManager.evict, if_neg hroom]
    exact ⟨e, rfl, h, .refl e, fun _ _ hk _ => hk, not_lt.mp hroom⟩
  | cons x es ih =>
    obtain ⟨k, n⟩ := x
    rw [EncoderCacheManager.evict]
    by_cases hroom : e.numFreeSlots < numEmbeds
    · have hmem : (k, n) ∈ e.freeable.entries := by rw [hes]; exact mem_cons_self
      have hget := Dict.get?_of_mem hmem
      have hn := hget
      rw [h.unused] at hn
      split at hn
      case isFalse => cases hn
      rename_i hk
      obtain rfl := Option.some.inj hn
      have hacc : Accounted size { e with
          freeable := e.freeable.erase k
          cached := e.cached.erase k
          freed := e.freed ++ [k]
          numFreeSlots := e.numFreeSlots + (size k : ℕ) } :=
        h.change h.plain rfl (e.cached.changed_erase k) (e.freeable.changed_erase k) (by simp [hk])
          (by simp [hk]) (Int.add_nonneg h.nonneg (Int.natCast_nonneg _))
      have hes' : (e.freeable.erase k).entries = es := by
        have hnd := e.freeable.nodup
        rw [hes, map_cons, nodup_cons] at hnd
        show e.freeable.entries.filter _ = es
        rw [hes, filter_cons_of_neg (by simp)]
        apply filter_eq_self.mpr
        intro y hy
        have hne : y.1 ≠ k := by
          rintro rfl
          exact hnd.1 (mem_map.mpr ⟨y, hy, rfl⟩)
        simpa using hne
      obtain ⟨e', hrun, hacc', hkeeps, hspares, hfits⟩ := ih hacc hle hes'
      have hcontains : e.cached.contains k = true := by rw [Dict.contains, hk]; rfl
      rw [if_pos hroom, if_pos hcontains]
      refine ⟨e', hrun, hacc', ?_, ?_, hfits⟩
      · refine ⟨hkeeps.cacheSize, ?_, ?_⟩
        · omega
        · intro k' hk'
          apply hkeeps.missing
          rw [Dict.get?_erase, hk', ite_self]
      · intro k' users hk' hne
        apply hspares k' users _ hne
        have hkk : k' ≠ k := by
          intro hkk
          rw [hkk, hk] at hk'
          exact hne (Option.some.inj hk').symm
        rw [Dict.get?_erase_of_ne _ hkk, hk']
    · rw [if_neg hroom]
      exact ⟨e, rfl, h, .refl e, fun _ _ hk _ => hk, not_lt.mp hroom⟩

/-- `can_allocate` pops entries without users only, and never more than there are. -/
theorem Accounted.canAllocate (h : e.Accounted size) (hf : r.mmFeatures[i]? = some f)
    (budget toSchedule : ℤ) :
    ∃ fits e', e.canAllocate r i budget toSchedule = some (fits, e') ∧ e'.Accounted size ∧
      e.Keeps e' ∧ e.Spares e' ∧
      (fits = true → f.mmPosition.getNumEmbeds + toSchedule ≤ e'.numFreeSlots) := by
  have hnum : r.getNumEncoderEmbeds i = some f.mmPosition.getNumEmbeds := by
    rw [Request.getNumEncoderEmbeds, hf, Option.map_some]
  rw [EncoderCacheManager.canAllocate, hnum]
  show ∃ fits e', (if budget < f.mmPosition.getNumEmbeds then _ else _) = _ ∧ _
  have hsame : e.Spares e := fun _ _ hk _ => hk
  by_cases hbudget : budget < f.mmPosition.getNumEmbeds
  · rw [if_pos hbudget]
    exact ⟨false, e, rfl, h, .refl e, hsame, nofun⟩
  rw [if_neg hbudget]
  by_cases hroom : f.mmPosition.getNumEmbeds + toSchedule ≤ e.numFreeSlots
  · rw [if_pos hroom]
    exact ⟨true, e, rfl, h, .refl e, hsame, fun _ => hroom⟩
  rw [if_neg hroom]
  by_cases hfreeable : e.numFreeableSlots < f.mmPosition.getNumEmbeds + toSchedule
  · rw [if_pos (Or.inr hfreeable)]
    exact ⟨false, e, rfl, h, .refl e, hsame, nofun⟩
  · rw [if_neg (by simp [h.plain, hfreeable])]
    obtain ⟨e', hrun, hacc, hkeeps, hspares, hfits⟩ := h.evict (not_lt.mp hfreeable)
    refine ⟨true, e', ?_, hacc, hkeeps, hspares, fun _ => hfits⟩
    rw [hrun]
    rfl

/-- The assertions of `allocate` hold if there is room. -/
theorem Accounted.allocate (h : e.Accounted size) (hf : r.mmFeatures[i]? = some f)
    (hsize : f.mmPosition.getNumEmbeds = size f.identifier)
    (hnew : e.cached.get? f.identifier = none) (hroom : (size f.identifier : ℤ) ≤ e.numFreeSlots) :
    ∃ e', e.allocate r i = some e' ∧ e'.Accounted size ∧ e'.cacheSize = e.cacheSize ∧
      e'.numFreeSlots = e.numFreeSlots - (size f.identifier : ℕ) ∧
      ∀ k, k ≠ f.identifier → e'.cached.get? k = e.cached.get? k := by
  have hle : (size f.identifier : ℤ) ≤ e.numFreeableSlots := by
    have hold := h.freeable
    omega
  have hrun : e.allocate r i = some { e with
      cached := e.cached.set f.identifier ((e.cached.getD f.identifier []).insert r.requestId)
      numFreeSlots := e.numFreeSlots - (size f.identifier : ℕ)
      numFreeableSlots := e.numFreeableSlots - (size f.identifier : ℕ) } := by
    rw [EncoderCacheManager.allocate, hf]
    show (if e.encoderDecoder then _ else if _ then _ else none) = _
    rw [if_neg (by simp [h.plain]), hsize, if_pos ⟨hroom, hle⟩]
    rfl
  have hne : (e.cached.getD f.identifier []).insert r.requestId ≠ [] :=
    ne_nil_of_mem mem_insert_self
  refine ⟨_, hrun, h.change h.plain rfl (e.cached.changed_set f.identifier _)
    (Dict.changed_same (by simp [h.unused, hnew, hne])) (by simp [hnew]) (by simp [hnew, hne])
    (Int.sub_nonneg.mpr hroom), rfl, rfl, fun k hk => Dict.get?_set_of_ne _ _ hk⟩

theorem Accounted.freeEncoderInput (h : e.Accounted size) (hf : r.mmFeatures[i]? = some f)
    (hsize : f.mmPosition.getNumEmbeds = size f.identifier) :
    ∃ e', e.freeEncoderInput r i = some e' ∧ e'.Accounted size ∧ e.Keeps e' := by
  rw [EncoderCacheManager.freeEncoderInput, hf]
  show ∃ e', (if e.encoderDecoder then _ else _) = some e' ∧ _
  rw [if_neg (by simp [h.plain])]
  cases hk : e.cached.get? f.identifier with
  | none => exact ⟨e, rfl, h, .refl e⟩
  | some users =>
    cases users with
    | nil => exact ⟨e, rfl, h, .refl e⟩
    | cons u us =>
      dsimp only
      by_cases hlast : (u :: us).erase r.requestId = []
      · rw [if_pos hlast, hlast, hsize]
        exact ⟨_, rfl, h.release hk (cons_ne_nil u us),
          ⟨rfl, le_refl _, missing_set _ hk⟩⟩
      · rw [if_neg hlast]
        exact ⟨_, rfl, h.setUsers hk (cons_ne_nil u us) hlast,
          ⟨rfl, le_refl _, missing_set _ hk⟩⟩

/-! ## Several inputs -/

variable (size) in
/-- Equal hashes have equal sizes. -/
def Sized (fs : List MultiModalFeature) : Prop :=
  ∀ f ∈ fs, f.mmPosition.getNumEmbeds = size f.identifier

theorem Accounted.freeInputs (h : e.Accounted size) (hr : Sized size r.mmFeatures)
    (hrun : EncoderCacheManager.freeInputs r is e = some e') : e'.Accounted size ∧ e.Keeps e' := by
  induction is generalizing e with
  | nil =>
    cases hrun
    exact ⟨h, .refl _⟩
  | cons i is ih =>
    obtain ⟨e1, he1, hrun⟩ := Option.bind_eq_some_iff.mp hrun
    obtain ⟨f, hf, -⟩ := Option.bind_eq_some_iff.mp he1
    obtain ⟨e2, he2, hacc, hkeeps⟩ := h.freeEncoderInput hf (hr f (mem_of_getElem? hf))
    rw [he1, Option.some.injEq] at he2
    subst he2
    obtain ⟨hacc', hkeeps'⟩ := ih hacc hrun
    exact ⟨hacc', hkeeps.trans hkeeps'⟩

/-- The hashes of inputs. -/
def hashesOf (r : Request) (is : List ℕ) : List MmHash :=
  is.filterMap fun i => (r.mmFeatures[i]?).map fun f => f.identifier

theorem hashesOf_cons (hf : r.mmFeatures[i]? = some f) (is : List ℕ) :
    hashesOf r (i :: is) = f.identifier :: hashesOf r is := by
  rw [hashesOf, filterMap_cons_some (by rw [hf]; rfl)]
  rfl

theorem hashesOf_append (is is' : List ℕ) :
    hashesOf r (is ++ is') = hashesOf r is ++ hashesOf r is' := filterMap_append

/-- The inputs `is` of a request can be allocated one after the other. -/
structure Ready (size : MmHash → ℕ) (r : Request) (is : List ℕ) (e : EncoderCacheManager) :
    Prop where
  valid : ∀ i ∈ is, i < r.mmFeatures.length
  nodup : (hashesOf r is).Nodup
  missing : ∀ h ∈ hashesOf r is, e.cached.get? h = none
  room : (((hashesOf r is).map size).sum : ℤ) ≤ e.numFreeSlots

theorem Ready.of_prefix {is' : List ℕ} (h : Ready size r is' e) (hp : is <+: is') :
    Ready size r is e := by
  obtain ⟨rest, rfl⟩ := hp
  have happ := hashesOf_append is rest (r := r)
  have hnodup := h.nodup
  have hroom := h.room
  rw [happ, map_append, sum_append] at hroom
  rw [happ] at hnodup
  constructor
  case valid => exact fun i hi => h.valid i (mem_append_left _ hi)
  case nodup => exact hnodup.of_append_left
  case missing =>
    intro k hk
    exact h.missing k (happ ▸ mem_append_left _ hk)
  case room =>
    omega

theorem Ready.keeps (h : Ready size r is e) (hk : e.Keeps e') :
    Ready size r is e' where
  valid := h.valid
  nodup := h.nodup
  missing k hmem := hk.missing k (h.missing k hmem)
  room := h.room.trans hk.free

/-- **Allocation does not fail** once there is room for all inputs. -/
theorem Accounted.allocateAll (h : e.Accounted size) (hr : Sized size r.mmFeatures)
    (hready : Ready size r is e) :
    ∃ e', EncoderCacheManager.allocateAll r is e = some e' ∧ e'.Accounted size ∧
      e'.cacheSize = e.cacheSize := by
  induction is generalizing e with
  | nil => exact ⟨e, rfl, h, rfl⟩
  | cons i is ih =>
    have hlt := hready.valid i mem_cons_self
    obtain ⟨f, hf⟩ : ∃ f, r.mmFeatures[i]? = some f := ⟨_, getElem?_eq_getElem hlt⟩
    have hhashes := hashesOf_cons hf is
    have hnodup := hready.nodup
    have hroom := hready.room
    rw [hhashes, nodup_cons] at hnodup
    rw [hhashes, map_cons, sum_cons] at hroom
    obtain ⟨e1, he1, hacc, hsize, hfree, hothers⟩ := h.allocate hf
      (hr f (mem_of_getElem? hf))
      (hready.missing _ (hhashes ▸ mem_cons_self)) (by omega)
    have hready' : Ready size r is e1 := by
      constructor
      case valid => exact fun j hj => hready.valid j (mem_cons_of_mem _ hj)
      case nodup => exact hnodup.2
      case missing =>
        intro k hk
        rw [hothers k fun hkf => hnodup.1 (hkf ▸ hk)]
        exact hready.missing k (hhashes ▸ mem_cons_of_mem _ hk)
      case room =>
        omega
    obtain ⟨e', hrun, hacc', hsize'⟩ := ih hacc hready'
    refine ⟨e', ?_, hacc', hsize'.trans hsize⟩
    rw [EncoderCacheManager.allocateAll, he1]
    exact hrun

end EncoderCacheManager

/-! ## One request -/

namespace EncoderTry

open EncoderCacheManager

/-- The inputs that are allocated in the end. -/
def inputs (t : EncoderTry) : List ℕ := t.encoderInputsToSchedule ++ t.externalLoadEncoderInput

variable {size : MmHash → ℕ} {slots : ℕ} {cfg : SchedulerConfig} {a : Answers} {r : Request}
  {c shift : ℤ} {i : ℕ} {f : MultiModalFeature} {t t' : EncoderTry} {goOn : Bool}

/-- In the loop: the items that are to be scheduled are not cached, and there is room for them. -/
structure Reserved (size : MmHash → ℕ) (slots : ℕ) (r : Request) (t : EncoderTry) : Prop where
  cacheSize : t.enc.cacheSize = slots
  accounted : t.enc.Accounted size
  missing : ∀ h ∈ t.mmHashesToSchedule, t.enc.cached.get? h = none
  nodup : t.mmHashesToSchedule.Nodup
  total : t.numEmbedsToSchedule = (t.mmHashesToSchedule.map size).sum
  room : t.numEmbedsToSchedule ≤ t.enc.numFreeSlots
  valid : ∀ i ∈ t.inputs, i < r.mmFeatures.length
  hashes : (hashesOf r t.inputs).Perm t.mmHashesToSchedule

theorem Reserved.ready (h : Reserved size slots r t) : Ready size r t.inputs t.enc where
  valid := h.valid
  nodup := h.hashes.nodup_iff.mpr h.nodup
  missing k hk := h.missing k (h.hashes.mem_iff.mp hk)
  room := by
    rw [(h.hashes.map size).sum_eq, ← h.total]
    exact h.room

/-- The encoder cache evicts entries, or the request becomes a user of one. -/
theorem Reserved.keeps (h : Reserved size slots r t) {enc : EncoderCacheManager}
    (hacc : enc.Accounted size) (hk : t.enc.Keeps enc) : Reserved size slots r { t with enc } where
  cacheSize := hk.cacheSize.trans h.cacheSize
  accounted := hacc
  missing k hmem := hk.missing k (h.missing k hmem)
  nodup := h.nodup
  total := h.total
  room := h.room.trans hk.free
  valid := h.valid
  hashes := h.hashes

theorem Reserved.withTokens (h : Reserved size slots r t) (n : ℤ) :
    Reserved size slots r { t with numNewTokens := n } :=
  ⟨h.1, h.2, h.3, h.4, h.5, h.6, h.7, h.8⟩

/-- One more item, for which there is room. -/
theorem Reserved.add (h : Reserved size slots r t) (hr : Sized size r.mmFeatures)
    (hf : r.mmFeatures[i]? = some f) (hnew : f.identifier ∉ t.mmHashesToSchedule)
    (hmissing : t.enc.cached.get? f.identifier = none)
    (hroom : f.mmPosition.getNumEmbeds + t.numEmbedsToSchedule ≤ t.enc.numFreeSlots)
    (henc : t'.enc = t.enc)
    (hhashes : t'.mmHashesToSchedule = t.mmHashesToSchedule ++ [f.identifier])
    (htotal : t'.numEmbedsToSchedule = t.numEmbedsToSchedule + f.mmPosition.getNumEmbeds)
    (hinputs : t'.inputs.Perm (i :: t.inputs)) : Reserved size slots r t' where
  cacheSize := henc ▸ h.cacheSize
  accounted := henc ▸ h.accounted
  missing k hk := by
    rw [henc]
    rw [hhashes, mem_append, mem_singleton] at hk
    rcases hk with hk | rfl
    · exact h.missing k hk
    · exact hmissing
  nodup := by
    rw [hhashes]
    exact (nodup_append_comm.mp (nodup_cons.mpr ⟨hnew, h.nodup⟩))
  total := by
    rw [htotal, hhashes, map_append, sum_append, h.total, hr f (mem_of_getElem? hf)]
    simp
  room := by
    rw [htotal, henc]
    omega
  valid j hj := by
    rcases mem_cons.mp (hinputs.mem_iff.mp hj) with rfl | hj
    · exact (List.getElem?_eq_some_iff.mp hf).1
    · exact h.valid j hj
  hashes := by
    rw [hhashes]
    have hperm : (hashesOf r t'.inputs).Perm (hashesOf r (i :: t.inputs)) := hinputs.filterMap _
    rw [hashesOf_cons hf] at hperm
    exact hperm.trans ((h.hashes.cons _).trans (perm_append_singleton _ _).symm)

theorem Reserved.schedule (h : Reserved size slots r t) (hr : Sized size r.mmFeatures)
    (hf : r.mmFeatures[i]? = some f) (hnew : f.identifier ∉ t.mmHashesToSchedule)
    (hmissing : t.enc.cached.get? f.identifier = none)
    (hroom : f.mmPosition.getNumEmbeds + t.numEmbedsToSchedule ≤ t.enc.numFreeSlots)
    (hrun : t.schedule a c i f = some (goOn, t')) : Reserved size slots r t' := by
  obtain ⟨⟨x, y⟩, -, hrun⟩ := Option.bind_eq_some_iff.mp hrun
  dsimp only at hrun
  split at hrun
  · cases hrun
    exact h
  · split at hrun
    · cases hrun
      refine h.add hr hf hnew hmissing hroom rfl rfl rfl ?_
      show (t.encoderInputsToSchedule ++ (t.externalLoadEncoderInput ++ [i])).Perm _
      rw [← append_assoc]
      exact perm_append_singleton _ _
    · cases hrun
      refine h.add hr hf hnew hmissing hroom rfl rfl rfl ?_
      show (t.encoderInputsToSchedule ++ [i] ++ t.externalLoadEncoderInput).Perm _
      rw [append_assoc]
      exact perm_middle

theorem Reserved.reserve (h : Reserved size slots r t) (hr : Sized size r.mmFeatures)
    (hf : r.mmFeatures[i]? = some f) (hnew : f.identifier ∉ t.mmHashesToSchedule)
    (hmissing : t.enc.cached.get? f.identifier = none)
    (hrun : t.reserve cfg a r c shift i f = some (goOn, t')) : Reserved size slots r t' := by
  unfold EncoderTry.reserve at hrun
  dsimp only at hrun
  split at hrun
  · cases hrun
    exact h.withTokens _
  · obtain ⟨⟨fits, enc⟩, hcan, hrun⟩ := Option.bind_eq_some_iff.mp hrun
    obtain ⟨fits', enc', hcan', hacc, hkeeps, -, hroom⟩ := h.accounted.canAllocate hf
      t.encoderComputeBudget t.numEmbedsToSchedule
    rw [hcan, Option.some.injEq, Prod.mk.injEq] at hcan'
    obtain ⟨rfl, rfl⟩ := hcan'
    cases fits with
    | true =>
      exact (h.keeps hacc hkeeps).schedule hr hf hnew (hkeeps.missing _ hmissing) (hroom rfl) hrun
    | false =>
      cases hrun
      exact (h.keeps hacc hkeeps).withTokens _

/-- One item. -/
theorem Reserved.item (h : Reserved size slots r t) (hcfg : cfg.isEncoderDecoder = false)
    (hr : Sized size r.mmFeatures) (hf : r.mmFeatures[i]? = some f)
    (hrun : t.item cfg a r c shift i f = some (goOn, t')) : Reserved size slots r t' := by
  unfold EncoderTry.item at hrun
  rw [hcfg] at hrun
  simp only [Bool.false_eq_true, false_and, if_false] at hrun
  split at hrun
  · cases hrun
    exact h
  · split at hrun
    · cases hrun
      exact h
    · split at hrun
      · cases hrun
        exact h
      · rename_i hnew
        obtain ⟨⟨cached, enc⟩, hcheck, hrun⟩ := Option.bind_eq_some_iff.mp hrun
        obtain ⟨cached', enc', hcheck', hacc, hkeeps, hfalse⟩ := h.accounted.check hf
        rw [hcheck, Option.some.injEq, Prod.mk.injEq] at hcheck'
        obtain ⟨rfl, rfl⟩ := hcheck'
        cases cached with
        | true =>
          cases hrun
          exact h.keeps hacc hkeeps
        | false =>
          obtain ⟨-, hmissing⟩ := hfalse rfl
          exact (h.keeps hacc hkeeps).reserve hr hf hnew (hkeeps.missing _ hmissing) hrun

/-- The turns of the loop: the items before the `i`-th are handled. -/
inductive At (cfg : SchedulerConfig) (a : Answers) (r : Request) (c shift : ℤ) (t0 : EncoderTry) :
    ℕ → EncoderTry → Prop
  | start : At cfg a r c shift t0 0 t0
  | next {i : ℕ} {f : MultiModalFeature} {t t' : EncoderTry} : At cfg a r c shift t0 i t →
      r.mmFeatures[i]? = some f → t.item cfg a r c shift i f = some (true, t') →
      At cfg a r c shift t0 (i + 1) t'

theorem At.reserved {t0 : EncoderTry} (h : At cfg a r c shift t0 i t)
    (hcfg : cfg.isEncoderDecoder = false) (hr : Sized size r.mmFeatures)
    (h0 : Reserved size slots r t0) : Reserved size slots r t := by
  induction h with
  | start => exact h0
  | next _ hf hitem ih => exact ih.item hcfg hr hf hitem

theorem reserved_start {enc : EncoderCacheManager} (h : enc.Accounted size) (n budget : ℤ) :
    Reserved size enc.cacheSize r { enc, numNewTokens := n, encoderComputeBudget := budget } where
  cacheSize := rfl
  accounted := h
  missing _ hk := absurd hk not_mem_nil
  nodup := nodup_nil
  total := rfl
  room := h.nonneg
  valid _ hi := absurd hi not_mem_nil
  hashes := .refl _

/-- The rule for the loop over the items. -/
theorem loop_invariant (Inv : EncoderTry → Prop)
    (hinv : ∀ i f t goOn t', r.mmFeatures[i]? = some f → Inv t →
      t.item cfg a r c shift i f = some (goOn, t') → Inv t')
    {fs : List MultiModalFeature} (hfs : r.mmFeatures.drop i = fs)
    (hrun : t.loop cfg a r c shift i fs = some t') (h : Inv t) : Inv t' := by
  induction fs generalizing i t with
  | nil =>
    cases hrun
    exact h
  | cons f fs ih =>
    obtain ⟨⟨goOn, t1⟩, hitem, hrun⟩ := Option.bind_eq_some_iff.mp hrun
    have hf : r.mmFeatures[i]? = some f := by
      rw [← head?_drop, hfs, head?_cons]
    have h1 := hinv i f t goOn t1 hf h hitem
    cases goOn with
    | true =>
      refine ih ?_ hrun h1
      rw [← tail_drop, hfs, tail_cons]
    | false =>
      cases hrun
      exact h1

end EncoderTry

theorem tryScheduleEncoderInputs_invariant (Inv : EncoderTry → Prop) {cfg : SchedulerConfig}
    {a : Answers} {enc : EncoderCacheManager} {r : Request} {c n budget : ℤ} {t : EncoderTry}
    (hinv : ∀ shift i f t goOn t', r.mmFeatures[i]? = some f → Inv t →
      t.item cfg a r c shift i f = some (goOn, t') → Inv t')
    (hstart : Inv { enc, numNewTokens := n, encoderComputeBudget := budget })
    (hrun : tryScheduleEncoderInputs cfg a enc r c n budget = some t) : Inv t := by
  unfold tryScheduleEncoderInputs at hrun
  split at hrun
  · cases hrun
    exact hstart
  · exact EncoderTry.loop_invariant Inv (hinv _) rfl hrun hstart

/-- **What `_try_schedule_encoder_inputs` leaves**: room for all inputs that it chose. -/
theorem tryScheduleEncoderInputs_reserved {size : MmHash → ℕ} {cfg : SchedulerConfig} {a : Answers}
    {enc : EncoderCacheManager} {r : Request} {c n budget : ℤ} {t : EncoderTry}
    (hcfg : cfg.isEncoderDecoder = false) (hr : EncoderCacheManager.Sized size r.mmFeatures)
    (h : enc.Accounted size) (hrun : tryScheduleEncoderInputs cfg a enc r c n budget = some t) :
    EncoderTry.Reserved size enc.cacheSize r t :=
  tryScheduleEncoderInputs_invariant _ (fun _ _ _ _ _ _ hf h hitem => h.item hcfg hr hf hitem)
    (EncoderTry.reserved_start h n budget) hrun

end Nvllm.Sched
