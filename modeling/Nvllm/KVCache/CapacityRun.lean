import Nvllm.KVCache.CapacityGrow

/-! # The capacity check is sufficient

`allocate_slots` first removes skipped blocks, then asks every group how many blocks it will need
and compares the sum with the number of free blocks. If the check passes, nothing may go wrong any
more; if it fails, nothing but the skipped blocks may have changed.

This holds in every run whose calls the groups foresee. It fails for the align mode of mamba: after
rejected drafts a call may ask for fewer tokens than the table covers. The group then announces a
negative number, the check passes, and `allocate_new_blocks` asserts that the table is not too long.
-/

namespace Nvllm.KVCache

open BlockPool Nvllm.Run List

/-- The constructor of the coordinator has checked the block sizes. -/
theorem KVCacheConfig.blockSize_mod (c : KVCacheConfig) (h : c.supported = true)
    (hc : c.enableCaching = true) {i : ℕ} {spec : KVCacheSpec} (hi : c.specs[i]? = some spec)
    (j : ℕ) :
    (Manager.init spec c.worldSize c.enableCaching j).blockSize % c.hashBlockSize = 0 := by
  simp only [supported, hc, Bool.not_true, Bool.false_or] at h
  split at h
  · rename_i spec0 hspecs
    rw [hspecs] at hi
    obtain rfl : spec0 = spec := mem_singleton.mp (mem_of_getElem? hi) |>.symm
    have hsize : c.hashBlockSize = (Manager.init spec0 c.worldSize true 0).blockSize := by
      simpa using h
    rw [hsize]
    exact Nat.mod_self _
  · simp only [Bool.and_eq_true, all_eq_true, beq_iff_eq, decide_eq_true_eq] at h
    obtain ⟨⟨hsizes, hworld⟩, -⟩ := h
    have hsize : (Manager.init spec c.worldSize c.enableCaching j).blockSize = spec.blockSize := by
      exact if_neg (by show ¬ 1 < c.worldSize; omega)
    rw [hsize]
    exact hsizes spec (mem_of_getElem? hi)

namespace KVCacheManager

/-! ## The property of one call -/

/-- The computed tokens for which skipped blocks are removed. -/
def computedTokens (k : KVCacheManager) (r : KVRequest) (n : ℕ) (a : SlotArgs) : ℕ :=
  (min (r.numComputedTokens + n + a.numExternalComputedTokens) k.maxModelLen).toNat

/-- `num_blocks_to_allocate` of a call. -/
def numBlocksToAllocate (k : KVCacheManager) (r : KVRequest) (n : ℕ) (hits : List (List BlockId))
    (a : SlotArgs) : Option ℤ :=
  let numLocal := r.numComputedTokens + n
  let numTokensMainModel :=
    min (numLocal + a.numExternalComputedTokens) k.maxModelLen + a.numNewTokens
  let numTokensNeedSlot := min (numTokensMainModel + a.numLookaheadTokens) k.maxModelLen
  sumBlocksToAllocate k.pool r.requestId numTokensNeedSlot.toNat a.numEncoderTokens
    (numLocal + a.numExternalComputedTokens).toNat numTokensMainModel.toNat k.managers hits

/-- **The check is sufficient** for a call: removing skipped blocks leads to `k1`, where `need`
blocks are announced. If they are free, the call returns and has taken no more than that; if not,
the call returns nothing and only skipped blocks have been removed. -/
structure CapacitySound (k : KVCacheManager) (r : KVRequest) (n : ℕ) (hits : List (List BlockId))
    (a : SlotArgs) (k1 : KVCacheManager) (need : ℤ) : Prop where
  removed : k.removeSkippedBlocks r.requestId (k.computedTokens r n a) = some k1
  announced : k1.numBlocksToAllocate r n hits a = some need
  granted : need ≤ k1.pool.getNumFreeBlocks → ∃ news k',
    k.allocateSlots r n hits a = some (some news, k') ∧
      k1.pool.getNumFreeBlocks - k'.pool.getNumFreeBlocks ≤ need
  refused : k1.pool.getNumFreeBlocks < need →
    k.allocateSlots r n hits a = some (none, k1) ∧
      OnlySkipped k k1 r.requestId (k.computedTokens r n a)

section

variable {k k1 k' : KVCacheManager} {r : KVRequest} {n : ℕ} {hits : List (List BlockId)}
  {a : SlotArgs}

/-- `allocate_slots` in terms of its three parts. -/
theorem allocateSlots_eq (hits : List (List BlockId))
    (hasks : ¬ (a.numNewTokens = 0 ∧ a.numExternalComputedTokens = 0))
    (he : k.removeSkippedBlocks r.requestId (k.computedTokens r n a) = some k1) :
    k.allocateSlots r n hits a = (k1.numBlocksToAllocate r n hits a).bind fun need =>
      if k1.pool.getNumFreeBlocks < need then some (none, k1)
      else (k1.grow r n hits a).map fun q => (some q.1, q.2) := by
  have hmax : k1.maxModelLen = k.maxModelLen := onManagers_maxModelLen he
  unfold computedTokens at he
  rw [allocateSlots, if_neg hasks]
  simp only [he, bind, Option.bind_some, numBlocksToAllocate, hmax]
  congr 1
  funext need
  split
  · rfl
  · cases k1.grow r n hits a <;> rfl

theorem numBlocksToAllocate_eq (hcomp : 0 ≤ r.numComputedTokens) (hnew : 0 ≤ a.numNewTokens)
    (hroom : localTokens r n + a.numExternalComputedTokens ≤ k.maxModelLen) :
    k.numBlocksToAllocate r n hits a = sumBlocksToAllocate k.pool r.requestId (k.slotTokens r n a)
      a.numEncoderTokens (localTokens r n + a.numExternalComputedTokens) (mainTokens r n a)
      k.managers hits := by
  obtain ⟨hlocal, hmain, hslots⟩ := counts_eq hcomp hnew hroom
  simp only [numBlocksToAllocate, hlocal, hmain, hslots]
  congr 1

/-- The condition for each group. -/
theorem groupReady_of_foreseen (h : k.Ready) {withHits : Bool}
    (hhits : k.hitsFor r withHits = some (hits, n)) (hs : k.Scheduled r n hits a)
    (hf : k.Foreseen r n hits a) : Forall₂ (GroupReady k.pool r n hits a) k.managers hits := by
  have hok := hitsFor_ok h.inv hhits
  -- without prefix caching there are no hits
  have hoff : k.enableCaching = false → ∀ hs ∈ hits, hs = [] := by
    intro hc hs hmem
    have hempty : hits = k.emptyHits := by
      unfold hitsFor at hhits
      split at hhits
      · rw [getComputedBlocks, if_pos (.inl hc)] at hhits
        cases hhits
        rfl
      · cases hhits
        rfl
    rw [hempty, emptyHits, mem_map] at hmem
    obtain ⟨m, -, rfl⟩ := hmem
    rfl
  obtain ⟨hlen, hfits⟩ := forall₂_iff_zip.mp hf.fits
  obtain ⟨-, halign⟩ := forall₂_iff_zip.mp hf.align
  refine forall₂_iff_zip.mpr ⟨hlen, fun {m hs'} hzip => ?_⟩
  obtain ⟨hm, hmem⟩ := of_mem_zip hzip
  refine ⟨hok hs' hmem, fun hc => hoff (h.configured.managers m hm ▸ hc) hs' hmem,
    fun hcross => ?_, hfits hzip, hf.speculation m hm, fun hadds => hs.fresh hadds m hm,
    fun hadds => ⟨?_, hs.covered hadds m hm⟩, halign hzip⟩
  · by_cases hc : k.enableCaching = true
    · rw [hf.cross hc m hm] at hcross
      cases hcross
    · exact hoff (by simpa using hc) hs' hmem
  · by_contra hne
    exact hadds (.inl (any_eq_true.mpr ⟨hs', hmem, by simpa using hne⟩))

/-- **One call.** In a state with the invariant, a scheduled call that the groups foresee passes or
fails the check, never raises, and the invariant holds afterwards. -/
theorem capacitySound_of_ready (h : k.Ready) {withHits : Bool}
    (hhits : k.hitsFor r withHits = some (hits, n)) (hs : k.Scheduled r n hits a)
    (hf : k.Foreseen r n hits a) :
    ∃ k1 need, CapacitySound k r n hits a k1 need ∧
      ∀ res k', k.allocateSlots r n hits a = some (res, k') → k'.Ready := by
  obtain ⟨k1, hk1⟩ := removeSkippedBlocks_some h.inv h.aligned r.requestId (k.computedTokens r n a)
  have hskipped := removeSkippedBlocks_onlySkipped h.inv h.aligned hk1
  have h1 := removeSkippedBlocks_ready h hk1
  -- the call is the same for the state without the skipped blocks
  have hready : Forall₂ (GroupReady k1.pool r n hits a) k1.managers hits :=
    forall₂_transfer hskipped.groups (groupReady_of_foreseen h hhits hs hf)
      fun m m' hs' hm hgroup => hgroup.of_shrunk hm hskipped.shape
  have hroom : localTokens r n + a.numExternalComputedTokens ≤ k1.maxModelLen :=
    hskipped.maxModelLen ▸ hs.room
  have hslots : localTokens r n + a.numExternalComputedTokens ≤ k1.slotTokens r n a := by
    unfold slotTokens mainTokens
    omega
  have hqueued := h1.inv.ref.queued h1.inv.hash
  obtain ⟨hlen, hzip⟩ := forall₂_iff_zip.mp hready
  obtain ⟨need, hneed, h0, hle⟩ := sumBlocksToAllocate_some (N := k1.pool.numGpuBlocks)
    (forall₂_iff_zip.mpr ⟨hlen, fun {m hs'} hmem => (hzip hmem).announced hqueued hslots
      (h1.aligned m (of_mem_zip hmem).1)⟩)
  have hannounced : k1.numBlocksToAllocate r n hits a = some need := by
    rw [numBlocksToAllocate_eq hs.computed hs.new hroom, hneed]
  have hfree := h1.inv.ref.getNumFreeBlocks_eq
  have heq := allocateSlots_eq hits hs.asks hk1
  rw [hannounced, Option.bind_some] at heq
  by_cases hcheck : k1.pool.getNumFreeBlocks < need
  · rw [if_pos hcheck] at heq
    refine ⟨k1, need, ⟨hk1, hannounced, fun hle => absurd hcheck (not_lt.mpr hle),
      fun _ => ⟨heq, hskipped⟩⟩, fun res k' he => ?_⟩
    rw [heq] at he
    cases he
    exact h1
  · rw [if_neg hcheck] at heq
    have hlt := hqueued.length_lt h1.inv.ref.null_lt
    have hcost := hle (by omega)
    change ((k1.totalCost r n hits a : ℕ) : ℤ) ≤ need at hcost
    obtain ⟨news, k', hgrow, hready', htaken⟩ := grow_some h1 hready hs.computed hs.new hs.asks
      hroom (fun hc => by
        rw [hskipped.shape.hashBlockSize]
        exact hs.hashes (hskipped.enableCaching ▸ hc))
      (fun hc m' hm' => by
        obtain ⟨m, hm, hshrunk⟩ := forall₂_mem_right hskipped.groups hm'
        rw [hshrunk.config.spec]
        exact hf.cross (hskipped.enableCaching ▸ hc) m hm) (by omega)
    rw [hgrow] at heq
    refine ⟨k1, need, ⟨hk1, hannounced, fun _ => ⟨news, k', heq, ?_⟩,
      fun hlt => absurd hlt hcheck⟩, fun res k'' he => ?_⟩
    · rw [hfree, hready'.inv.ref.getNumFreeBlocks_eq]
      omega
    · rw [heq] at he
      cases he
      exact hready'

end

/-! ## The other methods -/

section

variable {k k' : KVCacheManager} {r : RequestId}

theorem free_ready (h : k.Ready) (he : k.free r = some k') : k'.Ready :=
  onManagers_ready h (fun m hm _ _ _ _ hgood hR =>
      ⟨Manager.free_keeps hgood hR, Manager.free_aligned (h.aligned m hm) hR⟩)
    (fun _ _ _ _ _ _ _ hgood ht hR => Manager.free_tidy hgood ht hR) he

/-- Hashes may disappear at any time. -/
theorem Ready.of_hashes {p : BlockPool} (h : k.Ready) (hs : k.pool.SameShape p)
    (hinv : ({ k with pool := p } : KVCacheManager).Inv)
    (hhash : ∀ c key, (p.block c).blockHash = some key →
      (k.pool.block c).blockHash = some key) : ({ k with pool := p } : KVCacheManager).Ready := by
  have hnone : ∀ b, (k.pool.block b).blockHash = none → (p.block b).blockHash = none := by
    intro b hb
    by_contra hsome
    obtain ⟨key, hkey⟩ := Option.ne_none_iff_exists'.mp hsome
    rw [hhash b key hkey] at hb
    cases hb
  refine ⟨hinv, h.configured.of_same rfl hs (forall₂_same.mpr fun m _ => .refl m), h.aligned,
    fun hc => ⟨fun m hm => ?_, ?_, fun b hb => hb.elim⟩⟩
  · exact ((h.tidy hc).each m hm).of_subset hs.nullBlock (fun _ _ hb _ => hb) hnone
  · rw [hs.nullBlock]
    exact (h.tidy hc).apart

theorem evictBlocks_ready {bs : List BlockId} (h : k.Ready) (he : k.evictBlocks bs = some k') :
    k'.Ready := by
  have hinv := evictBlocks_inv h.inv he
  simp only [evictBlocks, bind, Option.bind_eq_some_iff] at he
  obtain ⟨p, hp, he⟩ := he
  cases he
  obtain ⟨hs, -, -, hhash⟩ := evictBlocks_spec h.inv.hash hp
  exact h.of_hashes hs hinv hhash

theorem resetPrefixCache_ready (h : k.Ready) : k.resetPrefixCache.2.Ready := by
  obtain ⟨hs, -, -, hhash⟩ := resetPrefixCache_spec h.inv.hash
  exact h.of_hashes hs (resetPrefixCache_inv h.inv) hhash

theorem newStepStarts_ready (h : k.Ready) : k.newStepStarts.Ready := by
  have hback : ∀ m' ∈ k.newStepStarts.managers, ∃ m ∈ k.managers, m' = m.newStepStarts := by
    intro m' hm'
    obtain ⟨m, hm, rfl⟩ := mem_map.mp hm'
    exact ⟨m, hm, rfl⟩
  refine ⟨newStepStarts_inv h.inv, ⟨h.configured.pool, fun m' hm' => ?_, fun hc m' hm' => ?_⟩,
    fun m' hm' => ?_, fun hc => ⟨fun m' hm' => ?_, ?_, fun b hb => hb.elim⟩⟩
  · obtain ⟨m, hm, rfl⟩ := hback m' hm'
    exact h.configured.managers m hm
  · obtain ⟨m, hm, rfl⟩ := hback m' hm'
    exact h.configured.sizes hc m hm
  · obtain ⟨m, hm, rfl⟩ := hback m' hm'
    exact fun s hs r => ⟨(h.aligned m hm s hs r).1, (h.aligned m hm s hs r).2,
      (h.aligned m hm s hs r).3⟩
  · obtain ⟨m, hm, rfl⟩ := hback m' hm'
    exact ((h.tidy hc).each m hm).of_subset rfl (fun _ _ hb _ => hb) fun _ hb => hb
  · show (k.managers.map Manager.newStepStarts).Pairwise _
    rw [pairwise_map]
    exact (h.tidy hc).apart

/-- A new manager has no tables. -/
theorem init_ready {c : KVCacheConfig} (h : init c = some k) : k.Ready := by
  have hinv := init_inv h
  unfold init at h
  split at h
  · rename_i hsupported
    simp only [bind, Option.bind_eq_some_iff] at h
    obtain ⟨p, hp, h⟩ := h
    cases h
    obtain ⟨-, -, -, hcaching, hsize, -⟩ := init_spec hp
    have hback : ∀ m ∈ c.specs.mapIdx
        (fun i spec => Manager.init spec c.worldSize c.enableCaching i), ∃ i spec,
        c.specs[i]? = some spec ∧ m = Manager.init spec c.worldSize c.enableCaching i := by
      intro m hm
      obtain ⟨i, hi, rfl⟩ := mem_mapIdx.mp hm
      exact ⟨i, _, getElem?_eq_getElem hi, rfl⟩
    have hclosed : ∀ m ∈ c.specs.mapIdx
        (fun i spec => Manager.init spec c.worldSize c.enableCaching i), ∀ r b,
        b ∉ m.openBlocks r := by
      intro m hm r b hb
      obtain ⟨i, spec, -, rfl⟩ := hback m hm
      cases hb
    refine ⟨hinv, ⟨hcaching, fun m hm => ?_, fun hc m hm => ?_⟩, fun m hm s _ r => ?_,
      fun _ => ⟨fun m hm => ⟨fun r b hb => absurd hb (hclosed m hm r b),
        fun r r' b hb => absurd hb (hclosed m hm r b), fun b hb => hb.elim⟩, ?_,
        fun b hb => hb.elim⟩⟩
    · obtain ⟨i, spec, -, rfl⟩ := hback m hm
      rfl
    · obtain ⟨i, spec, hi, rfl⟩ := hback m hm
      rw [hsize]
      exact c.blockSize_mod hsupported hc hi i
    · obtain ⟨i, spec, -, rfl⟩ := hback m hm
      refine ⟨fun n hn => ?_, fun hr => absurd hr not_mem_nil, fun idx hidx => ?_⟩
      · cases hn
      · cases hidx
    · rw [pairwise_iff_getElem]
      intro i j hi hj _ r r' b hb
      exact absurd hb (hclosed _ (getElem_mem hi) r b)
  · cases h

end

/-! ## Runs -/

/-- A call of `allocate_slots` is made as the scheduler makes it. -/
def CallScheduled (k : KVCacheManager) : Call → Prop
  | .allocateSlots r withHits a => ∀ hits n, k.hitsFor r withHits = some (hits, n) →
      k.Scheduled r n hits a
  | _ => True

/-- The groups foresee the call as well; `cache_blocks` caches no more tokens of an align group
than lie in front of its speculative blocks. -/
def CallForeseen (k : KVCacheManager) : Call → Prop
  | .allocateSlots r withHits a => ∀ hits n, k.hitsFor r withHits = some (hits, n) →
      k.Scheduled r n hits a ∧ k.Foreseen r n hits a
  | .cacheBlocks r n => ∀ m ∈ k.managers, ∀ s, m.spec.kind = .mamba .align s →
      n / m.blockSize + s ≤ (m.table r.requestId).length
  | _ => True

theorem step_ready {k k' : KVCacheManager} {c : Call} (h : k.Ready) (hc : k.CallForeseen c)
    (he : k.step c = some k') : k'.Ready := by
  cases c with
  | allocateSlots r withHits a =>
    simp only [step, bind, Option.bind_eq_some_iff] at he
    obtain ⟨⟨hits, n⟩, hhits, ⟨res, k1⟩, hslots, he⟩ := he
    cases he
    obtain ⟨hs, hf⟩ := hc hits n hhits
    obtain ⟨-, -, -, hready⟩ := capacitySound_of_ready h hhits hs hf
    exact hready _ _ hslots
  | free r => exact free_ready h he
  | cacheBlocks r n =>
    change k.cacheBlocks r n = some k' at he
    unfold cacheBlocks at he
    split at he
    · exact (commitBlocks_ready h hc he).1
    · cases he
      exact h
  | removeSkippedBlocks r n => exact removeSkippedBlocks_ready h he
  | evictBlocks bs => exact evictBlocks_ready h he
  | resetPrefixCache =>
    cases he
    exact resetPrefixCache_ready h
  | newStepStarts =>
    cases he
    exact newStepStarts_ready h

/-- **The capacity check is sufficient.** In every state of a run whose calls are scheduled and
foreseen, every further such call of `allocate_slots` announces at least what it takes, never raises
once the check has passed, and changes nothing but skipped blocks if the check fails. -/
theorem capacitySound_of_foreseen {c : KVCacheConfig} {k0 k : KVCacheManager}
    (h0 : init c = some k0) (h : Reach step CallForeseen k0 k) {r : KVRequest} {withHits : Bool}
    {a : SlotArgs} (hc : k.CallForeseen (.allocateSlots r withHits a)) {n : ℕ}
    {hits : List (List BlockId)} (hhits : k.hitsFor r withHits = some (hits, n)) :
    ∃ k1 need, k.CapacitySound r n hits a k1 need := by
  have hready := h.invariant Ready (init_ready h0) fun _ _ _ hi hc he => step_ready hi hc he
  obtain ⟨hs, hf⟩ := hc hits n hhits
  obtain ⟨k1, need, hsound, -⟩ := capacitySound_of_ready hready hhits hs hf
  exact ⟨k1, need, hsound⟩

/-! ## Conditions that can be checked -/

instance (kind : SpecKind) (P : ℕ → Prop) [∀ s, Decidable (P s)] :
    Decidable (∀ s, kind = .mamba .align s → P s) :=
  match kind with
  | .mamba .align s => decidable_of_iff (P s)
      ⟨fun h s' hs => by cases hs; exact h, fun h => h s rfl⟩
  | .mamba .off _ | .mamba .all _ | .full _ | .slidingWindow _ | .chunkedLocal _
  | .crossAttention => isTrue fun s hs => by cases hs

instance (kind : SpecKind) (P : MambaCacheMode → ℕ → Prop) [∀ mode s, Decidable (P mode s)] :
    Decidable (∀ mode s, kind = .mamba mode s → P mode s) :=
  match kind with
  | .mamba mode s => decidable_of_iff (P mode s)
      ⟨fun h mode' s' hs => by cases hs; exact h, fun h => h mode s rfl⟩
  | .full _ | .slidingWindow _ | .chunkedLocal _ | .crossAttention =>
    isTrue fun mode s hs => by cases hs

instance (m : Manager) : Decidable m.SameSpeculation :=
  inferInstanceAs (Decidable (∀ mode s, m.spec.kind = .mamba mode s → _ → _))

instance (k : KVCacheManager) (r : KVRequest) (n : ℕ) (hits : List (List BlockId))
    (a : SlotArgs) : Decidable (k.Scheduled r n hits a) :=
  decidable_of_iff' _ (scheduled_iff k r n hits a)

instance (r : KVRequest) (n : ℕ) (a : SlotArgs) (m : Manager) (s : ℕ) (hs : List BlockId) :
    Decidable (AlignForeseen r n a m s hs) :=
  decidable_of_iff' _ (alignForeseen_iff r n a m s hs)

instance (m : Manager) (r : RequestId) (hs : List BlockId) (numLocal numExternal : ℕ) :
    Decidable (m.Fits r hs numLocal numExternal) :=
  inferInstanceAs (Decidable (_ → _ → _ → _))

instance (k : KVCacheManager) (r : RequestId) (hits : List (List BlockId))
    (numLocal numExternal : ℕ) : Decidable (k.HitsFit r hits numLocal numExternal) :=
  inferInstanceAs (Decidable (Forall₂ _ _ _))

instance (k : KVCacheManager) (r : KVRequest) (n : ℕ) (hits : List (List BlockId))
    (a : SlotArgs) : Decidable (k.Foreseen r n hits a) :=
  decidable_of_iff' _ (foreseen_iff k r n hits a)

/-- A condition on the hits of a call. -/
instance (k : KVCacheManager) (r : KVRequest) (withHits : Bool)
    (P : List (List BlockId) → ℕ → Prop) [∀ hits n, Decidable (P hits n)] :
    Decidable (∀ hits n, k.hitsFor r withHits = some (hits, n) → P hits n) :=
  match h : k.hitsFor r withHits with
  | none => isTrue fun _ _ he => by cases he
  | some (hits, n) => decidable_of_iff (P hits n)
      ⟨fun hp hits' n' he => by cases he; exact hp, fun hall => hall hits n rfl⟩

instance (k : KVCacheManager) (c : Call) : Decidable (k.CallScheduled c) :=
  match c with
  | .allocateSlots _ _ _ => inferInstanceAs (Decidable (∀ _ _, _ → _))
  | .free _ | .cacheBlocks _ _ | .removeSkippedBlocks _ _ | .evictBlocks _ | .resetPrefixCache
  | .newStepStarts => isTrue trivial

instance (k : KVCacheManager) (c : Call) : Decidable (k.CallForeseen c) :=
  match c with
  | .allocateSlots _ _ _ => inferInstanceAs (Decidable (∀ _ _, _ → _ ∧ _))
  | .cacheBlocks _ _ => inferInstanceAs (Decidable (∀ m ∈ _, ∀ _, _ → _))
  | .free _ | .removeSkippedBlocks _ _ | .evictBlocks _ | .resetPrefixCache
  | .newStepStarts => isTrue trivial

/-! ## Rejected drafts in align mode -/

/-- One mamba group in align mode with two speculative blocks of four tokens. -/
def alignConfig : KVCacheConfig where
  numBlocks := 20
  specs := [⟨.mamba .align 2, 4, 0, pos_four, by decide⟩]
  maxModelLen := 100
  hashBlockSize := 4
  enableCaching := true
  useEagle := false

/-- Request 0 with the given numbers of tokens and computed tokens, and one or two block hashes. -/
def decoding (numTokens : ℕ) (numComputedTokens : ℤ) : KVRequest :=
  if numTokens < 8 then { promptOf 0 1 with numTokens, numComputedTokens }
  else { promptOf 0 2 with numTokens, numComputedTokens }

/-- A prompt of six tokens is computed block-aligned, then one token with two drafts. -/
def prefillAndDraft : List Call :=
  [.allocateSlots (decoding 6 0) true { numNewTokens := 4 },
   .allocateSlots (decoding 6 4) false { numNewTokens := 2 },
   .allocateSlots (decoding 7 6) false { numNewTokens := 3 }]

/-- With two drafts again the table has the required length. -/
theorem drafts_again_are_foreseen : ∃ k0 k hits n k1 need, init alignConfig = some k0 ∧
    Reach step CallForeseen k0 k ∧ k.hitsFor (decoding 8 7) false = some (hits, n) ∧
    k.CapacitySound (decoding 8 7) n hits { numNewTokens := 3 } k1 need := by
  obtain ⟨k0, hk0, k, hk, ⟨hits, n⟩, hhits, hforeseen⟩ : ∃ k0 ∈ init alignConfig,
      ∃ k ∈ run (guarded CallForeseen step) k0 prefillAndDraft,
        ∃ _ ∈ k.hitsFor (decoding 8 7) false,
          k.CallForeseen (.allocateSlots (decoding 8 7) false { numNewTokens := 3 }) := by
    decide +kernel
  have hreach : Reach step CallForeseen k0 k := Reach.of_guarded_run .init hk
  obtain ⟨k1, need, hsound⟩ := capacitySound_of_foreseen hk0 hreach hforeseen hhits
  exact ⟨k0, k, hits, n, k1, need, hk0, hreach, hhits, hsound⟩

/-- With the drafts rejected and no new ones, the next call asks for eight tokens: two blocks and
two speculative ones, where the table has five. The announced number is negative, the check passes,
and the call raises. -/
theorem rejected_drafts_raise : ∃ k0 k hits n, init alignConfig = some k0 ∧
    Reach step CallScheduled k0 k ∧ k.hitsFor (decoding 8 7) false = some (hits, n) ∧
    k.Scheduled (decoding 8 7) n hits { numNewTokens := 1 } ∧
    ¬ ∃ k1 need, k.CapacitySound (decoding 8 7) n hits { numNewTokens := 1 } k1 need := by
  obtain ⟨k0, hk0, k, hk, ⟨hits, n⟩, hhits, hscheduled, hraises⟩ : ∃ k0 ∈ init alignConfig,
      ∃ k ∈ run (guarded CallScheduled step) k0 prefillAndDraft,
        ∃ q ∈ k.hitsFor (decoding 8 7) false,
          k.Scheduled (decoding 8 7) q.2 q.1 { numNewTokens := 1 } ∧
          k.allocateSlots (decoding 8 7) q.2 q.1 { numNewTokens := 1 } = none := by
    decide +kernel
  refine ⟨k0, k, hits, n, hk0, Reach.of_guarded_run .init hk, hhits, hscheduled, ?_⟩
  rintro ⟨k1, need, hsound⟩
  rcases le_or_gt need k1.pool.getNumFreeBlocks with hle | hlt
  · obtain ⟨news, k', he, -⟩ := hsound.granted hle
    rw [hraises] at he
    cases he
  · rw [(hsound.refused hlt).1] at hraises
    cases hraises

end KVCacheManager

end Nvllm.KVCache
