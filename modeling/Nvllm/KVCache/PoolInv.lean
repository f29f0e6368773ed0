import Nvllm.KVCache.BlockPool
import Nvllm.Lib.Reserve

/-! # What the operations of the block pool preserve

The pool does not know who holds its blocks, so its invariant is stated for a function `occ` that
gives the number of references to each block. `RefInv p occ` ties reference counts and the free
queue to `occ`, `HashInv p` ties the hashes of the blocks to the hash map. Each operation of the
pool has one lemma that says what it does to both.
-/

namespace Nvllm.KVCache

open Nvllm.DList Nvllm.Reserve List

/-! ## The hash map -/

namespace BlockHashToBlockMap

variable (m : BlockHashToBlockMap) (k k' : BlockHashWithGroupId) (b c : BlockId)

theorem mem_addId {bs : List BlockId} : c ∈ addId bs b ↔ c ∈ bs ∨ c = b := by
  unfold addId
  split
  · rename_i hb
    exact ⟨Or.inl, fun h => h.elim id fun he => he ▸ hb⟩
  · simp

theorem stores_insert : (m.insert k b).Stores k' c ↔ m.Stores k' c ∨ (k' = k ∧ c = b) := by
  by_cases hk : k' = k
  · subst hk
    cases h : m.get? k' with
    | none => simp [insert, Stores, h, eq_comm]
    | some v =>
      cases v with
      | one b0 => simp [insert, Stores, h, mem_addId, eq_comm]
      | many bs => simp [insert, Stores, h, mem_addId]
  · have hget : (m.insert k b).get? k' = m.get? k' := by
      unfold insert
      split <;> exact Dict.get?_set_of_ne _ _ hk
    simp [Stores, hget, hk]

theorem pop_fst_iff : (m.pop k b).1 = true ↔ m.Stores k b := by
  cases h : m.get? k with
  | none => simp [pop, Stores, h]
  | some v =>
    cases v with
    | one b0 => by_cases hb : b0 = b <;> simp [pop, Stores, h, hb]
    | many bs => simp [pop, Stores, h]

theorem stores_pop : (m.pop k b).2.Stores k' c ↔ m.Stores k' c ∧ ¬ (k' = k ∧ c = b) := by
  by_cases hk : k' = k
  · subst hk
    cases h : m.get? k' with
    | none => simp [pop, Stores, h]
    | some v =>
      cases v with
      | one b0 =>
        by_cases hb : b0 = b
        · subst hb
          simp only [pop, h, Stores, if_true, Dict.get?_erase_self, true_and]
          constructor
          · exact False.elim
          · exact fun hc => hc.2 hc.1.symm
        · simp only [pop, h, Stores, if_neg hb, Dict.get?_set_self, true_and]
          constructor
          · rintro rfl
            exact ⟨rfl, hb⟩
          · exact And.left
      | many bs =>
        by_cases he : bs.filter (· ≠ b) = []
        · have hall : ∀ x ∈ bs, x = b := by simpa using filter_eq_nil_iff.mp he
          simp only [pop, h, Stores, he, isEmpty_nil, if_true, Dict.get?_erase_self,
            true_and]
          exact ⟨False.elim, fun hc => hc.2 (hall c hc.1)⟩
        · have hne : (bs.filter (· ≠ b)).isEmpty = false := by simpa using he
          simp only [pop, h, Stores, hne]
          simp
  · have hget : (m.pop k b).2.get? k' = m.get? k' := by
      cases h : m.get? k with
      | none => simp [pop, h, Dict.get?_erase_of_ne _ hk]
      | some v =>
        cases v with
        | one b0 | many bs =>
          simp only [pop, h]
          split <;> simp [Dict.get?_erase_of_ne _ hk, Dict.get?_set_of_ne _ _ hk]
    simp [Stores, hget, hk]

theorem getOneBlock_stores (h : m.getOneBlock k = some b) : m.Stores k b := by
  unfold getOneBlock at h
  unfold Stores
  cases hk : m.get? k with
  | none => simp [hk] at h
  | some v =>
    rw [hk] at h
    cases v with
    | one b0 => exact Option.some.inj h
    | many bs => exact mem_of_head? h

end BlockHashToBlockMap

namespace BlockPool

/-! ## Blocks -/

variable {b : BlockId} {p p1 p2 p3 p' : BlockPool} {occ : BlockId → ℕ} {bs : List BlockId}

theorem block_modifyBlock (f : KVCacheBlock → KVCacheBlock) (hb : b < p.blocks.length)
    (c : BlockId) : (p.modifyBlock b f).block c = if c = b then f (p.block b) else p.block c := by
  simp only [block, modifyBlock, getElem?_modify]
  by_cases hc : c = b
  · subst hc
    simp [getElem?_eq_getElem hb]
  · simp [hc, Ne.symm hc]

/-- What a change of one block leaves alone. -/
theorem field_modifyBlock {α : Type*} (g : KVCacheBlock → α) {f : KVCacheBlock → KVCacheBlock}
    (hg : ∀ blk, g (f blk) = g blk) (p : BlockPool) (b c : BlockId) :
    g ((p.modifyBlock b f).block c) = g (p.block c) := by
  simp only [block, modifyBlock, getElem?_modify]
  cases p.blocks[c]? with
  | none => rfl
  | some blk =>
    by_cases hc : b = c
    · simp [hc, hg]
    · simp [hc]

@[simp] theorem length_modifyBlock (p : BlockPool) (b : BlockId)
    (f : KVCacheBlock → KVCacheBlock) : (p.modifyBlock b f).blocks.length = p.blocks.length := by
  simp [modifyBlock]

/-- What no operation changes. -/
structure SameShape (p p' : BlockPool) : Prop where
  numGpuBlocks : p'.numGpuBlocks = p.numGpuBlocks
  enableCaching : p'.enableCaching = p.enableCaching
  hashBlockSize : p'.hashBlockSize = p.hashBlockSize
  nullBlock : p'.nullBlock = p.nullBlock
  length : p'.blocks.length = p.blocks.length
  isNull : ∀ b, (p'.block b).isNull = (p.block b).isNull

theorem SameShape.refl (p : BlockPool) : p.SameShape p := ⟨rfl, rfl, rfl, rfl, rfl, fun _ => rfl⟩

theorem SameShape.trans (h : p1.SameShape p2) (h' : p2.SameShape p3) : p1.SameShape p3 :=
  ⟨h'.1.trans h.1, h'.2.trans h.2, h'.3.trans h.3, h'.4.trans h.4, h'.5.trans h.5,
    fun b => (h'.6 b).trans (h.6 b)⟩

theorem SameShape.of_queue (p : BlockPool) (q : Queue BlockId) :
    p.SameShape { p with freeBlockQueue := q } := ⟨rfl, rfl, rfl, rfl, rfl, fun _ => rfl⟩

/-- No hash changes, neither of a block nor in the map. -/
structure SameHashes (p p' : BlockPool) : Prop where
  blockHash : ∀ b, (p'.block b).blockHash = (p.block b).blockHash
  map : p'.cachedBlockHashToBlock = p.cachedBlockHashToBlock

theorem SameHashes.refl (p : BlockPool) : p.SameHashes p := ⟨fun _ => rfl, rfl⟩

theorem SameHashes.trans (h : p1.SameHashes p2) (h' : p2.SameHashes p3) : p1.SameHashes p3 :=
  ⟨fun b => (h'.1 b).trans (h.1 b), h'.2.trans h.2⟩

theorem SameHashes.of_queue (p : BlockPool) (q : Queue BlockId) :
    p.SameHashes { p with freeBlockQueue := q } := ⟨fun _ => rfl, rfl⟩

/-! ## The invariants -/

/-- Reference counts and free queue for given numbers of references. -/
structure RefInv (p : BlockPool) (occ : BlockId → ℕ) : Prop where
  length : p.blocks.length = p.numGpuBlocks
  null_lt : p.nullBlock < p.numGpuBlocks
  isNull_iff : ∀ b, (p.block b).isNull = true ↔ b = p.nullBlock
  ref : ∀ b, b ≠ p.nullBlock → (p.block b).refCnt = occ b
  free : ∃ as, p.freeBlockQueue.Repr as ∧
    ∀ b, b ∈ as ↔ b < p.numGpuBlocks ∧ b ≠ p.nullBlock ∧ occ b = 0

/-- A block has hash `k` exactly if the map stores it under `k`. -/
structure HashInv (p : BlockPool) : Prop where
  stores : ∀ b k, (p.block b).blockHash = some k ↔ p.cachedBlockHashToBlock.Stores k b
  null : (p.block p.nullBlock).blockHash = none

namespace RefInv

variable {p : BlockPool} {occ : BlockId → ℕ}

theorem congr {occ' : BlockId → ℕ} (h : p.RefInv occ)
    (hocc : ∀ b, b ≠ p.nullBlock → occ' b = occ b) : p.RefInv occ' := by
  refine ⟨h.length, h.null_lt, h.isNull_iff, fun b hb => by rw [h.ref b hb, hocc b hb], ?_⟩
  obtain ⟨as, has, hmem⟩ := h.free
  refine ⟨as, has, fun b => ?_⟩
  rw [hmem b]
  refine and_congr_right fun _ => and_congr_right fun hb => ?_
  rw [hocc b hb]

theorem isNull_false (h : p.RefInv occ) {b : BlockId} (hb : b ≠ p.nullBlock) :
    (p.block b).isNull = false := by
  rw [Bool.eq_false_iff]
  exact fun hn => hb ((h.isNull_iff b).mp hn)

/-- Another pool with the same shape, given its counts and queue. -/
theorem of_shape {p' : BlockPool} {occ' : BlockId → ℕ} (h : p.RefInv occ) (hs : p.SameShape p')
    (href : ∀ b, b ≠ p.nullBlock → (p'.block b).refCnt = occ' b)
    (hfree : ∃ as, p'.freeBlockQueue.Repr as ∧
      ∀ b, b ∈ as ↔ b < p.numGpuBlocks ∧ b ≠ p.nullBlock ∧ occ' b = 0) : p'.RefInv occ' where
  length := by rw [hs.length, hs.numGpuBlocks, h.length]
  null_lt := by rw [hs.nullBlock, hs.numGpuBlocks]; exact h.null_lt
  isNull_iff b := by rw [hs.isNull, hs.nullBlock]; exact h.isNull_iff b
  ref b hb := href b (by rwa [hs.nullBlock] at hb)
  free := by rw [hs.numGpuBlocks, hs.nullBlock]; exact hfree

end RefInv

/-- No count changes, and neither does the queue. -/
structure SameRefs (p p' : BlockPool) : Prop where
  refCnt : ∀ b, (p'.block b).refCnt = (p.block b).refCnt
  queue : p'.freeBlockQueue = p.freeBlockQueue

theorem SameRefs.refl (p : BlockPool) : p.SameRefs p := ⟨fun _ => rfl, rfl⟩

theorem SameRefs.trans (h : p1.SameRefs p2) (h' : p2.SameRefs p3) : p1.SameRefs p3 :=
  ⟨fun b => (h'.1 b).trans (h.1 b), h'.2.trans h.2⟩

theorem RefInv.of_same (h : p.RefInv occ) (hs : p.SameShape p')
    (hr : p.SameRefs p') : p'.RefInv occ := by
  refine h.of_shape hs (fun b hb => ?_) ?_
  · rw [hr.refCnt]
    exact h.ref b hb
  · rw [hr.queue]
    exact h.free

theorem HashInv.of_same (h : p.HashInv) (hs : p.SameShape p')
    (hh : p.SameHashes p') : p'.HashInv where
  stores b k := by rw [hh.blockHash, hh.map]; exact h.stores b k
  null := by rw [hs.nullBlock, hh.blockHash]; exact h.null

/-! ## Changing the count of one block -/

theorem natCast_count_cons (b c : BlockId) (bs : List BlockId) :
    ((b :: bs).count c : ℤ) = bs.count c + if c = b then 1 else 0 := by
  by_cases hc : c = b
  · simp [hc]
  · simp [hc, Ne.symm hc]

section

variable {p : BlockPool} {b : BlockId} (n : ℤ)

theorem addRef_refCnt (hb : b < p.blocks.length) (c : BlockId) :
    ((p.addRef b n).block c).refCnt = (p.block c).refCnt + if c = b then n else 0 := by
  rw [addRef, block_modifyBlock _ hb]
  by_cases hc : c = b
  · simp [hc]
  · simp [hc]

theorem addRef_same (p : BlockPool) (b : BlockId) :
    p.SameShape (p.addRef b n) ∧ p.SameHashes (p.addRef b n) := by
  refine ⟨⟨rfl, rfl, rfl, rfl, length_modifyBlock p b _, fun c => ?_⟩, fun c => ?_, rfl⟩
  · exact field_modifyBlock KVCacheBlock.isNull (fun _ => by rfl) p b c
  · exact field_modifyBlock KVCacheBlock.blockHash (fun _ => by rfl) p b c

end

/-! ## The order of the free queue -/

/-- The free queue is `as`, in this order: the proper blocks with count zero. -/
structure Listed (p : BlockPool) (as : List BlockId) : Prop where
  length : p.blocks.length = p.numGpuBlocks
  isNull_iff : ∀ b, (p.block b).isNull = true ↔ b = p.nullBlock
  nonneg : ∀ b, b ≠ p.nullBlock → 0 ≤ (p.block b).refCnt
  holds : p.freeBlockQueue.Holds as
  mem_iff : ∀ b, b ∈ as ↔ b < p.numGpuBlocks ∧ b ≠ p.nullBlock ∧ (p.block b).refCnt = 0

theorem RefInv.listed {as : List BlockId} (h : p.RefInv occ) (has : p.freeBlockQueue.Repr as)
    (hmem : ∀ b, b ∈ as ↔ b < p.numGpuBlocks ∧ b ≠ p.nullBlock ∧ occ b = 0) : p.Listed as := by
  refine ⟨h.length, h.isNull_iff, fun b hb => ?_, has.holds, fun b => ?_⟩
  · rw [h.ref b hb]
    exact Int.natCast_nonneg _
  · rw [hmem b]
    refine and_congr_right fun _ => and_congr_right fun hb => ?_
    rw [h.ref b hb, Int.natCast_eq_zero]

/-- The accounting for a pool with the same shape whose free queue is known. -/
theorem RefInv.of_listed {occ' : BlockId → ℕ} {as : List BlockId} (h : p.RefInv occ)
    (hs : p.SameShape p') (hl : p'.Listed as) (hsize : p'.freeBlockQueue.size = as.length)
    (href : ∀ b, b ≠ p.nullBlock → (p'.block b).refCnt = occ' b) : p'.RefInv occ' := by
  refine h.of_shape hs href ⟨as, ⟨hl.holds.nodup, hl.holds.linked, hsize⟩, fun b => ?_⟩
  rw [hl.mem_iff, hs.numGpuBlocks, hs.nullBlock]
  refine and_congr_right fun _ => and_congr_right fun hb => ?_
  rw [href b hb, Int.natCast_eq_zero]

namespace Listed

variable {as as' : List BlockId}

/-- Another pool with the same shape, given its counts and queue. -/
theorem of_shape (h : p.Listed as) (hs : p.SameShape p')
    (hnonneg : ∀ b, b ≠ p.nullBlock → 0 ≤ (p'.block b).refCnt)
    (hholds : p'.freeBlockQueue.Holds as')
    (hmem : ∀ b, b ∈ as' ↔ b < p.numGpuBlocks ∧ b ≠ p.nullBlock ∧ (p'.block b).refCnt = 0) :
    p'.Listed as' where
  length := by rw [hs.length, hs.numGpuBlocks, h.length]
  isNull_iff b := by rw [hs.isNull, hs.nullBlock]; exact h.isNull_iff b
  nonneg b hb := hnonneg b (by rwa [hs.nullBlock] at hb)
  holds := hholds
  mem_iff b := by rw [hs.numGpuBlocks, hs.nullBlock]; exact hmem b

/-- Touching one block takes it out of the queue. -/
theorem queueTouched_eq (h : p.Listed as) (hb : b < p.numGpuBlocks) :
    ∃ q, p.queueTouched b = some q ∧ q.Holds (as.filter (· ≠ b)) ∧
      q.size + as.length = p.freeBlockQueue.size + (as.filter (· ≠ b)).length := by
  by_cases hcond : (p.block b).refCnt = 0 ∧ (p.block b).isNull = false
  · have hnull : b ≠ p.nullBlock := by
      intro he
      rw [(h.isNull_iff b).mpr he] at hcond
      exact Bool.noConfusion hcond.2
    have hmem : b ∈ as := (h.mem_iff b).mpr ⟨hb, hnull, hcond.1⟩
    obtain ⟨q, hq, hholds, hsize⟩ := h.holds.remove_eq hmem
    have herase : as.erase b = as.filter (· ≠ b) := by
      rw [h.holds.nodup.erase_eq_filter]
      apply filter_congr
      intro c _
      by_cases hc : c = b
      · simp [hc]
      · simp [hc]
    have hlen := length_erase_of_mem hmem
    have hpos := length_pos_of_mem hmem
    rw [← herase]
    exact ⟨q, by rw [queueTouched, if_pos hcond, hq], hholds, by omega⟩
  · have hnot : b ∉ as := by
      intro hmem
      obtain ⟨-, hnull, hzero⟩ := (h.mem_iff b).mp hmem
      refine hcond ⟨hzero, ?_⟩
      rw [Bool.eq_false_iff]
      exact fun hn => hnull ((h.isNull_iff b).mp hn)
    have hself : as.filter (· ≠ b) = as := by
      apply filter_eq_self.mpr
      intro c hc
      simpa using fun he : c = b => hnot (he ▸ hc)
    rw [hself]
    exact ⟨p.freeBlockQueue, by rw [queueTouched, if_neg hcond], h.holds, rfl⟩

/-- **`touch`** takes the given blocks out of the queue, adds a reference for each occurrence and
changes no hash. -/
theorem touch_eq (h : p.Listed as) (hbs : ∀ b ∈ bs, b < p.numGpuBlocks) :
    ∃ p', p.touch bs = some p' ∧ p'.Listed (without as bs) ∧
      p'.freeBlockQueue.size + as.length = p.freeBlockQueue.size + (without as bs).length ∧
      p.SameShape p' ∧ p.SameHashes p' ∧
      ∀ c, (p'.block c).refCnt = (p.block c).refCnt + bs.count c := by
  induction bs generalizing p as with
  | nil =>
    rw [without_nil]
    exact ⟨p, rfl, h, rfl, .refl _, .refl _, fun c => by simp⟩
  | cons b bs ih =>
    have hb : b < p.numGpuBlocks := hbs b mem_cons_self
    obtain ⟨q, hq, hholds, hsize⟩ := h.queueTouched_eq hb
    have hbl : b < ({ p with freeBlockQueue := q } : BlockPool).blocks.length := by
      rw [h.length]
      exact hb
    obtain ⟨hshape, hhash⟩ := addRef_same 1 { p with freeBlockQueue := q } b
    replace hshape := (SameShape.of_queue p q).trans hshape
    replace hhash := (SameHashes.of_queue p q).trans hhash
    have href : ∀ c, ((({ p with freeBlockQueue := q } : BlockPool).addRef b 1).block c).refCnt =
        (p.block c).refCnt + if c = b then 1 else 0 := fun c => addRef_refCnt 1 hbl c
    have h1 := h.of_shape hshape
      (fun c hc => by
        have := h.nonneg c hc
        rw [href]
        split <;> omega)
      hholds
      (fun c => by
        rw [mem_filter, h.mem_iff, href]
        by_cases hc : c = b
        · -- the count of the touched block is positive now
          simp only [hc, ne_eq, not_true_eq_false, decide_false, Bool.false_eq_true, and_false,
            if_true, false_iff, not_and]
          intro _ hnull
          have := h.nonneg b hnull
          omega
        · simp [hc])
    obtain ⟨p', hp', hlisted, hsize', hs, hh, hcount⟩ := ih h1 fun c hc => by
      exact hbs c (mem_cons_of_mem _ hc)
    change p'.freeBlockQueue.size + _ = q.size + _ at hsize'
    rw [without_cons]
    refine ⟨p', ?_, hlisted, by omega, hshape.trans hs, hhash.trans hh, fun c => ?_⟩
    · rw [touch, hq]
      exact hp'
    · rw [hcount, href, natCast_count_cons]
      omega

end Listed

/-- Touching blocks of the pool adds one reference for each occurrence and changes no hash. -/
theorem touch_spec (h : p.RefInv occ) (hbs : ∀ b ∈ bs, b < p.numGpuBlocks) :
    ∃ p', touch bs p = some p' ∧ p'.RefInv (fun b => occ b + bs.count b) ∧ p.SameShape p' ∧
      p.SameHashes p' := by
  obtain ⟨as, has, hmem⟩ := h.free
  obtain ⟨p', hp', hlisted, hsize, hs, hh, href⟩ := (h.listed has hmem).touch_eq hbs
  rw [has.size] at hsize
  refine ⟨p', hp', h.of_listed hs hlisted (by omega) fun b hb => ?_, hs, hh⟩
  rw [href, h.ref b hb]
  rfl

/-! ## `free_blocks` -/

theorem decrLoop_same (bs : List BlockId) (p : BlockPool) :
    p.SameShape (p.decrLoop bs) ∧ p.SameHashes (p.decrLoop bs) := by
  induction bs generalizing p with
  | nil => exact ⟨.refl p, .refl p⟩
  | cons b bs ih =>
    obtain ⟨hs, hh⟩ := addRef_same (-1) p b
    obtain ⟨hs', hh'⟩ := ih (p.addRef b (-1))
    exact ⟨hs.trans hs', hh.trans hh'⟩

theorem decrLoop_spec (hbs : ∀ b ∈ bs, b < p.blocks.length) :
    (decrLoop bs p).freeBlockQueue = p.freeBlockQueue ∧
      ∀ c, ((decrLoop bs p).block c).refCnt = (p.block c).refCnt - bs.count c := by
  induction bs generalizing p with
  | nil => exact ⟨rfl, fun c => by simp [decrLoop]⟩
  | cons b bs ih =>
    have hb : b < p.blocks.length := hbs b mem_cons_self
    obtain ⟨hq, hc⟩ := ih (p := p.addRef b (-1)) fun c hc => by
      rw [(addRef_same (-1) p b).1.length]
      exact hbs c (mem_cons_of_mem _ hc)
    refine ⟨hq, fun c => ?_⟩
    have hdecr : decrLoop (b :: bs) p = decrLoop bs (p.addRef b (-1)) := rfl
    rw [hdecr, hc c, addRef_refCnt _ hb, natCast_count_cons]
    split <;> omega

theorem freeBlocks_same (hrun : p.freeBlocks bs = some p') : p.SameShape p' ∧ p.SameHashes p' := by
  obtain ⟨free, -, hrun⟩ := Option.bind_eq_some_iff.mp hrun
  cases hrun
  obtain ⟨hs, hh⟩ := decrLoop_same bs p
  exact ⟨hs.trans (.of_queue _ free), hh.trans (.of_queue _ free)⟩

/-- Freeing held blocks, no proper block twice, takes one reference from each and changes no
hash. -/
theorem freeBlocks_spec (h : p.RefInv occ) (hbs : ∀ b ∈ bs, b < p.numGpuBlocks)
    (hnd : (bs.filter (· ≠ p.nullBlock)).Nodup) (hocc : ∀ b ∈ bs, b ≠ p.nullBlock → 0 < occ b) :
    ∃ p', freeBlocks bs p = some p' ∧ p'.RefInv (fun b => occ b - bs.count b) ∧ p.SameShape p' ∧
      p.SameHashes p' := by
  obtain ⟨hs, hh⟩ := decrLoop_same bs p
  obtain ⟨hq, hc⟩ := decrLoop_spec (p := p) fun b hb => h.length ▸ hbs b hb
  obtain ⟨as, has, hmem⟩ := h.free
  let p1 := decrLoop bs p
  let fs := bs.filter fun b => (p1.block b).refCnt = 0 ∧ (p1.block b).isNull = false
  -- a proper block occurs at most once, and then it is held
  have hcount : ∀ b, b ≠ p.nullBlock → bs.count b ≤ 1 ∧ bs.count b ≤ occ b := by
    intro b hb
    have hone : bs.count b ≤ 1 := by
      rw [← count_filter (p := (· ≠ p.nullBlock)) (by simpa using hb)]
      exact nodup_iff_count_le_one.mp hnd b
    refine ⟨hone, ?_⟩
    by_cases hm : b ∈ bs
    · exact hone.trans (hocc b hm hb)
    · rw [count_eq_zero_of_not_mem hm]
      exact Nat.zero_le _
  have href : ∀ b, b ≠ p.nullBlock → (p1.block b).refCnt = (occ b - bs.count b : ℕ) := by
    intro b hb
    have := (hcount b hb).2
    rw [hc, h.ref b hb]
    omega
  have hfs : ∀ b, b ∈ fs ↔ b ∈ bs ∧ b ≠ p.nullBlock ∧ occ b - bs.count b = 0 := by
    intro b
    simp only [fs, mem_filter, decide_eq_true_eq]
    rw [hs.isNull]
    by_cases hb : b = p.nullBlock
    · simp [hb, (h.isNull_iff _).mpr rfl]
    · rw [href b hb, h.isNull_false hb, Int.natCast_eq_zero]
      simp [hb]
  have hnew : (as ++ fs).Nodup := by
    refine nodup_append.mpr ⟨has.nodup, nodup_iff_count_le_one.mpr fun b => ?_, ?_⟩
    · by_cases hb : b ∈ fs
      · exact (filter_sublist.count_le b).trans (hcount b ((hfs b).mp hb).2.1).1
      · rw [count_eq_zero_of_not_mem hb]
        exact Nat.zero_le 1
    · rintro a ha b hb rfl
      obtain ⟨hin, hn, -⟩ := (hfs a).mp hb
      have h0 := ((hmem a).mp ha).2.2
      have h1 := hocc a hin hn
      omega
  obtain ⟨q, hq', hrepr⟩ := has.appendN_eq hnew
  have hshape : p.SameShape { p1 with freeBlockQueue := q } := hs.trans (.of_queue p1 q)
  refine ⟨{ p1 with freeBlockQueue := q }, ?_, h.of_shape hshape href ⟨as ++ fs, hrepr,
    fun b => ?_⟩, hshape, hh.trans (.of_queue p1 q)⟩
  · show (do let q ← p1.freeBlockQueue.appendN fs; return { p1 with freeBlockQueue := q }) = _
    rw [show p1.freeBlockQueue = p.freeBlockQueue from hq, hq']
    rfl
  · rw [mem_append, hmem b, hfs b]
    by_cases hm : b ∈ bs
    · constructor
      · rintro (⟨hlt, hn, h0⟩ | ⟨-, hn, h0⟩)
        · exact ⟨hlt, hn, by omega⟩
        · exact ⟨hbs b hm, hn, h0⟩
      · exact fun ⟨_, hn, h0⟩ => .inr ⟨hm, hn, h0⟩
    · rw [count_eq_zero_of_not_mem hm]
      simp [hm]

/-! ## `_maybe_evict_cached_block` and `evict_blocks` -/

/-- One block gets another hash or none, and the map follows. -/
theorem setHash_spec (h : p.HashInv) (hb : b < p.blocks.length)
    {hash : Option BlockHashWithGroupId} (hnull : b = p.nullBlock → hash = none)
    {m : BlockHashToBlockMap} (hmap : ∀ k c, m.Stores k c ↔
      if c = b then hash = some k else p.cachedBlockHashToBlock.Stores k c)
    (he : p' = { p.modifyBlock b fun blk => { blk with blockHash := hash } with
      cachedBlockHashToBlock := m }) :
    p.SameShape p' ∧ p.SameRefs p' ∧ p'.HashInv ∧
      ∀ c, (p'.block c).blockHash = if c = b then hash else (p.block c).blockHash := by
  have hhash : ∀ c, (p'.block c).blockHash = if c = b then hash else (p.block c).blockHash := by
    intro c
    rw [he]
    refine (congrArg KVCacheBlock.blockHash (block_modifyBlock _ hb c)).trans ?_
    split <;> rfl
  have hstores : ∀ c k, (p'.block c).blockHash = some k ↔ p'.cachedBlockHashToBlock.Stores k c := by
    intro c k
    rw [hhash, he, hmap]
    split
    · rfl
    · exact h.stores c k
  subst he
  refine ⟨⟨rfl, rfl, rfl, rfl, length_modifyBlock p b _, fun c => ?_⟩, ⟨fun c => ?_, rfl⟩,
    ⟨hstores, (hhash _).trans ?_⟩, hhash⟩
  · exact field_modifyBlock KVCacheBlock.isNull (fun _ => by rfl) p b c
  · exact field_modifyBlock KVCacheBlock.refCnt (fun _ => by rfl) p b c
  · split
    · exact hnull (Eq.symm ‹_›)
    · exact h.null

/-- Eviction takes the hash from one block and changes nothing else. -/
theorem maybeEvictCachedBlock_spec (h : p.HashInv) (hb : b < p.blocks.length) :
    p.SameShape (p.maybeEvictCachedBlock b) ∧ p.SameRefs (p.maybeEvictCachedBlock b) ∧
      (p.maybeEvictCachedBlock b).HashInv ∧
      ∀ c, ((p.maybeEvictCachedBlock b).block c).blockHash =
        if c = b then none else (p.block c).blockHash := by
  cases hk : (p.block b).blockHash with
  | none =>
    have he : p.maybeEvictCachedBlock b = p := by simp only [maybeEvictCachedBlock, hk]
    rw [he]
    refine ⟨.refl p, .refl p, h, fun c => ?_⟩
    by_cases hc : c = b
    · rw [if_pos hc, hc, hk]
    · rw [if_neg hc]
  | some key =>
    have hstored : (p.cachedBlockHashToBlock.pop key b).1 = true :=
      (BlockHashToBlockMap.pop_fst_iff _ _ _).mpr ((h.stores b key).mp hk)
    refine setHash_spec h hb (fun _ => rfl) (m := (p.cachedBlockHashToBlock.pop key b).2)
      (fun k c => ?_) ?_
    · rw [BlockHashToBlockMap.stores_pop, ← h.stores c k]
      by_cases hc : c = b
      · subst hc
        rw [if_pos rfl, hk]
        simp only [reduceCtorEq, Option.some.injEq, and_true, iff_false, not_and, not_not]
        exact Eq.symm
      · simp [hc]
    · simp only [maybeEvictCachedBlock, hk]
      generalize p.cachedBlockHashToBlock.pop key b = r at hstored
      obtain ⟨found, m⟩ := r
      subst hstored
      rfl

theorem evictBlocks_spec (h : p.HashInv)
    (he : evictBlocks bs p = some p') : p.SameShape p' ∧ p.SameRefs p' ∧ p'.HashInv ∧
      ∀ c k, (p'.block c).blockHash = some k → (p.block c).blockHash = some k := by
  induction bs generalizing p with
  | nil =>
    cases he
    exact ⟨.refl _, .refl _, h, fun _ _ hk => hk⟩
  | cons b bs ih =>
    rw [evictBlocks] at he
    split at he
    · rename_i hb
      obtain ⟨hs, hr, hh, hhash⟩ := maybeEvictCachedBlock_spec h hb
      obtain ⟨hs', hr', hh', hkeep⟩ := ih hh he
      refine ⟨hs.trans hs', hr.trans hr', hh', fun c k hk => ?_⟩
      have hc := hkeep c k hk
      rw [hhash c] at hc
      split at hc
      · exact absurd hc (by simp)
      · exact hc
    · exact absurd he (by simp)

/-! ## `get_new_blocks` -/

/-- The popped blocks lose their hash if caching is on, and each gets one reference. -/
theorem takeLoop_spec (h : p.HashInv) (hnd : bs.Nodup)
    (hbs : ∀ b ∈ bs, b < p.blocks.length ∧ (p.block b).refCnt = 0) :
    ∃ p', takeLoop bs p = some p' ∧ p.SameShape p' ∧ p'.HashInv ∧
      p'.freeBlockQueue = p.freeBlockQueue ∧
      (∀ c, (p'.block c).refCnt = (p.block c).refCnt + bs.count c) ∧
      ∀ c, (p'.block c).blockHash =
        if p.enableCaching = true ∧ c ∈ bs then none else (p.block c).blockHash := by
  induction bs generalizing p with
  | nil => exact ⟨p, rfl, .refl p, h, rfl, fun c => by simp, fun c => by simp⟩
  | cons b bs ih =>
    obtain ⟨hb, hzero⟩ := hbs b mem_cons_self
    -- the pool after the eviction, which happens only if caching is on
    obtain ⟨p1, hp1, hs, hr, hh, hhash⟩ : ∃ p1 : BlockPool,
        (if p.enableCaching then p.maybeEvictCachedBlock b else p) = p1 ∧ p.SameShape p1 ∧
        p.SameRefs p1 ∧ p1.HashInv ∧ ∀ c, (p1.block c).blockHash =
          if p.enableCaching = true ∧ c = b then none else (p.block c).blockHash := by
      by_cases hcache : p.enableCaching = true
      · obtain ⟨hs, hr, hh, hhash⟩ := maybeEvictCachedBlock_spec h hb
        exact ⟨_, if_pos hcache, hs, hr, hh, fun c => by rw [hhash c]; simp [hcache]⟩
      · exact ⟨p, if_neg hcache, .refl p, .refl p, h, fun c => by simp [hcache]⟩
    have hb1 : b < p1.blocks.length := by
      rw [hs.length]
      exact hb
    obtain ⟨hshape, hhashes⟩ := addRef_same 1 p1 b
    have hnotin : b ∉ bs := (nodup_cons.mp hnd).1
    obtain ⟨p', hp', hs', hh', hq', href', hhash'⟩ := ih
      (hh.of_same hshape hhashes) (nodup_cons.mp hnd).2 fun c hc => by
        have hne : c ≠ b := fun he => hnotin (he ▸ hc)
        obtain ⟨hlt, hz⟩ := hbs c (mem_cons_of_mem _ hc)
        rw [hshape.length, hs.length, addRef_refCnt 1 hb1, hr.refCnt, if_neg hne, hz]
        exact ⟨hlt, rfl⟩
    refine ⟨p', ?_, (hs.trans hshape).trans hs', hh', hq'.trans hr.queue, fun c => ?_,
      fun c => ?_⟩
    · show (if ((if p.enableCaching then p.maybeEvictCachedBlock b else p).block b).refCnt = 0
        then takeLoop bs ((if p.enableCaching then p.maybeEvictCachedBlock b else p).addRef b 1)
        else none) = some p'
      rw [hp1, if_pos (by rw [hr.refCnt, hzero])]
      exact hp'
    · rw [href' c, addRef_refCnt 1 hb1, hr.refCnt, natCast_count_cons]
      omega
    · have hcache : (p1.addRef b 1).enableCaching = p.enableCaching :=
        hshape.enableCaching.trans hs.enableCaching
      rw [hhash' c, hcache, hhashes.blockHash, hhash c]
      by_cases hon : p.enableCaching = true
      · by_cases hc : c = b
        · simp [hon, hc]
        · simp [hon, hc]
      · simp [hon]

/-- **`get_new_blocks`** hands out the front of the queue; only the blocks handed out can lose
their hash. -/
theorem Listed.getNewBlocks_eq {n : ℤ} {as : List BlockId} (h : p.Listed as) (hh : p.HashInv)
    (he : p.getNewBlocks n = some (bs, p')) :
    n.toNat ≤ as.length ∧ bs = as.take n.toNat ∧ p'.Listed (as.drop n.toNat) ∧
      p'.freeBlockQueue.size = p.freeBlockQueue.size - n ∧ p'.HashInv ∧ p.SameShape p' ∧
      (∀ c, (p'.block c).refCnt = (p.block c).refCnt + bs.count c) ∧
      ∀ c, (p'.block c).blockHash =
        if p.enableCaching = true ∧ c ∈ bs then none else (p.block c).blockHash := by
  unfold getNewBlocks at he
  split at he
  · cases he
  · simp only [bind, Option.bind_eq_some_iff] at he
    obtain ⟨⟨bs', q⟩, hpop, p1, htake, he⟩ := he
    cases he
    obtain ⟨hlen, rfl, hholds, hsize⟩ := h.holds.popleftN_eq hpop
    have hfresh : ∀ b ∈ as.take n.toNat,
        b < p.numGpuBlocks ∧ b ≠ p.nullBlock ∧ (p.block b).refCnt = 0 :=
      fun b hb => (h.mem_iff b).mp (mem_of_mem_take hb)
    obtain ⟨p2, hp2, hs, hh2, hqueue, href, hhash⟩ :=
      takeLoop_spec (p := { p with freeBlockQueue := q })
        (hh.of_same (.of_queue p q) (.of_queue p q))
        (h.holds.nodup.sublist (take_sublist _ _)) fun b hb => by
          obtain ⟨hlt, -, hzero⟩ := hfresh b hb
          exact ⟨h.length.symm ▸ hlt, hzero⟩
    obtain rfl : p2 = p' := Option.some.inj (hp2.symm.trans htake)
    have hshape : p.SameShape p2 := (SameShape.of_queue p q).trans hs
    have href' : ∀ c, (p2.block c).refCnt = (p.block c).refCnt + (as.take n.toNat).count c := href
    refine ⟨hlen, rfl, h.of_shape hshape (fun b hb => ?_) (by rw [hqueue]; exact hholds)
      (fun b => ?_), by rw [hqueue]; exact hsize, hh2, hshape, href', hhash⟩
    · have := h.nonneg b hb
      rw [href']
      omega
    · -- a free block is handed out or stays, and never both
      have hsplit : b ∈ as ↔ b ∈ as.take n.toNat ∨ b ∈ as.drop n.toNat := by
        rw [← mem_append, take_append_drop]
      rw [href']
      by_cases ht : b ∈ as.take n.toNat
      · have hpos : 0 < (as.take n.toNat).count b := count_pos_iff.mpr ht
        obtain ⟨-, -, hzero⟩ := hfresh b ht
        constructor
        · exact fun hd => absurd hd (disjoint_take_drop h.holds.nodup le_rfl ht)
        · omega
      · have hstays : b ∈ as.drop n.toNat ↔ b ∈ as := by simp [hsplit, ht]
        rw [hstays, h.mem_iff, count_eq_zero_of_not_mem ht]
        simp

/-- `get_new_blocks` of a number that is not negative: as many different blocks that nobody held
before, without hash if caching is on. -/
theorem getNewBlocks_spec (h : p.RefInv occ) (hh : p.HashInv) {n : ℕ}
    (hget : p.getNewBlocks n = some (bs, p')) :
    bs.length = n ∧ bs.Nodup ∧
      (∀ b ∈ bs, b < p.numGpuBlocks ∧ b ≠ p.nullBlock ∧ occ b = 0) ∧
      p'.RefInv (fun b => occ b + bs.count b) ∧ p'.HashInv ∧ p.SameShape p' ∧
      ∀ c, (p'.block c).blockHash =
        if p.enableCaching = true ∧ c ∈ bs then none else (p.block c).blockHash := by
  obtain ⟨as, has, hmem⟩ := h.free
  obtain ⟨hlen, rfl, hlisted, hsize, hh', hs, href, hhash⟩ :=
    (h.listed has hmem).getNewBlocks_eq hh hget
  rw [has.size] at hsize
  refine ⟨length_take_of_le hlen, has.nodup.sublist (take_sublist n as),
    fun b hb => (hmem b).mp (mem_of_mem_take hb),
    h.of_listed hs hlisted ?_ fun b hb => ?_, hh', hs, hhash⟩
  · rw [length_drop]
    omega
  · rw [href, h.ref b hb]
    rfl

/-- A negative number gets no blocks. -/
theorem getNewBlocks_of_neg {n : ℤ} (hn : n < 0)
    (hget : p.getNewBlocks n = some (bs, p')) : bs = [] := by
  unfold getNewBlocks at hget
  split at hget
  · cases hget
  · obtain ⟨⟨bs', q⟩, hpop, hget⟩ := Option.bind_eq_some_iff.mp hget
    obtain ⟨p1, -, hget⟩ := Option.bind_eq_some_iff.mp hget
    have hzero : n.toNat = 0 := Int.toNat_of_nonpos (Int.le_of_lt hn)
    simp only [Queue.popleftN, if_neg (Int.ne_of_lt hn), hzero, Queue.popLoop] at hpop
    obtain ⟨-, hpop⟩ := Option.ite_none_right_eq_some.mp hpop
    split at hpop <;> simp_all

/-! ## `cache_full_blocks` -/

theorem cacheBlock_spec (h : p.HashInv) (hb : b < p.blocks.length) (hnull : b ≠ p.nullBlock)
    (hnone : (p.block b).blockHash = none) (key : BlockHashWithGroupId) :
    p.SameShape (p.cacheBlock key b) ∧ p.SameRefs (p.cacheBlock key b) ∧
      (p.cacheBlock key b).HashInv ∧
      ∀ c, ((p.cacheBlock key b).block c).blockHash =
        if c = b then some key else (p.block c).blockHash := by
  refine setHash_spec h hb (fun he => absurd he hnull) (fun k c => ?_) rfl
  rw [BlockHashToBlockMap.stores_insert, ← h.stores c k]
  by_cases hc : c = b
  · simp [hc, hnone, eq_comm]
  · simp [hc]

/-- Only the proper blocks among those given get a hash, each the one at its own position. -/
theorem cacheLoop_spec {groupId : ℕ} {hashes : List Bytes} (h : p.HashInv)
    (hnull : ∀ b, (p.block b).isNull = true ↔ b = p.nullBlock) (hbs : ∀ b ∈ bs, b < p.blocks.length)
    (he : cacheLoop groupId bs hashes p = some p') :
    p.SameShape p' ∧ p.SameRefs p' ∧ p'.HashInv ∧
      ∀ c k, (p'.block c).blockHash = some k → (p.block c).blockHash = some k ∨
        ∃ (i : ℕ) (hash : Bytes), bs[i]? = some c ∧ hashes[i]? = some hash ∧
          k = ⟨hash, groupId⟩ := by
  induction bs generalizing hashes p with
  | nil =>
    cases he
    exact ⟨.refl _, .refl _, h, fun _ _ hk => .inl hk⟩
  | cons b bs ih =>
    unfold cacheLoop at he
    split at he
    · obtain ⟨hs, hr, hh, hkeys⟩ :=
        ih h hnull (fun c hc => hbs c (mem_cons_of_mem _ hc)) he
      refine ⟨hs, hr, hh, fun c k hk => ?_⟩
      rcases hkeys c k hk with hold | ⟨i, hash, hi, hhash, hkey⟩
      · exact .inl hold
      · refine .inr ⟨i + 1, hash, by simpa using hi, ?_, hkey⟩
        cases hashes with
        | nil => simp at hhash
        | cons h0 hs0 => simpa using hhash
    · rename_i hproper
      split at he
      · rename_i hash hs0 hnone
        have hb := hbs b mem_cons_self
        have hne : b ≠ p.nullBlock := fun heq => hproper ((hnull b).mpr heq)
        obtain ⟨hs, hr, hh, hhash⟩ := cacheBlock_spec h hb hne hnone ⟨hash, groupId⟩
        obtain ⟨hs', hr', hh', hkeys⟩ := ih hh
          (fun c => by rw [hs.isNull, hs.nullBlock]; exact hnull c)
          (fun c hc => by rw [hs.length]; exact hbs c (mem_cons_of_mem _ hc)) he
        refine ⟨hs.trans hs', hr.trans hr', hh', fun c k hk => ?_⟩
        rcases hkeys c k hk with hold | ⟨i, hash', hi, hhash', hkey⟩
        · rw [hhash c] at hold
          split at hold
          · rename_i hc
            cases hold
            exact .inr ⟨0, hash, by simp [hc], by simp, rfl⟩
          · exact .inl hold
        · exact .inr ⟨i + 1, hash', by simpa using hi, by simpa using hhash', hkey⟩
      · exact absurd he (by simp)

theorem cacheFullBlocks_spec (h : p.RefInv occ) (hh : p.HashInv) {hashes : List Bytes}
    {cached full bsz groupId : ℕ} (hbs : ∀ b ∈ bs, b < p.numGpuBlocks)
    (he : p.cacheFullBlocks hashes bs cached full bsz groupId = some p') :
    p.SameShape p' ∧ p.SameRefs p' ∧ p'.HashInv ∧
      ∀ c k, (p'.block c).blockHash = some k → (p.block c).blockHash = some k ∨
        ∃ (i : ℕ) (hs : List Bytes) (hash : Bytes), cached ≤ i ∧ i < full ∧ bs[i]? = some c ∧
          p.hashesAt bsz hashes = some hs ∧ hs[i]? = some hash ∧ k = ⟨hash, groupId⟩ := by
  unfold cacheFullBlocks at he
  split at he
  · cases he
    exact ⟨.refl p, .refl p, hh, fun _ _ hk => .inl hk⟩
  · split at he
    · exact absurd he (by simp)
    · cases hat : p.hashesAt bsz hashes with
      | none =>
        rw [hat] at he
        exact absurd he (by simp)
      | some hs =>
        rw [hat] at he
        obtain ⟨hshape, hr, hh', hkeys⟩ := cacheLoop_spec hh h.isNull_iff (fun b hb => by
          rw [h.length]
          exact hbs b (mem_of_mem_take (mem_of_mem_drop hb))) he
        refine ⟨hshape, hr, hh', fun c k hk => ?_⟩
        rcases hkeys c k hk with hold | ⟨i, hash, hi, hhash, hkey⟩
        · exact .inl hold
        · rw [getElem?_drop] at hi hhash
          obtain ⟨hlt, -⟩ := List.getElem?_eq_some_iff.mp hi
          have hfull : cached + i < full := by
            rw [length_take] at hlt
            omega
          refine .inr ⟨cached + i, hs, hash, Nat.le_add_right _ _, hfull, ?_, rfl, hhash, hkey⟩
          rwa [getElem?_take_of_lt hfull] at hi

/-! ## `reset_prefix_cache` and the initial pool -/

theorem resetPrefixCache_spec (h : p.HashInv) :
    p.SameShape p.resetPrefixCache.2 ∧ p.SameRefs p.resetPrefixCache.2 ∧
      p.resetPrefixCache.2.HashInv ∧
      ∀ c k, (p.resetPrefixCache.2.block c).blockHash = some k →
        (p.block c).blockHash = some k := by
  unfold resetPrefixCache
  split
  · exact ⟨.refl p, .refl p, h, fun _ _ hk => hk⟩
  · have hblock : ∀ c, ((p.blocks.map KVCacheBlock.clearHash)[c]?).getD {} =
        { p.block c with blockHash := none } := by
      intro c
      rw [getElem?_map, block]
      cases p.blocks[c]? <;> rfl
    refine ⟨⟨rfl, rfl, rfl, rfl, by simp, fun c => ?_⟩, ⟨fun c => ?_, rfl⟩, ⟨fun c k => ?_, ?_⟩,
      fun c k hk => ?_⟩
    · show (((p.blocks.map KVCacheBlock.clearHash)[c]?).getD {}).isNull = _
      rw [hblock]
    · show (((p.blocks.map KVCacheBlock.clearHash)[c]?).getD {}).refCnt = _
      rw [hblock]
    · show (((p.blocks.map KVCacheBlock.clearHash)[c]?).getD {}).blockHash = _ ↔ _
      rw [hblock]
      simp [BlockHashToBlockMap.Stores]
    · show (((p.blocks.map KVCacheBlock.clearHash)[p.nullBlock]?).getD
        {}).blockHash = _
      rw [hblock]
    · change (((p.blocks.map KVCacheBlock.clearHash)[c]?).getD {}).blockHash =
        some k at hk
      rw [hblock] at hk
      exact absurd hk (by simp)

/-- **The initial pool.** Every block but the null block is free, and no block has a hash. -/
theorem init_spec {n : ℕ} {caching : Bool} {hashBlockSize : ℕ}
    (h : BlockPool.init n caching hashBlockSize = some p) :
    p.RefInv (fun _ => 0) ∧ p.HashInv ∧ p.numGpuBlocks = n ∧ p.enableCaching = caching ∧
      p.hashBlockSize = hashBlockSize ∧ ∀ b, (p.block b).blockHash = none := by
  have hrepr := Queue.ofList_repr (nodup_range (n := n))
  cases n with
  | zero =>
    have hnone : BlockPool.init 0 caching hashBlockSize = none := by rfl
    rw [hnone] at h
    exact absurd h (by simp)
  | succ n =>
    rw [range_succ_eq_map] at hrepr
    obtain ⟨q, hq, hrepr'⟩ := hrepr.popleft_eq
    let p0 : BlockPool :=
      { numGpuBlocks := n + 1, enableCaching := caching, hashBlockSize
        blocks := replicate (n + 1) {}
        freeBlockQueue := q
        cachedBlockHashToBlock := ∅
        nullBlock := 0 }
    have hp : p = p0.modifyBlock 0 fun blk => { blk with isNull := true } := by
      rw [BlockPool.init, range_succ_eq_map, hq] at h
      exact (Option.some.inj h).symm
    have hdefault : ∀ b, p0.block b = {} := by
      intro b
      show (replicate (n + 1) ({} : KVCacheBlock))[b]?.getD {} = {}
      rw [getElem?_replicate]
      split <;> rfl
    have hblock : ∀ b, p.block b = if b = 0 then { isNull := true } else {} := by
      intro b
      rw [hp, block_modifyBlock _ (by simp [p0]), hdefault, hdefault]
    have hnull : p.nullBlock = 0 := by rw [hp]; rfl
    have hnum : p.numGpuBlocks = n + 1 := by rw [hp]; rfl
    have hhash : ∀ b, (p.block b).blockHash = none := by
      intro b
      rw [hblock]
      split <;> rfl
    refine ⟨⟨?_, ?_, fun b => ?_, fun b hb => ?_, ?_⟩, ⟨fun b k => ?_, hhash _⟩, hnum,
      by rw [hp]; rfl, by rw [hp]; rfl, hhash⟩
    · rw [hp, length_modifyBlock]
      simp [p0, modifyBlock]
    · rw [hnull, hnum]
      exact Nat.succ_pos n
    · rw [hblock, hnull]
      split <;> simp_all
    · rw [hblock, if_neg (by rwa [hnull] at hb)]
      rfl
    · have hqueue : p.freeBlockQueue = q := by rw [hp]; rfl
      refine ⟨_, by rw [hqueue]; exact hrepr', fun b => ?_⟩
      rw [hnum, hnull]
      cases b with
      | zero => simp
      | succ b => simp
    · have hmap : p.cachedBlockHashToBlock = ∅ := by rw [hp]; rfl
      rw [hhash, hmap]
      simp [BlockHashToBlockMap.Stores]

end BlockPool

end Nvllm.KVCache
