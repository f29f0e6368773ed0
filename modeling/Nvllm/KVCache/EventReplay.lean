import Mathlib.Algebra.Order.Group.Multiset
import Nvllm.KVCache.Events
import Nvllm.KVCache.PoolInv

/-! # The events replay to the content of the cache

Replaying the events gives the hashes of the cached blocks, each as often as there are blocks for
it (`Replays`), in every run. A `BlockStored` event should also pair each of its hashes with a
block of its tokens (`Describes`). Null blocks are left out of its hashes and of its extra keys but
not of its tokens, so this holds exactly for the calls without null blocks.
-/

namespace Nvllm.KVCache

open Nvllm.Run List Option

variable {E : Type} {useInt : Bool} {groupId : ℕ}

/-! ## The content of the map -/

def CachedBlocks.count : CachedBlocks → ℕ
  | .one _ => 1
  | .many bs => bs.length

namespace BlockHashToBlockMap

variable {m : BlockHashToBlockMap} {k : BlockHashWithGroupId} {b : BlockId}

/-- The copies of the hash of an entry. -/
def copies (useInt : Bool) (e : BlockHashWithGroupId × CachedBlocks) :
    Multiset ExternalBlockHash :=
  Multiset.replicate e.2.count (maybeConvertBlockHash useInt e.1.blockHash)

/-- The hashes of the blocks in the map. -/
def cachedHashes (useInt : Bool) (m : BlockHashToBlockMap) : Multiset ExternalBlockHash :=
  (m.entries.map (copies useInt)).sum

/-- An inner dict has one entry per block. -/
def IdsNodup (m : BlockHashToBlockMap) : Prop := ∀ k bs, m.get? k = some (.many bs) → bs.Nodup

theorem cachedHashes_set (v : CachedBlocks) : cachedHashes useInt (m.set k v) =
    copies useInt (k, v) + cachedHashes useInt (m.erase k) := by
  unfold cachedHashes
  rw [((Dict.perm_set v).map (copies useInt)).sum_eq, map_cons, sum_cons]

variable {v : CachedBlocks}

theorem cachedHashes_split (h : m.get? k = some v) : cachedHashes useInt m =
    copies useInt (k, v) + cachedHashes useInt (m.erase k) := by
  unfold cachedHashes
  rw [((Dict.perm_erase h).map (copies useInt)).sum_eq, map_cons, sum_cons]

theorem cachedHashes_set_new (h : m.get? k = none) (v : CachedBlocks) :
    cachedHashes useInt (m.set k v) = copies useInt (k, v) + cachedHashes useInt m := by
  unfold cachedHashes
  rw [Dict.entries_set_of_new v h, map_append, sum_append, map_singleton,
    sum_singleton, add_comm]

theorem copies_succ {w : CachedBlocks} (h : w.count = v.count + 1) : copies useInt (k, w) =
    maybeConvertBlockHash useInt k.blockHash ::ₘ copies useInt (k, v) := by
  unfold copies
  rw [h, Multiset.replicate_succ]

/-- A block that is not stored adds one copy of its hash. -/
theorem cachedHashes_insert (h : ¬ m.Stores k b) : cachedHashes useInt (m.insert k b) =
    maybeConvertBlockHash useInt k.blockHash ::ₘ cachedHashes useInt m := by
  have hmany : ∀ v bs, m.get? k = some v → v.count = bs.length → b ∉ bs →
      cachedHashes useInt (m.set k (.many (addId bs b))) =
        maybeConvertBlockHash useInt k.blockHash ::ₘ cachedHashes useInt m := by
    intro v bs hk hcount hb
    have hsucc : (CachedBlocks.many (addId bs b)).count = v.count + 1 := by
      rw [addId, if_neg hb, hcount]
      exact length_append
    rw [cachedHashes_set, cachedHashes_split hk, copies_succ hsucc, Multiset.cons_add]
  unfold Stores at h
  unfold insert
  cases hk : m.get? k with
  | none =>
    rw [cachedHashes_set_new hk]
    exact Multiset.singleton_add _ _
  | some v =>
    rw [hk] at h
    cases v with
    | one b0 => exact hmany _ [b0] hk rfl fun hb => h (mem_singleton.mp hb).symm
    | many bs => exact hmany _ bs hk rfl h

/-- A block that is stored takes one copy with it. -/
theorem cachedHashes_pop (hm : m.IdsNodup) (h : m.Stores k b) : cachedHashes useInt m =
    maybeConvertBlockHash useInt k.blockHash ::ₘ cachedHashes useInt (m.pop k b).2 := by
  unfold Stores at h
  unfold pop
  cases hk : m.get? k with
  | none =>
    rw [hk] at h
    exact h.elim
  | some v =>
    rw [hk] at h
    cases v with
    | one b0 =>
      dsimp only at h ⊢
      rw [if_pos h, cachedHashes_split hk]
      exact Multiset.singleton_add _ _
    | many bs =>
      have hlength : (bs.filter (· ≠ b)).length + 1 = bs.length := by
        have herase : bs.filter (· ≠ b) = bs.erase b := by
          rw [(hm k bs hk).erase_eq_filter b]
          exact filter_congr fun c _ => decide_not
        rw [herase, length_erase_of_mem h]
        have hpos := length_pos_of_mem h
        omega
      dsimp only
      rw [cachedHashes_split hk]
      split
      · rename_i hempty
        rw [List.isEmpty_iff] at hempty
        rw [hempty] at hlength
        have hone : (CachedBlocks.many bs).count = 1 := hlength.symm
        unfold copies
        rw [hone]
        exact Multiset.singleton_add _ _
      · have hcount : (CachedBlocks.many bs).count =
            (CachedBlocks.many (bs.filter (· ≠ b))).count + 1 := hlength.symm
        rw [cachedHashes_set_new (Dict.get?_erase_self m k), copies_succ hcount,
          Multiset.cons_add]

theorem nodup_addId {bs : List BlockId} (h : bs.Nodup) : (addId bs b).Nodup := by
  unfold addId
  split
  · exact h
  · rename_i hb
    exact nodup_append_comm.mp (nodup_cons.mpr ⟨hb, h⟩)

theorem IdsNodup.set (h : m.IdsNodup) (hv : ∀ bs, v = .many bs → bs.Nodup) :
    IdsNodup (Dict.set m k v) := by
  intro k' bs hbs
  rw [Dict.get?_set] at hbs
  split at hbs
  · exact hv bs (Option.some.inj hbs)
  · exact h k' bs hbs

theorem IdsNodup.erase (h : m.IdsNodup) : IdsNodup (Dict.erase m k) := by
  intro k' bs hbs
  exact h k' bs (Dict.get?_of_erase hbs)

theorem IdsNodup.insert (h : m.IdsNodup) : (m.insert k b).IdsNodup := by
  unfold BlockHashToBlockMap.insert
  split
  · exact h.set fun _ hbs => by cases hbs
  · refine h.set fun bs hbs => ?_
    cases hbs
    exact nodup_addId (nodup_singleton _)
  · rename_i bs hk
    refine h.set fun bs' hbs => ?_
    cases hbs
    exact nodup_addId (h k bs hk)

theorem IdsNodup.pop (h : m.IdsNodup) : (m.pop k b).2.IdsNodup := by
  unfold BlockHashToBlockMap.pop
  split
  · exact h.erase
  · split
    · exact h.erase
    · exact h.erase.set fun _ hbs => by cases hbs
  · rename_i bs hk
    dsimp only
    split
    · exact h.erase
    · refine h.erase.set fun bs' hbs => ?_
      cases hbs
      exact (h k bs hk).filter _

end BlockHashToBlockMap

/-! ## Replay -/

namespace KVCacheEvent

/-- What a follower of the events does with one of them. -/
def apply (s : Multiset ExternalBlockHash) : KVCacheEvent → Multiset ExternalBlockHash
  | .blockStored e => s + e.blockHashes
  | .blockRemoved hashes => s - hashes
  | .allBlocksCleared => 0

def replay (events : List KVCacheEvent) : Multiset ExternalBlockHash := events.foldl apply 0

theorem replay_append_singleton (events : List KVCacheEvent) (e : KVCacheEvent) :
    replay (events ++ [e]) = apply (replay events) e := by
  unfold replay
  rw [foldl_append]
  rfl

end KVCacheEvent

namespace EventPool

open BlockHashToBlockMap KVCacheEvent

variable {q q' : EventPool} {p p' : BlockPool} {b : BlockId}

/-- **Replay.** The events give the hashes of the cached blocks. -/
def Replays (useInt : Bool) (q : EventPool) : Prop :=
  replay q.kvEventQueue = cachedHashes useInt q.pool.cachedBlockHashToBlock

/-- The hashes of the pool are in order, and its null block is the only one. -/
structure Hashed (p : BlockPool) : Prop where
  inv : p.HashInv
  ids : p.cachedBlockHashToBlock.IdsNodup
  null : ∀ b, (p.block b).isNull = true ↔ b = p.nullBlock

theorem Hashed.of_shape (h : Hashed p) (hs : p.SameShape p') (hinv : p'.HashInv)
    (hids : p'.cachedBlockHashToBlock.IdsNodup) : Hashed p' where
  inv := hinv
  ids := hids
  null b := by
    rw [hs.isNull, hs.nullBlock]
    exact h.null b

theorem Hashed.of_same (h : Hashed p) (hs : p.SameShape p') (hh : p.SameHashes p') : Hashed p' :=
  h.of_shape hs (h.inv.of_same hs hh) (hh.map ▸ h.ids)

def stored (q : EventPool) : List BlockStored := q.kvEventQueue.filterMap KVCacheEvent.stored?

/-- The state of a run: `p0` is the pool of the start, and `es` are the `BlockStored` events. -/
structure Follows (useInt : Bool) (p0 : BlockPool) (es : List BlockStored) (q : EventPool) :
    Prop where
  hashed : Hashed q.pool
  replays : Replays useInt q
  shape : p0.SameShape q.pool
  stored : q.stored = es

variable {p0 : BlockPool} {es : List BlockStored}

/-- A change that concerns neither hashes nor events. -/
theorem Follows.same (h : Follows useInt p0 es q) {pool : BlockPool} (hs : q.pool.SameShape pool)
    (hh : q.pool.SameHashes pool) : Follows useInt p0 es { q with pool } where
  hashed := h.hashed.of_same hs hh
  replays := by
    show replay q.kvEventQueue = cachedHashes useInt pool.cachedBlockHashToBlock
    rw [hh.map]
    exact h.replays
  shape := h.shape.trans hs
  stored := h.stored

theorem maybeEvictCachedBlock_pool (useInt : Bool) (q : EventPool) (b : BlockId) :
    (q.maybeEvictCachedBlock useInt b).pool = q.pool.maybeEvictCachedBlock b := by
  unfold maybeEvictCachedBlock BlockPool.maybeEvictCachedBlock
  cases (q.pool.block b).blockHash with
  | none => rfl
  | some key =>
    dsimp only
    cases q.pool.cachedBlockHashToBlock.pop key b with
    | mk found m => cases found <;> rfl

theorem Follows.maybeEvictCachedBlock (h : Follows useInt p0 es q) (b : BlockId) :
    Follows useInt p0 es (q.maybeEvictCachedBlock useInt b) := by
  cases hk : (q.pool.block b).blockHash with
  | none =>
    have he : q.maybeEvictCachedBlock useInt b = q := by
      simp only [EventPool.maybeEvictCachedBlock, hk]
    rw [he]
    exact h
  | some key =>
    have hb : b < q.pool.blocks.length := by
      by_contra hlt
      rw [BlockPool.block, getElem?_eq_none (Nat.le_of_not_lt hlt)] at hk
      cases hk
    have hstores := (h.hashed.inv.stores b key).mp hk
    have hfound := (pop_fst_iff q.pool.cachedBlockHashToBlock key b).mpr hstores
    have hcontent : cachedHashes useInt q.pool.cachedBlockHashToBlock = _ :=
      cachedHashes_pop h.hashed.ids hstores
    have hids := h.hashed.ids.pop (k := key) (b := b)
    obtain ⟨hs, -, hh, -⟩ := BlockPool.maybeEvictCachedBlock_spec h.hashed.inv hb
    rw [← maybeEvictCachedBlock_pool useInt] at hs hh
    -- the block is found, so the event is emitted
    have he : q.maybeEvictCachedBlock useInt b =
        { pool := { q.pool.modifyBlock b KVCacheBlock.clearHash with
            cachedBlockHashToBlock := (q.pool.cachedBlockHashToBlock.pop key b).2 }
          kvEventQueue := q.kvEventQueue ++
            [.blockRemoved [maybeConvertBlockHash useInt key.blockHash]] } := by
      simp only [EventPool.maybeEvictCachedBlock, hk]
      rw [← Prod.mk.eta (p := q.pool.cachedBlockHashToBlock.pop key b), hfound]
    constructor
    case hashed => exact h.hashed.of_shape hs hh (by rw [he]; exact hids)
    case replays =>
      unfold Replays
      rw [he, replay_append_singleton, h.replays]
      show cachedHashes useInt q.pool.cachedBlockHashToBlock - _ =
        cachedHashes useInt (q.pool.cachedBlockHashToBlock.pop key b).2
      rw [hcontent, Multiset.coe_singleton, Multiset.sub_singleton, Multiset.erase_cons_head]
    case shape => exact h.shape.trans hs
    case stored =>
      rw [he]
      unfold EventPool.stored
      rw [filterMap_append, ← h.stored]
      exact append_nil _

variable {bs : List BlockId} {hashes : List Bytes} {newHashes : List ExternalBlockHash}
  {H : Hasher E}

/-- From `q` to `q'`: evictions, with their events, and changes that concern neither hashes nor
events. -/
inductive Evolves (useInt : Bool) (q' : EventPool) : EventPool → Prop
  | refl : Evolves useInt q' q'
  | evict {q : EventPool} (b : BlockId) : Evolves useInt q' (q.maybeEvictCachedBlock useInt b) →
      Evolves useInt q' q
  | same {q : EventPool} {pool : BlockPool} : q.pool.SameShape pool → q.pool.SameHashes pool →
      Evolves useInt q' { q with pool } → Evolves useInt q' q

theorem Follows.evolves (h : Follows useInt p0 es q) (he : Evolves useInt q' q) :
    Follows useInt p0 es q' := by
  induction he with
  | refl => exact h
  | evict b _ ih => exact ih (h.maybeEvictCachedBlock b)
  | same hs hh _ ih => exact ih (h.same hs hh)

/-! Apart from the events, the methods do to the pool what those of `BlockPool` do. -/

theorem evictBlocks_spec (hrun : evictBlocks useInt bs q = some q') :
    Evolves useInt q' q ∧ q.pool.evictBlocks bs = some q'.pool := by
  induction bs generalizing q with
  | nil =>
    cases hrun
    exact ⟨.refl, rfl⟩
  | cons b bs ih =>
    rw [evictBlocks] at hrun
    rw [BlockPool.evictBlocks]
    split at hrun
    · rename_i hb
      obtain ⟨he, hpool⟩ := ih hrun
      rw [if_pos hb, ← maybeEvictCachedBlock_pool useInt]
      exact ⟨.evict b he, hpool⟩
    · cases hrun

theorem takeLoop_spec (hrun : takeLoop useInt bs q = some q') :
    Evolves useInt q' q ∧ q.pool.takeLoop bs = some q'.pool := by
  induction bs generalizing q with
  | nil =>
    cases hrun
    exact ⟨.refl, rfl⟩
  | cons b bs ih =>
    obtain ⟨q1, hq1, hpool1, hback⟩ : ∃ q1,
        (if q.pool.enableCaching then q.maybeEvictCachedBlock useInt b else q) = q1 ∧
        (if q.pool.enableCaching then q.pool.maybeEvictCachedBlock b else q.pool) = q1.pool ∧
        (Evolves useInt q' q1 → Evolves useInt q' q) := by
      by_cases hc : q.pool.enableCaching = true
      · rw [if_pos hc, if_pos hc]
        exact ⟨_, rfl, (maybeEvictCachedBlock_pool useInt q b).symm, .evict b⟩
      · rw [if_neg hc, if_neg hc]
        exact ⟨q, rfl, rfl, id⟩
    rw [takeLoop, hq1] at hrun
    rw [BlockPool.takeLoop, hpool1]
    split at hrun
    · rename_i hzero
      obtain ⟨he, hpool⟩ := ih hrun
      obtain ⟨hs, hh⟩ := BlockPool.addRef_same 1 q1.pool b
      rw [if_pos hzero]
      exact ⟨hback (.same hs hh he), hpool⟩
    · cases hrun

theorem getNewBlocks_spec {n : ℤ} (hrun : q.getNewBlocks useInt n = some (bs, q')) :
    Evolves useInt q' q ∧ q.pool.getNewBlocks n = some (bs, q'.pool) := by
  unfold EventPool.getNewBlocks at hrun
  unfold BlockPool.getNewBlocks
  split at hrun
  · cases hrun
  · rename_i hfree
    obtain ⟨⟨bs', free⟩, hpop, hrun⟩ := bind_eq_some_iff.mp hrun
    obtain ⟨q1, hq1, hrun⟩ := bind_eq_some_iff.mp hrun
    cases hrun
    obtain ⟨he, hpool⟩ := takeLoop_spec hq1
    refine ⟨.same (.of_queue _ free) (.of_queue _ free) he, ?_⟩
    rw [if_neg hfree, hpop]
    show (BlockPool.takeLoop bs _ >>= fun p => some (bs, p)) = _
    rw [hpool]
    rfl

theorem touch_same (hrun : p.touch bs = some p') : p.SameShape p' ∧ p.SameHashes p' := by
  induction bs generalizing p with
  | nil =>
    cases hrun
    exact ⟨.refl _, .refl _⟩
  | cons b bs ih =>
    obtain ⟨free, -, hrun⟩ := bind_eq_some_iff.mp hrun
    obtain ⟨hs, hh⟩ := BlockPool.addRef_same 1 { p with freeBlockQueue := free } b
    obtain ⟨hs', hh'⟩ := ih hrun
    exact ⟨((BlockPool.SameShape.of_queue p free).trans hs).trans hs',
      ((BlockPool.SameHashes.of_queue p free).trans hh).trans hh'⟩

theorem Follows.resetPrefixCache (h : Follows useInt p0 es q) :
    Follows useInt p0 es q.resetPrefixCache.2 := by
  obtain ⟨hs, -, hh, -⟩ := BlockPool.resetPrefixCache_spec h.hashed.inv
  unfold EventPool.resetPrefixCache
  unfold BlockPool.resetPrefixCache at hs hh ⊢
  split at hs
  · rename_i hused
    rw [if_pos hused]
    exact h
  · rename_i hused
    rw [if_neg hused] at hh ⊢
    constructor
    case hashed => exact h.hashed.of_shape hs hh fun k bs hk => by cases hk
    case replays =>
      unfold Replays
      rw [replay_append_singleton]
      rfl
    case shape => exact h.shape.trans hs
    case stored =>
      unfold EventPool.stored
      rw [filterMap_append, ← h.stored]
      exact append_nil _

/-! ## `cache_full_blocks` -/

theorem Hashed.cacheBlock (h : Hashed p) (hb : b < p.blocks.length) (hne : b ≠ p.nullBlock)
    (hnone : (p.block b).blockHash = none) (hash : Bytes) (groupId : ℕ) :
    Hashed (p.cacheBlock ⟨hash, groupId⟩ b) ∧ p.SameShape (p.cacheBlock ⟨hash, groupId⟩ b) := by
  obtain ⟨hshape, -, hinv, -⟩ := BlockPool.cacheBlock_spec h.inv hb hne hnone ⟨hash, groupId⟩
  exact ⟨h.of_shape hshape hinv h.ids.insert, hshape⟩

theorem cacheLoop_cons
    (hrun : cacheLoop useInt groupId (b :: bs) hashes p = some (newHashes, p')) :
    ((p.block b).isNull = true ∧
      cacheLoop useInt groupId bs hashes.tail p = some (newHashes, p')) ∨
    ∃ hash hs rest, ¬ (p.block b).isNull = true ∧ (p.block b).blockHash = none ∧
      hashes = hash :: hs ∧ newHashes = maybeConvertBlockHash useInt hash :: rest ∧
      cacheLoop useInt groupId bs hs (p.cacheBlock ⟨hash, groupId⟩ b) = some (rest, p') := by
  unfold cacheLoop at hrun
  split at hrun
  · exact .inl ⟨‹_›, hrun⟩
  · rename_i hproper
    split at hrun
    · rename_i hash hs hnone
      obtain ⟨⟨rest, p1⟩, hrest, hrun⟩ := bind_eq_some_iff.mp hrun
      cases hrun
      exact .inr ⟨hash, hs, rest, hproper, hnone, rfl, rfl, hrest⟩
    · cases hrun

/-- The loop stores the hashes that it collects, which are those of the proper blocks; without null
blocks they are in step. -/
theorem cacheLoop_content (h : Hashed p) (hbs : ∀ b ∈ bs, b < p.blocks.length)
    (hrun : cacheLoop useInt groupId bs hashes p = some (newHashes, p')) :
    Hashed p' ∧ p.SameShape p' ∧ cachedHashes useInt p'.cachedBlockHashToBlock =
      cachedHashes useInt p.cachedBlockHashToBlock + newHashes ∧
    newHashes.length = (bs.filter (· ≠ p.nullBlock)).length ∧
      (p.nullBlock ∉ bs →
        newHashes = (hashes.take bs.length).map (maybeConvertBlockHash useInt)) := by
  induction bs generalizing hashes newHashes p with
  | nil =>
    cases hrun
    exact ⟨h, .refl _, by rw [Multiset.coe_nil, add_zero], rfl, fun _ => rfl⟩
  | cons b bs ih =>
    rcases cacheLoop_cons hrun with
      ⟨hnull, hrun⟩ | ⟨hash, hs, rest, hproper, hnone, rfl, rfl, hrest⟩
    · have hb : b = p.nullBlock := (h.null b).mp hnull
      obtain ⟨h', hs, hcontent, hlength, -⟩ :=
        ih h (fun c hc => hbs c (mem_cons_of_mem _ hc)) hrun
      rw [filter_cons_of_neg (by simp [hb])]
      exact ⟨h', hs, hcontent, hlength, fun hmem => absurd (hb ▸ mem_cons_self) hmem⟩
    · have hne : b ≠ p.nullBlock := fun heq => hproper ((h.null b).mpr heq)
      obtain ⟨hone, hshape⟩ := h.cacheBlock (hbs b mem_cons_self) hne hnone hash groupId
      have hnew : ¬ p.cachedBlockHashToBlock.Stores ⟨hash, groupId⟩ b := by
        rw [← h.inv.stores b, hnone]
        exact fun heq => by cases heq
      obtain ⟨h', hs', hcontent, hlength, hstep⟩ := ih hone
        (fun c hc => by rw [hshape.length]; exact hbs c (mem_cons_of_mem _ hc)) hrest
      rw [hshape.nullBlock] at hlength hstep
      refine ⟨h', hshape.trans hs', ?_, ?_, fun hmem => ?_⟩
      · calc cachedHashes useInt p'.cachedBlockHashToBlock
            = cachedHashes useInt (p.cachedBlockHashToBlock.insert ⟨hash, groupId⟩ b) + rest :=
              hcontent
          _ = maybeConvertBlockHash useInt hash ::ₘ
                cachedHashes useInt p.cachedBlockHashToBlock + rest := by
              rw [cachedHashes_insert hnew]
          _ = cachedHashes useInt p.cachedBlockHashToBlock +
                ((maybeConvertBlockHash useInt hash :: rest : List ExternalBlockHash) :
                  Multiset ExternalBlockHash) := by
              rw [← Multiset.cons_coe, Multiset.cons_add, Multiset.add_cons]
      · rw [filter_cons_of_pos (by simpa using hne), length_cons, length_cons,
          hlength]
      · rw [hstep fun hc => hmem (mem_cons_of_mem _ hc), length_cons,
          take_succ_cons, map_cons]

theorem extraKeysLoop_length {r : RequestContent E} {bsz : ℕ} {i : ℕ} {mm : ℤ}
    {keys : List (Option (List ExtraKey))}
    (hnull : ∀ b, (p.block b).isNull = true ↔ b = p.nullBlock)
    (hrun : extraKeysLoop H r p bsz bs i mm = some keys) :
    keys.length = (bs.filter (· ≠ p.nullBlock)).length := by
  induction bs generalizing i mm keys with
  | nil =>
    cases hrun
    rfl
  | cons b bs ih =>
    unfold extraKeysLoop at hrun
    split at hrun
    · rename_i hb
      rw [filter_cons_of_neg (by simp [(hnull b).mp hb])]
      exact ih hrun
    · rename_i hb
      obtain ⟨⟨key, mm'⟩, -, hrun⟩ := bind_eq_some_iff.mp hrun
      obtain ⟨rest, hrest, hrun⟩ := bind_eq_some_iff.mp hrun
      cases hrun
      have hne : b ≠ p.nullBlock := fun heq => hb ((hnull b).mpr heq)
      rw [filter_cons_of_pos (by simpa using hne), length_cons, length_cons,
        ih hrest]

/-- The event of a call. -/
def storedEvent {H : Hasher E} (c : StoreCall H) (newHashes : List ExternalBlockHash)
    (parent : Option ExternalBlockHash) (keys : List (Option (List ExtraKey))) : BlockStored where
  blockHashes := newHashes
  parentBlockHash := parent
  tokenIds := (c.request.allTokenIds.take (c.numFullBlocks * H.blockSize)).drop
    (c.numCachedBlocks * H.blockSize)
  blockSize := H.blockSize
  loraId := c.request.loraId
  loraName := c.request.loraName
  extraKeys := if keys = [] then none else some keys

/-- What a call that stores blocks does. -/
theorem cacheFullBlocks_eq_some {c : StoreCall H} (hlt : ¬ c.numFullBlocks ≤ c.numCachedBlocks)
    (hrun : q.cacheFullBlocks useInt c.request c.blocks c.numCachedBlocks c.numFullBlocks
      H.blockSize groupId = some q') :
    ∃ hashes newHashes pool parent keys, ¬ c.request.blockHashes.length < c.numFullBlocks ∧
      ¬ c.blocks.length < c.numFullBlocks ∧
      q.pool.hashesAt H.blockSize c.request.blockHashes = some hashes ∧
      cacheLoop useInt groupId c.newFullBlocks (hashes.drop c.numCachedBlocks) q.pool =
        some (newHashes, pool) ∧
      extraKeysLoop H c.request.toRequestContent pool H.blockSize c.newFullBlocks
        c.numCachedBlocks 0 = some keys ∧
      q' = { pool, kvEventQueue := q.kvEventQueue ++
        [.blockStored (storedEvent c newHashes parent keys)] } := by
  unfold EventPool.cacheFullBlocks at hrun
  rw [if_neg hlt] at hrun
  split at hrun
  · cases hrun
  · rename_i hfull
    obtain ⟨hashes, hat, hrun⟩ := bind_eq_some_iff.mp hrun
    obtain ⟨⟨newHashes, pool⟩, hloop, hrun⟩ := bind_eq_some_iff.mp hrun
    obtain ⟨parent, -, hrun⟩ := bind_eq_some_iff.mp hrun
    split at hrun
    · cases hrun
    · rename_i hlength
      obtain ⟨keys, hkeys, hrun⟩ := bind_eq_some_iff.mp hrun
      cases hrun
      exact ⟨hashes, newHashes, pool, parent, keys, hfull, hlength, hat, hloop, hkeys, rfl⟩

theorem cacheLoop_pool (hrun : cacheLoop useInt groupId bs hashes p = some (newHashes, p')) :
    p.cacheLoop groupId bs hashes = some p' := by
  induction bs generalizing hashes newHashes p with
  | nil =>
    cases hrun
    rfl
  | cons b bs ih =>
    unfold BlockPool.cacheLoop
    rcases cacheLoop_cons hrun with ⟨hnull, hrun⟩ | ⟨hash, hs, rest, hproper, hnone, rfl, -, hrest⟩
    · rw [if_pos hnull]
      exact ih hrun
    · rw [if_neg hproper, hnone]
      exact ih hrest

theorem cacheFullBlocks_pool {c : StoreCall H}
    (hrun : q.cacheFullBlocks useInt c.request c.blocks c.numCachedBlocks c.numFullBlocks
      H.blockSize groupId = some q') :
    q.pool.cacheFullBlocks c.request.blockHashes c.blocks c.numCachedBlocks c.numFullBlocks
      H.blockSize groupId = some q'.pool := by
  unfold BlockPool.cacheFullBlocks
  by_cases hle : c.numFullBlocks ≤ c.numCachedBlocks
  · unfold EventPool.cacheFullBlocks at hrun
    rw [if_pos hle] at hrun ⊢
    cases hrun
    rfl
  · obtain ⟨hashes, newHashes, pool, parent, keys, hfull, -, hat, hloop, -, rfl⟩ :=
      cacheFullBlocks_eq_some hle hrun
    rw [if_neg hle, if_neg hfull, hat]
    exact cacheLoop_pool hloop

theorem resetPrefixCache_pool (q : EventPool) :
    q.resetPrefixCache.2.pool = q.pool.resetPrefixCache.2 := by
  unfold EventPool.resetPrefixCache
  cases q.pool.resetPrefixCache with
  | mk done pool => cases done <;> rfl

end EventPool

/-! ## The runs -/

/-- The event gives a block of tokens and an entry of extra keys for each of its hashes, and its
`i`-th hash is that of the `i`-th block of tokens: both belong to the same block of the request. -/
structure Describes {H : Hasher E} (useInt : Bool) (c : StoreCall H) (e : BlockStored) : Prop where
  tokens : e.tokenIds.length = e.blockSize * e.blockHashes.length
  extraKeys : ∃ keys, e.extraKeys = some keys ∧
    e.blockSize * e.blockHashes.length = e.blockSize * keys.length
  hashes : ∀ i hash, e.blockHashes[i]? = some hash →
    ∃ h, c.request.blockHashes[c.numCachedBlocks + i]? = some h ∧
      hash = maybeConvertBlockHash useInt h ∧
      (e.tokenIds.drop (i * e.blockSize)).take e.blockSize =
        (c.request.allTokenIds.drop ((c.numCachedBlocks + i) * e.blockSize)).take e.blockSize

namespace EventLog

open EventPool BlockHashToBlockMap KVCacheEvent

variable {H : Hasher E} {l l' : EventLog H} {p0 : BlockPool} {es : List BlockStored}

/-- The same call of a pool without events. -/
def onPool (groupId : ℕ) (p : BlockPool) : PoolOp H → Option BlockPool
  | .cacheFullBlocks c => p.cacheFullBlocks c.request.blockHashes c.blocks c.numCachedBlocks
      c.numFullBlocks H.blockSize groupId
  | .getNewBlocks numBlocks => (p.getNewBlocks numBlocks).map Prod.snd
  | .evictBlocks blockIds => p.evictBlocks blockIds
  | .touch blocks => p.touch blocks
  | .freeBlocks orderedBlocks => p.freeBlocks orderedBlocks
  | .resetPrefixCache => some p.resetPrefixCache.2

/-- **The events do not change what the pool does.** -/
theorem step_onPool {op : PoolOp H} (hrun : l.step useInt groupId op = some l') :
    onPool groupId l.q.pool op = some l'.q.pool := by
  cases op with
  | cacheFullBlocks c =>
    obtain ⟨-, hrun⟩ := ite_none_right_eq_some.mp hrun
    obtain ⟨q, hq, hrun⟩ := bind_eq_some_iff.mp hrun
    cases hrun
    exact cacheFullBlocks_pool hq
  | getNewBlocks n =>
    obtain ⟨⟨bs, q⟩, hq, hrun⟩ := bind_eq_some_iff.mp hrun
    cases hrun
    rw [onPool, (getNewBlocks_spec hq).2]
    rfl
  | evictBlocks bs =>
    obtain ⟨q, hq, hrun⟩ := bind_eq_some_iff.mp hrun
    cases hrun
    exact (evictBlocks_spec hq).2
  | touch bs | freeBlocks bs =>
    obtain ⟨-, hrun⟩ := ite_none_right_eq_some.mp hrun
    obtain ⟨q, hq, hrun⟩ := bind_eq_some_iff.mp hrun
    cases hrun
    obtain ⟨pool, hpool, hq⟩ := bind_eq_some_iff.mp hq
    cases hq
    exact hpool
  | resetPrefixCache =>
    cases hrun
    exact congrArg some (resetPrefixCache_pool l.q).symm

/-- The tokens of a block within the tokens of the event. -/
theorem slice_tokens {tokens : List ℤ} {cached full i n : ℕ} (hi : cached + i < full) :
    (((tokens.take (full * n)).drop (cached * n)).drop (i * n)).take n =
      (tokens.drop ((cached + i) * n)).take n := by
  have hle : (cached + i + 1) * n ≤ full * n := Nat.mul_le_mul_right n hi
  rw [Nat.succ_mul] at hle
  rw [drop_drop, ← Nat.add_mul, drop_take, take_take, Nat.min_eq_left (by omega)]

/-- A call describes what it stores exactly if it has no null block. -/
theorem store_spec {q q' : EventPool} {c : StoreCall H} (h : Follows useInt p0 es q)
    (hsize : p0.hashBlockSize = H.blockSize) (hbs : ∀ b ∈ c.blocks, b < q.pool.blocks.length)
    (hlt : ¬ c.numFullBlocks ≤ c.numCachedBlocks)
    (hrun : q.cacheFullBlocks useInt c.request c.blocks c.numCachedBlocks c.numFullBlocks
      H.blockSize groupId = some q') :
    ∃ e, Follows useInt p0 (es ++ [e]) q' ∧
      (Describes useInt c e ↔ p0.nullBlock ∉ c.newFullBlocks) := by
  obtain ⟨hashes, newHashes, pool, parent, keys, hhashes, hblocks, hat, hloop, hkeys, rfl⟩ :=
    cacheFullBlocks_eq_some hlt hrun
  rw [BlockPool.hashesAt, if_pos (h.shape.hashBlockSize.trans hsize).symm] at hat
  cases hat
  have hnew : ∀ b ∈ c.newFullBlocks, b < q.pool.blocks.length := fun b hb =>
    hbs b (mem_of_mem_take (mem_of_mem_drop hb))
  obtain ⟨hhashed, hshape, hcontent, hnum, hstep⟩ := cacheLoop_content h.hashed hnew hloop
  have hnumKeys := extraKeysLoop_length hhashed.null hkeys
  rw [hshape.nullBlock] at hnumKeys
  rw [h.shape.nullBlock] at hnum hnumKeys hstep
  have hrange : c.newFullBlocks.length = c.numFullBlocks - c.numCachedBlocks := by
    unfold StoreCall.newFullBlocks
    rw [length_drop, length_take, Nat.min_eq_left (Nat.le_of_not_lt hblocks)]
  have htokens : (storedEvent c newHashes parent keys).tokenIds.length =
      H.blockSize * c.newFullBlocks.length := by
    have hcovered : c.numFullBlocks * H.blockSize ≤ c.request.allTokenIds.length :=
      (Nat.mul_le_mul_right _ (Nat.le_of_not_lt hhashes)).trans c.request.covered
    unfold storedEvent
    rw [length_drop, length_take, Nat.min_eq_left hcovered, hrange, ← Nat.sub_mul,
      Nat.mul_comm]
  refine ⟨storedEvent c newHashes parent keys, ⟨hhashed, ?_, h.shape.trans hshape, ?_⟩, ?_, ?_⟩
  · unfold Replays
    rw [replay_append_singleton, h.replays]
    exact hcontent.symm
  · unfold EventPool.stored
    rw [filterMap_append, ← h.stored]
    rfl
  · -- as many hashes as blocks, so none of the blocks is left out
    intro hdesc hmem
    have hlength : _ = H.blockSize * newHashes.length := hdesc.tokens
    rw [htokens, hnum] at hlength
    have heq := Nat.eq_of_mul_eq_mul_left H.blockSize_pos hlength
    have hall := length_filter_eq_length_iff.mp heq.symm _ hmem
    simp at hall
  · intro hnull
    have hproper : c.newFullBlocks.filter (· ≠ p0.nullBlock) = c.newFullBlocks := by
      refine filter_eq_self.mpr fun b hb => decide_eq_true ?_
      rintro rfl
      exact hnull hb
    rw [hproper] at hnum hnumKeys
    have hkeysNe : keys ≠ [] := by
      rw [← length_pos_iff, hnumKeys, hrange]
      omega
    constructor
    case tokens =>
      show _ = H.blockSize * newHashes.length
      rw [htokens, hnum]
    case extraKeys =>
      refine ⟨keys, if_neg hkeysNe, ?_⟩
      show H.blockSize * newHashes.length = H.blockSize * keys.length
      rw [hnum, hnumKeys]
    case hashes =>
      intro i hash hi
      change newHashes[i]? = some hash at hi
      have hlt' : i < newHashes.length := (List.getElem?_eq_some_iff.mp hi).1
      have hin : c.numCachedBlocks + i < c.numFullBlocks := by
        omega
      rw [hstep hnull, getElem?_map, map_eq_some_iff] at hi
      obtain ⟨h0, hget, rfl⟩ := hi
      refine ⟨h0, ?_, rfl, slice_tokens hin⟩
      rw [getElem?_take] at hget
      split at hget
      · rw [getElem?_drop] at hget
        exact hget
      · cases hget

/-- The state of a run: each event describes its call exactly if the call has no null block. -/
def Sound (useInt : Bool) (p0 : BlockPool) (l : EventLog H) : Prop :=
  ∃ es, Follows useInt p0 es l.q ∧
    Forall₂ (fun c e => Describes useInt c e ↔ p0.nullBlock ∉ c.newFullBlocks) l.calls es

theorem of_known {l : EventLog H} {bs : List BlockId} (h : l.known bs = true) :
    ∀ b ∈ bs, b < l.q.pool.blocks.length := by
  intro b hb
  exact of_decide_eq_true (all_eq_true.mp h b hb)

theorem Sound.step {op : PoolOp H} (h : Sound useInt p0 l) (hsize : p0.hashBlockSize = H.blockSize)
    (hrun : l.step useInt groupId op = some l') : Sound useInt p0 l' := by
  obtain ⟨es, hfollows, hcalls⟩ := h
  cases op with
  | cacheFullBlocks c =>
    obtain ⟨hknown, hrun⟩ := ite_none_right_eq_some.mp hrun
    obtain ⟨q, hq, hrun⟩ := bind_eq_some_iff.mp hrun
    cases hrun
    by_cases hle : c.numFullBlocks ≤ c.numCachedBlocks
    · -- nothing to cache
      unfold EventPool.cacheFullBlocks at hq
      rw [if_pos hle] at hq
      cases hq
      exact ⟨es, hfollows, by rw [if_pos hle]; exact hcalls⟩
    · obtain ⟨e, hfollows', hone⟩ :=
        store_spec hfollows hsize (of_known hknown) hle hq
      refine ⟨es ++ [e], hfollows', ?_⟩
      rw [if_neg hle]
      exact rel_append hcalls (.cons hone .nil)
  | getNewBlocks n =>
    obtain ⟨⟨bs, q⟩, hq, hrun⟩ := bind_eq_some_iff.mp hrun
    cases hrun
    exact ⟨es, hfollows.evolves (getNewBlocks_spec hq).1, hcalls⟩
  | evictBlocks bs =>
    obtain ⟨q, hq, hrun⟩ := bind_eq_some_iff.mp hrun
    cases hrun
    exact ⟨es, hfollows.evolves (evictBlocks_spec hq).1, hcalls⟩
  | touch bs | freeBlocks bs =>
    obtain ⟨-, hrun⟩ := ite_none_right_eq_some.mp hrun
    obtain ⟨q, hq, hrun⟩ := bind_eq_some_iff.mp hrun
    cases hrun
    obtain ⟨pool, hpool, hq⟩ := bind_eq_some_iff.mp hq
    cases hq
    obtain ⟨hs, hh⟩ : l.q.pool.SameShape pool ∧ l.q.pool.SameHashes pool := by
      first | exact touch_same hpool | exact BlockPool.freeBlocks_same hpool
    exact ⟨es, hfollows.same hs hh, hcalls⟩
  | resetPrefixCache =>
    cases hrun
    exact ⟨es, hfollows.resetPrefixCache, hcalls⟩

theorem forall₂_iff_of {α β : Type} {R : α → β → Prop} {S : α → Prop} {xs : List α} {ys : List β}
    (h : Forall₂ (fun x y => R x y ↔ S x) xs ys) : Forall₂ R xs ys ↔ ∀ x ∈ xs, S x := by
  induction h with
  | nil => exact ⟨fun _ _ hx => absurd hx not_mem_nil, fun _ => .nil⟩
  | cons hone _ ih => rw [List.forall₂_cons, forall_mem_cons, hone, ih]

/-- **The events replay to the content of the cache** in every run, and every `BlockStored` event
describes the blocks that it stores exactly if no call of `cache_full_blocks` has a null block. -/
theorem replays_and_describes_iff {numGpuBlocks : ℕ} {enableCaching : Bool}
    (hinit : BlockPool.init numGpuBlocks enableCaching H.blockSize = some p0)
    (h : Reach (step useInt groupId) always (init H p0) l) :
    l.q.Replays useInt ∧ (Forall₂ (Describes useInt) l.calls l.q.stored ↔
      ∀ c ∈ l.calls, p0.nullBlock ∉ c.newFullBlocks) := by
  obtain ⟨href, hhash, -, -, hsize, -⟩ := BlockPool.init_spec hinit
  have hsound : Sound useInt p0 l := by
    refine h.invariant (Sound useInt p0) ?_ fun l op l' hl _ hstep => hl.step hsize hstep
    have hempty : p0.cachedBlockHashToBlock = ∅ := by
      obtain ⟨x, -, hp⟩ := bind_eq_some_iff.mp hinit
      cases hp
      rfl
    refine ⟨[], ⟨⟨hhash, fun k bs hk => ?_, href.isNull_iff⟩, ?_, .refl _, rfl⟩, .nil⟩
    · change p0.cachedBlockHashToBlock.get? k = _ at hk
      rw [hempty] at hk
      cases hk
    · show replay [] = cachedHashes useInt p0.cachedBlockHashToBlock
      rw [hempty]
      rfl
  obtain ⟨es, hfollows, hcalls⟩ := hsound
  refine ⟨hfollows.replays, ?_⟩
  rw [hfollows.stored]
  exact forall₂_iff_of hcalls

/-- Blocks of two tokens; the values of the hash function do not matter here. -/
def pairHasher : Hasher Unit where
  blockSize := 2
  blockSize_pos := by decide
  hashFunction x := x.1
  noneHash := []
  embedsDigest _ := []

/-- A request of two full blocks. -/
def pairRequest : EventRequest pairHasher where
  allTokenIds := [1, 2, 3, 4]
  blockHashes := [[1], [2]]
  mmFeatures := []
  loraName := none
  cacheSalt := none
  promptEmbeds := none
  loraId := none
  covered := by decide

def pairCall (blocks : List BlockId) : StoreCall pairHasher where
  request := pairRequest
  blocks := blocks
  numCachedBlocks := 0
  numFullBlocks := 2

/-- The same prefix is stored twice, and the second copy is evicted for a new block. -/
def duplicateOps : List (PoolOp pairHasher) :=
  [.getNewBlocks 2, .cacheFullBlocks (pairCall [1, 2]), .getNewBlocks 2,
    .cacheFullBlocks (pairCall [3, 4]), .freeBlocks [4, 3], .getNewBlocks 1]

theorem duplicate_prefix_is_described : ∃ p l, BlockPool.init 5 true 2 = some p ∧
    Reach (step true 0) always (init pairHasher p) l ∧ l.q.kvEventQueue.length = 3 ∧
    l.q.Replays true ∧ Forall₂ (Describes true) l.calls l.q.stored := by
  obtain ⟨p, hp, l, hl, hlength, hcalls⟩ : ∃ p ∈ BlockPool.init 5 true 2,
      ∃ l ∈ run (step true 0) (init pairHasher p) duplicateOps,
        l.q.kvEventQueue.length = 3 ∧ ∀ c ∈ l.calls, p.nullBlock ∉ c.newFullBlocks := by
    decide +kernel
  have hreach := Reach.of_run .init hl
  obtain ⟨hreplays, hiff⟩ := replays_and_describes_iff (H := pairHasher) hp hreach
  exact ⟨p, l, hp, hreach, hlength, hreplays, hiff.mpr hcalls⟩

/-- The first block has left the window: the event has four tokens for its one hash. -/
theorem null_block_keeps_its_tokens : ∃ p l, BlockPool.init 3 true 2 = some p ∧
    Reach (step true 0) always (init pairHasher p) l ∧
    (l.q.stored.map fun e => (e.tokenIds, e.blockHashes, e.blockSize)) =
      [([1, 2, 3, 4], [.int 2], 2)] ∧
    ¬ Forall₂ (Describes true) l.calls l.q.stored := by
  obtain ⟨p, hp, l, hl, hstored⟩ : ∃ p ∈ BlockPool.init 3 true 2,
      ∃ l ∈ run (step true 0) (init pairHasher p)
        [.getNewBlocks 1, .cacheFullBlocks (pairCall [0, 1])],
        (l.q.stored.map fun e => (e.tokenIds, e.blockHashes, e.blockSize)) =
          [([1, 2, 3, 4], [.int 2], 2)] := by
    decide +kernel
  refine ⟨p, l, hp, Reach.of_run .init hl, hstored, fun hall => ?_⟩
  obtain ⟨e, he, heq⟩ := map_eq_singleton_iff.mp hstored
  rw [he] at hall
  obtain ⟨c, cs, hdesc, -, -⟩ := List.forall₂_cons_right_iff.mp hall
  obtain ⟨htokens, hrest⟩ := Prod.mk.inj heq
  obtain ⟨hhashes, hsize⟩ := Prod.mk.inj hrest
  have hlength := hdesc.tokens
  rw [htokens, hhashes, hsize] at hlength
  cases hlength

end EventLog

end Nvllm.KVCache
