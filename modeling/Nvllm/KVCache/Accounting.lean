import Nvllm.KVCache.CoordinatorInv
import Nvllm.Lib.Run

/-! # Block-pool accounting over whole runs

A run of the KV cache manager is any sequence of its methods. Hits are never made up by the caller:
`allocate_slots` is given what `get_computed_blocks` returned for the same request just before, or
none at all. In every state of a run the reference counts, the free queue and the hashes have to
agree with the block tables.

They do as long as the hits handed to `allocate_slots` fit next to the external tokens. The search
for hits over several attention groups cuts only the first full-attention group to the length that
all groups agree on; a second one may keep hits beyond that length, and with external tokens the
manager then asks the pool for a negative number of blocks. The free queue answers by counting
blocks it does not have.
-/

namespace Nvllm.KVCache

open Nvllm.Run

namespace KVCacheManager

/-! ## Runs -/

/-- A call of a method. `allocateSlots` comes with the preceding `get_computed_blocks` if
`withHits` is set. -/
inductive Call
  | allocateSlots (r : KVRequest) (withHits : Bool) (a : SlotArgs)
  | free (r : RequestId)
  | cacheBlocks (r : KVRequest) (numComputedTokens : ℕ)
  | removeSkippedBlocks (r : RequestId) (totalComputedTokens : ℕ)
  | evictBlocks (bs : List BlockId)
  | resetPrefixCache
  | newStepStarts

/-- The hits that come with a call of `allocate_slots` and the tokens they stand for. -/
def hitsFor (k : KVCacheManager) (r : KVRequest) (withHits : Bool) :
    Option (List (List BlockId) × ℕ) :=
  if withHits then k.getComputedBlocks r else some (k.emptyHits, 0)

def step (k : KVCacheManager) : Call → Option KVCacheManager
  | .allocateSlots r withHits a => do
    let (hits, n) ← k.hitsFor r withHits
    let (_, k) ← k.allocateSlots r n hits a
    return k
  | .free r => k.free r
  | .cacheBlocks r n => k.cacheBlocks r n
  | .removeSkippedBlocks r n => k.removeSkippedBlocks r n
  | .evictBlocks bs => k.evictBlocks bs
  | .resetPrefixCache => some k.resetPrefixCache.2
  | .newStepStarts => some k.newStepStarts

/-- The hits of the call fit: with external tokens no manager that does not follow the request yet
is given more hits than the computed tokens have blocks. -/
def CallFits (k : KVCacheManager) : Call → Prop
  | .allocateSlots r withHits a => ∀ hits n, k.hitsFor r withHits = some (hits, n) →
      k.HitsFit r.requestId hits (r.numComputedTokens + n).toNat
      a.numExternalComputedTokens
  | _ => True

instance (m : Manager) (r : RequestId) (hs : List BlockId) (numLocal numExternal : ℕ) :
    Decidable (m.Fits r hs numLocal numExternal) := inferInstanceAs (Decidable (_ → _ → _ → _))

instance (k : KVCacheManager) (c : Call) : Decidable (k.CallFits c) :=
  match c with
  | .allocateSlots r withHits a =>
    decidable_of_iff (∀ p ∈ k.hitsFor r withHits, List.Forall₂ (fun m hs =>
      m.Fits r.requestId hs (r.numComputedTokens + p.2).toNat a.numExternalComputedTokens)
      k.managers p.1) Prod.forall
  | .free _ | .cacheBlocks _ _ | .removeSkippedBlocks _ _ | .evictBlocks _ | .resetPrefixCache
  | .newStepStarts => isTrue trivial

/-! ## The property -/

/-- **Accounting.** The counts are the occurrences in the tables; the free queue is sound and holds
exactly the proper blocks that nobody references; a block has a hash exactly if the map stores it
under that hash; the null block is never queued, hashed or handed out. -/
structure Accounting (k : KVCacheManager) : Prop where
  refCnt : ∀ b, b ≠ k.pool.nullBlock → (k.pool.block b).refCnt = references k.managers b
  queue : ∃ as, k.pool.freeBlockQueue.Repr as ∧
    ∀ b, b ∈ as ↔ b < k.pool.numGpuBlocks ∧ b ≠ k.pool.nullBlock ∧ (k.pool.block b).refCnt = 0
  hash : ∀ b key, (k.pool.block b).blockHash = some key ↔
    k.pool.cachedBlockHashToBlock.Stores key b
  null_not_hashed : (k.pool.block k.pool.nullBlock).blockHash = none
  null_not_handed_out : ∀ (n : ℤ) (bs : List BlockId) (p : BlockPool),
    k.pool.getNewBlocks n = some (bs, p) → k.pool.nullBlock ∉ bs

theorem Inv.accounting {k : KVCacheManager} (h : k.Inv) : k.Accounting where
  refCnt b hb := by
    rw [h.ref.ref b hb]
    rfl
  queue := by
    obtain ⟨as, has, hmem⟩ := h.ref.free
    refine ⟨as, has, fun b => (hmem b).trans ?_⟩
    refine and_congr_right fun _ => and_congr_right fun hb => ?_
    rw [h.ref.ref b hb, Int.natCast_eq_zero]
  hash := h.hash.stores
  null_not_hashed := h.hash.null
  null_not_handed_out n bs p hget hmem := by
    rcases lt_or_ge n 0 with hn | hn
    · rw [BlockPool.getNewBlocks_of_neg hn hget] at hmem
      cases hmem
    · obtain ⟨n, rfl⟩ := Int.eq_ofNat_of_zero_le hn
      exact ((BlockPool.getNewBlocks_spec h.ref h.hash hget).2.2.1 _ hmem).2.1 rfl

/-- The queue counts as many blocks as are free. -/
theorem Accounting.size_eq {k : KVCacheManager} (h : k.Accounting) :
    k.pool.getNumFreeBlocks = ((List.range k.pool.numGpuBlocks).filter fun b =>
      b ≠ k.pool.nullBlock ∧ (k.pool.block b).refCnt = 0).length := by
  obtain ⟨as, has, hmem⟩ := h.queue
  have hperm : as.Perm ((List.range k.pool.numGpuBlocks).filter fun b =>
      b ≠ k.pool.nullBlock ∧ (k.pool.block b).refCnt = 0) := by
    rw [List.perm_ext_iff_of_nodup has.nodup (List.nodup_range.filter _)]
    intro b
    simp [hmem b]
  rw [BlockPool.getNumFreeBlocks, has.size, hperm.length_eq]

/-! ## What a step preserves, and what a run preserves -/

theorem hitsFor_ok {k : KVCacheManager} (h : k.Inv) {r : KVRequest} {withHits : Bool} {n : ℕ}
    {hits : List (List BlockId)} (he : k.hitsFor r withHits = some (hits, n)) :
    ∀ hs ∈ hits, Manager.Hits k.pool hs := by
  unfold hitsFor at he
  split at he
  · exact (getComputedBlocks_ok h he).2
  · cases he
    intro hs hmem
    obtain ⟨m, -, rfl⟩ := List.mem_map.mp hmem
    exact hits_nil _

theorem step_inv {k k' : KVCacheManager} {c : Call} (h : k.Inv) (hfits : k.CallFits c)
    (he : k.step c = some k') : k'.Inv := by
  cases c with
  | allocateSlots r withHits a =>
    simp only [step, bind, Option.bind_eq_some_iff] at he
    obtain ⟨⟨hits, n⟩, hhits, ⟨res, k1⟩, hslots, he⟩ := he
    cases he
    exact allocateSlots_inv h (hitsFor_ok h hhits) (hfits hits n hhits) hslots
  | free r => exact free_inv h he
  | cacheBlocks r n => exact cacheBlocks_inv h he
  | removeSkippedBlocks r n => exact (removeSkippedBlocks_inv h he).1
  | evictBlocks bs => exact evictBlocks_inv h he
  | resetPrefixCache =>
    cases he
    exact resetPrefixCache_inv h
  | newStepStarts =>
    cases he
    exact newStepStarts_inv h

/-- **Accounting over runs.** In every state of a run whose hits fit, the accounting holds. -/
theorem accounting_of_fitting_run {c : KVCacheConfig} {k0 k : KVCacheManager}
    (h0 : init c = some k0) (h : Reach step CallFits k0 k) : k.Accounting :=
  (h.invariant Inv (init_inv h0) fun _ _ _ hi hf he => step_inv hi hf he).accounting

/-- A call without hits always fits. -/
theorem callFits_without_hits (k : KVCacheManager) (r : KVRequest) (a : SlotArgs) :
    k.CallFits (.allocateSlots r false a) := by
  intro hits n he
  cases he
  unfold HitsFit emptyHits
  induction k.managers with
  | nil => exact .nil
  | cons m ms ih => exact .cons (fun _ _ _ => Nat.zero_le _) ih

/-! ## A second full-attention group -/

/-- One byte as a digest, for up to 256 blocks. -/
def digests (n : ℕ) : List Bytes := (List.range (min n 256)).map fun i => [UInt8.ofNat i]

theorem digests_nodup (n : ℕ) : (digests n).Nodup := by
  refine List.nodup_range.map_on fun i hi j hj h => ?_
  rw [List.mem_range] at hi hj
  have hval := congrArg UInt8.toNat (List.cons.inj h).1
  rw [UInt8.toNat_ofNat', UInt8.toNat_ofNat'] at hval
  omega

theorem digests_sameLength (n : ℕ) :
    ∀ a ∈ digests n, ∀ b ∈ digests n, a.length = b.length := by
  have hone : ∀ a ∈ digests n, a.length = 1 := List.forall_mem_map.mpr fun _ _ => rfl
  exact fun a ha b hb => (hone a ha).trans (hone b hb).symm

/-- Two full-attention groups of different layout and one sliding window, all with blocks of one
token. -/
def twoFullConfig : KVCacheConfig where
  numBlocks := 17
  specs := [⟨.full false, 1, 0, by decide, by decide⟩, ⟨.full false, 1, 1, by decide, by decide⟩,
    ⟨.slidingWindow 2, 1, 0, by decide, by decide⟩]
  maxModelLen := 100
  hashBlockSize := 1
  enableCaching := true
  useEagle := false

def promptOf (r : RequestId) (n : ℕ) : KVRequest where
  requestId := r
  numTokens := n
  numComputedTokens := 0
  blockHashes := ⟨digests n, digests_nodup n, digests_sameLength n⟩

/-- The first request fills the cache. Two of its blocks in the window group lose their hash, and
the second request, with the same prompt and one external token, finds two hits in the first group
and the window group but four in the second group. -/
def twoFullCalls : List Call :=
  [.allocateSlots (promptOf 0 4) true { numNewTokens := 4 },
   .evictBlocks [11, 12],
   .allocateSlots (promptOf 1 5) true { numNewTokens := 1, numExternalComputedTokens := 1 }]

theorem second_full_group_breaks_accounting : ∃ k0 k, init twoFullConfig = some k0 ∧
    Reach step always k0 k ∧ ¬ k.Accounting := by
  -- the queue counts one free block, and none is free
  obtain ⟨k0, hk0, k, hk, hsize, hfree⟩ : ∃ k0 ∈ init twoFullConfig,
      ∃ k ∈ run step k0 twoFullCalls, k.pool.getNumFreeBlocks = 1 ∧
        ((List.range k.pool.numGpuBlocks).filter fun b =>
          b ≠ k.pool.nullBlock ∧ (k.pool.block b).refCnt = 0).length = 0 := by
    decide +kernel
  refine ⟨k0, k, hk0, Reach.of_run .init hk, fun hacc => ?_⟩
  have heq := hacc.size_eq
  rw [hsize, hfree] at heq
  exact absurd heq (by decide)

/-- The second request hits all blocks of the first one and has an external token. Then a block
loses its hash and the first request ends. -/
def sharedCalls (n : ℕ) (evicted : BlockId) : List Call :=
  [.allocateSlots (promptOf 0 n) true { numNewTokens := n },
   .allocateSlots (promptOf 1 (n + 2)) true { numNewTokens := 1, numExternalComputedTokens := 1 },
   .evictBlocks [evicted], .free 0]

theorem external_request_keeps_accounting : ∃ k0 k, init twoFullConfig = some k0 ∧
    Reach step CallFits k0 k ∧
    k.managers.map (·.table 1) = [[1, 2, 3, 10, 13], [4, 5, 6, 11, 14], [0, 0, 0, 12, 15]] ∧
    k.Accounting := by
  obtain ⟨k0, hk0, k, hk, htables⟩ : ∃ k0 ∈ init twoFullConfig,
      ∃ k ∈ run (guarded CallFits step) k0 (sharedCalls 3 9),
        k.managers.map (·.table 1) = [[1, 2, 3, 10, 13], [4, 5, 6, 11, 14], [0, 0, 0, 12, 15]] := by
    decide +kernel
  have hreach := Reach.of_guarded_run .init hk
  exact ⟨k0, k, hk0, hreach, htables, accounting_of_fitting_run hk0 hreach⟩

end KVCacheManager

end Nvllm.KVCache
