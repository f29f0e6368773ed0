import Nvllm.KVCache.BlockPool

/-! # The managers of single KV cache groups

A manager (`SingleTypeKVCacheManager` and its subclasses) keeps the block tables of the requests
for one KV cache group. The subclasses differ in which tokens attention skips, in how many blocks
a request needs and in how the tables grow; here a manager holds its spec and the methods match on
its kind. All managers share one block pool, which is passed along explicitly. A Python exception
is `none`. The ids collected for zeroing (`new_block_ids`) are left out.
-/

namespace Nvllm.KVCache

def cdiv (a b : ℕ) : ℕ := (a + b - 1) / b

/-- Position that a Python index denotes in a list of length `n`; negative ones count from the
end. -/
def pyIndex (n : ℕ) (i : ℤ) : Option ℕ :=
  if 0 ≤ i then if i < n then some i.toNat else none
  else if 0 ≤ n + i then some (n + i).toNat else none

/-! ## Specs -/

/-- `MambaSpec.mamba_cache_mode`; `off` is the mode called none. -/
inductive MambaCacheMode
  | off
  | all
  | align
  deriving DecidableEq, Repr

/-- The class of a spec with the fields that its manager reads. -/
inductive SpecKind
  | full (mla : Bool)
  | slidingWindow (slidingWindow : ℕ)
  | chunkedLocal (attentionChunkSize : ℕ)
  | mamba (mambaCacheMode : MambaCacheMode) (numSpeculativeBlocks : ℕ)
  | crossAttention
  deriving DecidableEq, Repr

/-- Windows and chunks are not empty. -/
def SpecKind.Proper : SpecKind → Prop
  | .slidingWindow w => 0 < w
  | .chunkedLocal c => 0 < c
  | _ => True

instance (k : SpecKind) : Decidable k.Proper :=
  match k with
  | .slidingWindow w => inferInstanceAs (Decidable (0 < w))
  | .chunkedLocal c => inferInstanceAs (Decidable (0 < c))
  | .full _ | .mamba _ _ | .crossAttention => isTrue trivial

/-- `KVCacheSpec`. The fields that only its equality reads (heads, head size, dtype) are one
number, `layout`. -/
structure KVCacheSpec where
  kind : SpecKind
  blockSize : ℕ
  layout : ℕ
  blockSize_pos : 0 < blockSize
  proper : kind.Proper

instance : DecidableEq KVCacheSpec := fun a b =>
  decidable_of_iff (a.kind = b.kind ∧ a.blockSize = b.blockSize ∧ a.layout = b.layout) <| by
    cases a
    cases b
    simp

namespace KVCacheSpec

/-- `isinstance(spec, FullAttentionSpec)`. -/
def isFull (spec : KVCacheSpec) : Bool :=
  match spec.kind with
  | .full _ => true
  | _ => false

def isCross (spec : KVCacheSpec) : Bool :=
  match spec.kind with
  | .crossAttention => true
  | _ => false

end KVCacheSpec

/-! ## Managers -/

structure Manager where
  spec : KVCacheSpec
  /-- the product of the decode and prefill context parallel world sizes -/
  worldSize : ℕ
  enableCaching : Bool
  groupId : ℕ
  reqToBlocks : Dict RequestId (List BlockId)
  numCachedBlock : Dict RequestId ℕ
  cachedBlocksThisStep : List BlockHashWithGroupId
  lastStateBlockIdx : Dict RequestId ℤ
  allocatedBlockReqs : List RequestId
  deriving DecidableEq

namespace Manager

def init (spec : KVCacheSpec) (worldSize : ℕ) (enableCaching : Bool) (groupId : ℕ) : Manager :=
  { spec, worldSize, enableCaching, groupId
    reqToBlocks := ∅
    numCachedBlock := ∅
    cachedBlocksThisStep := []
    lastStateBlockIdx := ∅
    allocatedBlockReqs := [] }

def blockSize (m : Manager) : ℕ :=
  if 1 < m.worldSize then m.spec.blockSize * m.worldSize else m.spec.blockSize

/-- `req_to_blocks[r]`, where a missing table is empty. -/
def table (m : Manager) (r : RequestId) : List BlockId := m.reqToBlocks.getD r []

def setTable (m : Manager) (r : RequestId) (bs : List BlockId) : Manager :=
  { m with reqToBlocks := m.reqToBlocks.set r bs }

/-- Number of leading tokens that attention no longer needs once `n` tokens are computed. -/
def getNumSkippedTokens (m : Manager) (n : ℕ) : ℤ :=
  match m.spec.kind with
  | .slidingWindow w => max 0 ((n : ℤ) - w + 1)
  | .chunkedLocal c => ((n / c * c : ℕ) : ℤ)
  | .mamba _ _ => (n : ℤ) - 1
  | _ => 0

def numSkippedBlocks (m : Manager) (n : ℕ) : ℤ := m.getNumSkippedTokens n / m.blockSize

/-! ## How many blocks a request needs -/

/-- `_get_num_evictable_blocks`. -/
def getNumEvictableBlocks (p : BlockPool) (bs : List BlockId) : ℕ :=
  bs.countP fun b => (p.block b).refCnt = 0 ∧ (p.block b).isNull = false

/-- `SingleTypeKVCacheManager.get_num_blocks_to_allocate`. -/
def baseNumBlocksToAllocate (m : Manager) (p : BlockPool) (r : RequestId) (numTokens : ℕ)
    (newComputedBlocks : List BlockId) (totalComputedTokens : ℕ) : Option ℤ :=
  let numRequiredBlocks : ℤ := cdiv numTokens m.blockSize
  let numReqBlocks : ℤ := (m.table r).length
  if m.numCachedBlock.contains r then
    if newComputedBlocks = [] then some (max (numRequiredBlocks - numReqBlocks) 0) else none
  else
    let numSkippedBlocks := m.numSkippedBlocks totalComputedTokens
    let numLocalComputedBlocks := newComputedBlocks.length + numReqBlocks
    let numNewBlocks := max (numRequiredBlocks - max numSkippedBlocks numLocalComputedBlocks) 0
    let numSkippedNew := max 0 (numSkippedBlocks - numReqBlocks)
    some (numNewBlocks + getNumEvictableBlocks p (newComputedBlocks.drop numSkippedNew.toNat))

/-- The align mode of `MambaManager.get_num_blocks_to_allocate`. -/
def alignNumBlocksToAllocate (m : Manager) (p : BlockPool) (numSpeculativeBlocks : ℕ)
    (r : RequestId) (newComputedBlocks : List BlockId) (numTokens : ℕ) : ℤ :=
  let numRequiredBlocks : ℤ := cdiv numTokens m.blockSize + numSpeculativeBlocks
  let numNewBlocks := numRequiredBlocks - newComputedBlocks.length - (m.table r).length
  let numNewBlocks :=
    if 0 < numNewBlocks then
      if r ∈ m.allocatedBlockReqs then 1 else 1 + (numSpeculativeBlocks : ℤ)
    else numNewBlocks
  numNewBlocks + getNumEvictableBlocks p newComputedBlocks

/-- The last hit was cached by another request in the current step. -/
def hitsThisStep (m : Manager) (p : BlockPool) (newComputedBlocks : List BlockId) : Bool :=
  match newComputedBlocks.getLast? with
  | none => false
  | some b =>
    match (p.block b).blockHash with
    | none => false
    | some key => decide (key ∈ m.cachedBlocksThisStep)

def getNumBlocksToAllocate (m : Manager) (p : BlockPool) (r : RequestId) (numTokens : ℕ)
    (newComputedBlocks : List BlockId) (totalComputedTokens numTokensMainModel : ℕ) : Option ℤ :=
  match m.spec.kind with
  | .mamba mode s =>
    -- more than the pool has, so that the request waits for the next step
    if m.hitsThisStep p newComputedBlocks then some (p.numGpuBlocks + 1)
    else if mode = .align then
      some (m.alignNumBlocksToAllocate p s r newComputedBlocks numTokensMainModel)
    else
      m.baseNumBlocksToAllocate p r (numTokens + m.spec.blockSize * s) newComputedBlocks
        totalComputedTokens
  | _ => m.baseNumBlocksToAllocate p r numTokens newComputedBlocks totalComputedTokens

/-! ## Growing the tables -/

/-- Touches the hits; without caching there must be none. -/
def touchHits (m : Manager) (hits : List BlockId) (p : BlockPool) : Option BlockPool :=
  if m.enableCaching then p.touch hits else if hits = [] then some p else none

/-- The hits that attention still needs once `total` tokens are computed. -/
def hitsInWindow (m : Manager) (total : ℕ) (hits : List BlockId) : List BlockId :=
  if 0 < m.numSkippedBlocks total then hits.drop (m.numSkippedBlocks total).toNat else hits

/-- External tokens may be skipped too. -/
def externalInWindow (m : Manager) (total numExternal : ℕ) : ℤ :=
  if 0 < m.numSkippedBlocks total then min (total - m.getNumSkippedTokens total) numExternal
  else numExternal

/-- The rest of `allocate_new_computed_blocks` for a request without table: `null` padding, the
hits inside the window, and new blocks for external tokens. -/
def addComputedBlocks (m : Manager) (r : RequestId) (hits : List BlockId)
    (numLocal numExternal : ℕ) (p : BlockPool) : Option (Manager × BlockPool) := do
  let total := numLocal + numExternal
  let hits := m.hitsInWindow total hits
  let p ← m.touchHits hits p
  let blocks := List.replicate (m.numSkippedBlocks total).toNat p.nullBlock ++ hits
  let m' := { m with numCachedBlock := m.numCachedBlock.set r blocks.length }
  if 0 < m.externalInWindow total numExternal then do
    let (new, p) ← p.getNewBlocks (cdiv total m.blockSize - blocks.length)
    return (m'.setTable r (blocks ++ new), p)
  else return (m'.setTable r blocks, p)

def allocateNewComputedBlocks (m : Manager) (r : RequestId) (hits : List BlockId)
    (numLocal numExternal : ℕ) (p : BlockPool) : Option (Manager × BlockPool) :=
  if m.spec.isCross then if hits = [] then some (m, p) else none
  else if m.numCachedBlock.contains r then if hits = [] then some (m, p) else none
  else if m.table r = [] then m.addComputedBlocks r hits numLocal numExternal p
  else none

/-- `SingleTypeKVCacheManager.allocate_new_blocks`. -/
def baseAllocateNewBlocks (m : Manager) (r : RequestId) (numTokens : ℕ) (p : BlockPool) :
    Option (List BlockId × Manager × BlockPool) :=
  let reqBlocks := m.table r
  let numNewBlocks : ℤ := cdiv numTokens m.blockSize - reqBlocks.length
  if numNewBlocks ≤ 0 then some ([], m.setTable r reqBlocks, p)
  else do
    let (new, p) ← p.getNewBlocks numNewBlocks
    return (new, m.setTable r (reqBlocks ++ new), p)

/-- The loop that moves the speculative blocks of the previous step to the end of the table, over
the `n` indices from `i` on. -/
def moveLoop (null : BlockId) (numSkippedBlocks : ℤ) : ℕ → ℤ → List BlockId →
    Option (List BlockId)
  | 0, _, bs => some bs
  | n + 1, i, bs =>
    if i < numSkippedBlocks then do
      let j ← pyIndex bs.length i
      let b ← bs[j]?
      moveLoop null numSkippedBlocks n (i + 1) ((bs ++ [b]).set j null)
    else some bs

/-- The table before the new blocks are added: padded with null blocks up to the last block but
the speculative ones, and with the speculative blocks of the previous step moved behind it. -/
def alignTable (null : BlockId) (numSpeculativeBlocks numRequiredBlocks : ℕ)
    (blocksAllocated : Bool) (bs : List BlockId) : Option (List BlockId) :=
  let numSkippedBlocks : ℤ := numRequiredBlocks - numSpeculativeBlocks - 1
  let padded := bs ++ List.replicate (numSkippedBlocks - bs.length).toNat null
  if blocksAllocated then
    moveLoop null numSkippedBlocks numSpeculativeBlocks (bs.length - numSpeculativeBlocks) padded
  else some padded

/-- What `allocate_new_blocks` notes in align mode before the table grows. -/
def recordLastState (m : Manager) (r : RequestId) (numSpeculativeBlocks : ℕ) : Manager :=
  let prev : ℤ := (m.table r).length
  if r ∈ m.allocatedBlockReqs then
    { m with lastStateBlockIdx := m.lastStateBlockIdx.set r (prev - 1 - numSpeculativeBlocks) }
  else if 0 < prev then { m with lastStateBlockIdx := m.lastStateBlockIdx.set r (prev - 1) }
  else m

/-- The align mode of `MambaManager.allocate_new_blocks`. -/
def alignAllocateNewBlocks (m : Manager) (numSpeculativeBlocks : ℕ) (r : RequestId)
    (numTokens : ℕ) (p : BlockPool) : Option (List BlockId × Manager × BlockPool) :=
  let reqBlocks := m.table r
  let prev := reqBlocks.length
  let numRequiredBlocks := cdiv numTokens m.blockSize + numSpeculativeBlocks
  if numRequiredBlocks = prev then some ([], m.setTable r reqBlocks, p)
  else if numRequiredBlocks < prev then none
  else do
    let blocksAllocated := decide (r ∈ m.allocatedBlockReqs)
    let m := m.recordLastState r numSpeculativeBlocks
    let moved ← alignTable p.nullBlock numSpeculativeBlocks numRequiredBlocks blocksAllocated
      reqBlocks
    let numNewBlocks : ℤ := numRequiredBlocks - moved.length
    if numNewBlocks ≤ (if blocksAllocated then 1 else numSpeculativeBlocks + 1) then do
      let (new, p) ← p.getNewBlocks numNewBlocks
      let m := { m with allocatedBlockReqs := if r ∈ m.allocatedBlockReqs then
        m.allocatedBlockReqs else m.allocatedBlockReqs ++ [r] }
      return ((moved ++ new).drop prev, m.setTable r (moved ++ new), p)
    else none

def allocateNewBlocks (m : Manager) (r : RequestId) (numTokens numTokensMainModel : ℕ)
    (p : BlockPool) : Option (List BlockId × Manager × BlockPool) :=
  match m.spec.kind with
  | .mamba mode s =>
    if mode = .align then m.alignAllocateNewBlocks s r numTokensMainModel p
    else m.baseAllocateNewBlocks r (numTokens + m.blockSize * s) p
  | _ => m.baseAllocateNewBlocks r numTokens p

/-! ## Caching, freeing and shrinking -/

/-- `SingleTypeKVCacheManager.cache_blocks`. -/
def baseCacheBlocks (m : Manager) (r : RequestId) (hashes : List Bytes) (numTokens : ℕ)
    (p : BlockPool) : Option (Manager × BlockPool) :=
  let numCachedBlocks := m.numCachedBlock.getD r 0
  let numFullBlocks := numTokens / m.blockSize
  if numFullBlocks ≤ numCachedBlocks then some (m, p)
  else do
    let blocks := m.table r
    let p ← p.cacheFullBlocks hashes blocks numCachedBlocks numFullBlocks m.blockSize m.groupId
    return ({ m.setTable r blocks with
      numCachedBlock := m.numCachedBlock.set r numFullBlocks }, p)

/-- The hashes of the proper blocks; none of them may be missing. -/
def hashesOf (p : BlockPool) : List BlockId → Option (List BlockHashWithGroupId)
  | [] => some []
  | b :: bs =>
    if (p.block b).isNull then hashesOf p bs
    else do
      let key ← (p.block b).blockHash
      let keys ← hashesOf p bs
      return key :: keys

def cacheBlocks (m : Manager) (r : RequestId) (hashes : List Bytes) (numTokens : ℕ)
    (p : BlockPool) : Option (Manager × BlockPool) :=
  match m.spec.kind with
  | .crossAttention => none
  | .mamba _ _ => do
    let before := m.numCachedBlock.getD r 0
    let (m, p) ← m.baseCacheBlocks r hashes numTokens p
    let after := m.numCachedBlock.getD r 0
    if before < after then do
      let keys ← hashesOf p (((m.table r).take after).drop before)
      return ({ m with cachedBlocksThisStep := m.cachedBlocksThisStep ++ keys }, p)
    else return (m, p)
  | _ => m.baseCacheBlocks r hashes numTokens p

def free (m : Manager) (r : RequestId) (p : BlockPool) : Option (Manager × BlockPool) := do
  let m := match m.spec.kind with
    | .mamba .align _ =>
      { m with
        allocatedBlockReqs := m.allocatedBlockReqs.filter (· ≠ r)
        lastStateBlockIdx := m.lastStateBlockIdx.erase r }
    | _ => m
  let p ← p.freeBlocks (m.table r).reverse
  return ({ m with
    reqToBlocks := m.reqToBlocks.erase r
    numCachedBlock := m.numCachedBlock.erase r }, p)

/-- The loop of `remove_skipped_blocks` from index `n - 1` down to the first null block: the
removed blocks and the table afterwards. -/
def removeLoop (null : BlockId) : ℕ → List BlockId → List BlockId × List BlockId
  | 0, bs => ([], bs)
  | n + 1, bs =>
    match bs[n]? with
    | none => ([], bs)
    | some b =>
      if b = null then ([], bs)
      else
        let (removed, bs') := removeLoop null n (bs.set n null)
        (b :: removed, bs')

/-- `SingleTypeKVCacheManager.remove_skipped_blocks`. -/
def baseRemoveSkippedBlocks (m : Manager) (r : RequestId) (totalComputedTokens : ℕ)
    (p : BlockPool) : Option (Manager × BlockPool) :=
  let numSkippedTokens := m.getNumSkippedTokens totalComputedTokens
  if numSkippedTokens ≤ 0 then some (m, p)
  else do
    let blocks := m.table r
    let numSkippedBlocks := min (m.numSkippedBlocks totalComputedTokens).toNat blocks.length
    let (removed, blocks) := removeLoop p.nullBlock numSkippedBlocks blocks
    let p ← p.freeBlocks removed
    return (m.setTable r blocks, p)

/-- What align mode frees on top: the block that held the state two steps ago. -/
def removeLastState (m : Manager) (r : RequestId) (numComputedTokens : ℕ) (p : BlockPool) :
    Option (Manager × BlockPool) :=
  match m.lastStateBlockIdx.get? r with
  | none => some (m, p)
  | some idx =>
    if idx < (cdiv numComputedTokens m.blockSize : ℤ) - 1 then do
      let blocks := m.table r
      let j ← pyIndex blocks.length idx
      let b ← blocks[j]?
      if b ≠ p.nullBlock then do
        let p ← p.freeBlocks [b]
        return (m.setTable r (blocks.set j p.nullBlock), p)
      else return (m.setTable r blocks, p)
    else some (m, p)

def removeSkippedBlocks (m : Manager) (r : RequestId) (totalComputedTokens : ℕ) (p : BlockPool) :
    Option (Manager × BlockPool) :=
  match m.spec.kind with
  | .mamba mode s => do
    -- all speculative tokens may still be rejected
    let n := totalComputedTokens - s
    let (m, p) ← m.baseRemoveSkippedBlocks r n p
    if mode = .align then m.removeLastState r n p else return (m, p)
  | _ => m.baseRemoveSkippedBlocks r totalComputedTokens p

def newStepStarts (m : Manager) : Manager := { m with cachedBlocksThisStep := [] }

end Manager

end Nvllm.KVCache
