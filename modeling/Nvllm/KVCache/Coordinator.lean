import Nvllm.KVCache.CacheHit

/-! # The KV cache manager

`KVCacheManager` with the coordinators behind it. All managers share one block pool; a method of
the coordinator runs the same method on one manager after the other. The coordinator is picked by
the configuration: without prefix caching there are no hits, one group is looked up directly, and
several groups are looked up by the fixed-point search of the hybrid coordinator. Statistics and
events are left out. The counts of tokens that the scheduler computes are integers; a negative one
acts as zero in the managers. A Python exception is `none`.
-/

namespace Nvllm.KVCache

/-- What the KV cache manager reads of a request. -/
structure KVRequest where
  requestId : RequestId
  numTokens : ℕ
  numComputedTokens : ℤ
  blockHashes : BlockHashes
  skipReadingPrefixCache : Bool := false
  deriving DecidableEq

/-! ## Attention groups of the hybrid coordinator -/

/-- The KV cache groups with one spec. -/
structure AttentionGroup where
  spec : KVCacheSpec
  groupIds : List ℕ
  deriving DecidableEq

namespace AttentionGroup

def addGroup (i : ℕ) (spec : KVCacheSpec) : List AttentionGroup → List AttentionGroup
  | [] => [⟨spec, [i]⟩]
  | g :: gs =>
    if g.spec = spec then { g with groupIds := g.groupIds ++ [i] } :: gs
    else g :: addGroup i spec gs

def split : ℕ → List KVCacheSpec → List AttentionGroup → List AttentionGroup
  | _, [], gs => gs
  | i, spec :: specs, gs => split (i + 1) specs (addGroup i spec gs)

/-- `verify_and_split_kv_cache_groups`: full attention first, otherwise in order. -/
def ofSpecs (specs : List KVCacheSpec) : List AttentionGroup :=
  let gs := split 0 specs []
  gs.filter (·.spec.isFull) ++ gs.filter fun g => !g.spec.isFull

end AttentionGroup

/-! ## State -/

structure KVCacheManager where
  maxModelLen : ℕ
  enableCaching : Bool
  useEagle : Bool
  managers : List Manager
  pool : BlockPool
  deriving DecidableEq

structure KVCacheConfig where
  numBlocks : ℕ
  specs : List KVCacheSpec
  maxModelLen : ℕ
  hashBlockSize : ℕ
  enableCaching : Bool
  useEagle : Bool
  worldSize : ℕ := 1

namespace KVCacheConfig

/-- What the constructor of the coordinator asserts. -/
def supported (c : KVCacheConfig) : Bool :=
  !c.enableCaching ||
    match c.specs with
    | [spec] => c.hashBlockSize == (Manager.init spec c.worldSize true 0).blockSize
    | specs =>
      specs.all (fun spec => spec.blockSize % c.hashBlockSize == 0) && c.worldSize == 1 &&
        decide (1 < (AttentionGroup.ofSpecs specs).length)

end KVCacheConfig

namespace KVCacheManager

def init (c : KVCacheConfig) : Option KVCacheManager :=
  if c.supported then do
    let pool ← BlockPool.init c.numBlocks c.enableCaching c.hashBlockSize
    return {
      maxModelLen := c.maxModelLen
      enableCaching := c.enableCaching
      useEagle := c.useEagle
      managers := c.specs.mapIdx fun i spec => Manager.init spec c.worldSize c.enableCaching i
      pool }
  else none

/-! ## Looking up hits -/

/-- The lists of the groups found so far. -/
abbrev HitsByGroup := List (Option (List BlockId))

def setColumns (null : BlockId) (rows : List Row) : ℕ → List ℕ → HitsByGroup → HitsByGroup
  | _, [], hits => hits
  | j, g :: gs, hits => setColumns null rows (j + 1) gs (hits.set g (some (column null j rows)))

/-- One pass over the attention groups: the length they agree on and their hits. -/
def hybridPass (k : KVCacheManager) (lcmBlockSize : ℕ) (blockHashes : List Bytes) :
    List AttentionGroup → ℕ → HitsByGroup → Option (ℕ × HitsByGroup)
  | [], curr, hits => some (curr, hits)
  | g :: gs, curr, hits =>
    if g.spec.isFull = true ∧ ((hits[g.groupIds.headD 0]?).join).isSome = true then
      -- full attention was looked up in the first pass
      k.hybridPass lcmBlockSize blockHashes gs (curr / g.spec.blockSize * g.spec.blockSize) hits
    else do
      let hashes ← k.pool.hashesAt g.spec.blockSize blockHashes
      let rows ← findLongestCacheHit k.pool g.spec 1 g.groupIds hashes curr k.useEagle
        lcmBlockSize
      k.hybridPass lcmBlockSize blockHashes gs (rows.length * g.spec.blockSize)
        (setColumns k.pool.nullBlock rows 0 g.groupIds hits)

/-- The body of the loop of `find_longest_cache_hit`: whether it is left, the length, the hits. -/
def hybridStep (k : KVCacheManager) (groups : List AttentionGroup) (lcmBlockSize : ℕ)
    (simple : Bool) (blockHashes : List Bytes) (hitLength : ℕ) (hits : HitsByGroup) :
    Option (Bool × ℕ × HitsByGroup) := do
  let (curr, hits) ← k.hybridPass lcmBlockSize blockHashes groups hitLength hits
  if hitLength ≤ curr then return (true, hitLength, hits) else return (simple, curr, hits)

/-- The loop: passes until no group shortens the hit. Each further pass starts with a smaller
length, so `fuel` passes after the first are enough for a length of `fuel`. -/
def hybridLoop (k : KVCacheManager) (groups : List AttentionGroup) (lcmBlockSize : ℕ)
    (simple : Bool) (blockHashes : List Bytes) : ℕ → ℕ → HitsByGroup → Option (ℕ × HitsByGroup)
  | 0, hitLength, hits => do
    let (_, hitLength, hits) ←
      k.hybridStep groups lcmBlockSize simple blockHashes hitLength hits
    return (hitLength, hits)
  | fuel + 1, hitLength, hits => do
    let (done, hitLength, hits) ←
      k.hybridStep groups lcmBlockSize simple blockHashes hitLength hits
    if done then return (hitLength, hits)
    else k.hybridLoop groups lcmBlockSize simple blockHashes fuel hitLength hits

/-- Cuts the lists of the given groups off. -/
def truncate (n : ℕ) : List ℕ → HitsByGroup → HitsByGroup
  | [], hits => hits
  | g :: gs, hits => truncate n gs (hits.modify g (Option.map (List.take n)))

/-- `HybridKVCacheCoordinator.find_longest_cache_hit`. -/
def hybridHits (k : KVCacheManager) (blockHashes : List Bytes) (maxCacheHitLength : ℕ) :
    Option (List (List BlockId) × ℕ) := do
  let groups := AttentionGroup.ofSpecs (k.managers.map (·.spec))
  let lcmBlockSize := (groups.map (·.spec.blockSize)).foldl Nat.lcm 1
  let firstFull := (groups.head?.map (·.spec.isFull)).getD false
  let simple := decide (groups.length = 2) && firstFull
  let (hitLength, hits) ← k.hybridLoop groups lcmBlockSize simple blockHashes maxCacheHitLength
    maxCacheHitLength (List.replicate k.managers.length none)
  -- only the first attention group is cut to the final length
  let hits := match groups with
    | g :: _ =>
      if g.spec.isFull then truncate (hitLength / g.spec.blockSize) g.groupIds hits else hits
    | [] => hits
  return (hits.map (·.getD []), hitLength)

/-- `UnitaryKVCacheCoordinator.find_longest_cache_hit`. -/
def unitaryHits (k : KVCacheManager) (m : Manager) (blockHashes : List Bytes)
    (maxCacheHitLength : ℕ) : Option (List (List BlockId) × ℕ) := do
  let rows ← findLongestCacheHit k.pool m.spec m.worldSize [0] blockHashes maxCacheHitLength
    k.useEagle m.blockSize
  return ([column k.pool.nullBlock 0 rows], rows.length * m.blockSize)

def findLongestHits (k : KVCacheManager) (blockHashes : List Bytes) (maxCacheHitLength : ℕ) :
    Option (List (List BlockId) × ℕ) :=
  match k.managers with
  | [m] => k.unitaryHits m blockHashes maxCacheHitLength
  | _ => k.hybridHits blockHashes maxCacheHitLength

def emptyHits (k : KVCacheManager) : List (List BlockId) := k.managers.map fun _ => []

/-- `get_computed_blocks`: the hits of each group and the number of computed tokens. -/
def getComputedBlocks (k : KVCacheManager) (r : KVRequest) : Option (List (List BlockId) × ℕ) :=
  if k.enableCaching = false ∨ r.skipReadingPrefixCache = true then some (k.emptyHits, 0)
  else k.findLongestHits r.blockHashes.hashes (r.numTokens - 1)

/-! ## Methods that run on all managers -/

def forManagers (f : Manager → BlockPool → Option (Manager × BlockPool)) :
    List Manager → BlockPool → Option (List Manager × BlockPool)
  | [], p => some ([], p)
  | m :: ms, p => do
    let (m, p) ← f m p
    let (ms, p) ← forManagers f ms p
    return (m :: ms, p)

/-- The same with one list of blocks for each manager. -/
def forManagersHits (f : Manager → List BlockId → BlockPool → Option (Manager × BlockPool)) :
    List Manager → List (List BlockId) → BlockPool → Option (List Manager × BlockPool)
  | [], _, p => some ([], p)
  | _ :: _, [], _ => none
  | m :: ms, hits :: hitss, p => do
    let (m, p) ← f m hits p
    let (ms, p) ← forManagersHits f ms hitss p
    return (m :: ms, p)

def onManagers (f : Manager → BlockPool → Option (Manager × BlockPool)) (k : KVCacheManager) :
    Option KVCacheManager := do
  let (managers, pool) ← forManagers f k.managers k.pool
  return { k with managers, pool }

def removeSkippedBlocks (k : KVCacheManager) (r : RequestId) (totalComputedTokens : ℕ) :
    Option KVCacheManager :=
  k.onManagers fun m p => m.removeSkippedBlocks r totalComputedTokens p

/-- One manager's part; cross attention counts encoder tokens only. -/
def blocksToAllocate (p : BlockPool) (r : RequestId)
    (numTokens numEncoderTokens totalComputedTokens numTokensMainModel : ℕ) (m : Manager)
    (hits : List BlockId) : Option ℤ :=
  if m.spec.isCross then m.getNumBlocksToAllocate p r numEncoderTokens [] 0 numEncoderTokens
  else m.getNumBlocksToAllocate p r numTokens hits totalComputedTokens numTokensMainModel

/-- `KVCacheCoordinator.get_num_blocks_to_allocate`. -/
def sumBlocksToAllocate (p : BlockPool) (r : RequestId)
    (numTokens numEncoderTokens totalComputedTokens numTokensMainModel : ℕ) :
    List Manager → List (List BlockId) → Option ℤ
  | [], _ => some 0
  | _ :: _, [] => none
  | m :: ms, hits :: hitss => do
    let n ← blocksToAllocate p r numTokens numEncoderTokens totalComputedTokens
      numTokensMainModel m hits
    let s ← sumBlocksToAllocate p r numTokens numEncoderTokens totalComputedTokens
      numTokensMainModel ms hitss
    return n + s

def allocateNewComputedBlocks (k : KVCacheManager) (r : RequestId)
    (hits : List (List BlockId)) (numLocal numExternal : ℕ) : Option KVCacheManager := do
  let (managers, pool) ← forManagersHits
    (fun m hs p => m.allocateNewComputedBlocks r hs numLocal numExternal p) k.managers hits k.pool
  return { k with managers, pool }

def allocateLoop (r : RequestId) (numTokens numTokensMainModel numEncoderTokens : ℕ) :
    List Manager → BlockPool → Option (List (List BlockId) × List Manager × BlockPool)
  | [], p => some ([], [], p)
  | m :: ms, p => do
    let n := if m.spec.isCross then numEncoderTokens else numTokens
    let (new, m, p) ← m.allocateNewBlocks r n numTokensMainModel p
    let (news, ms, p) ← allocateLoop r numTokens numTokensMainModel numEncoderTokens ms p
    return (new :: news, m :: ms, p)

def allocateNewBlocks (k : KVCacheManager) (r : RequestId)
    (numTokens numTokensMainModel numEncoderTokens : ℕ) :
    Option (List (List BlockId) × KVCacheManager) := do
  let (news, managers, pool) ←
    allocateLoop r numTokens numTokensMainModel numEncoderTokens k.managers k.pool
  return (news, { k with managers, pool })

/-- `KVCacheCoordinator.cache_blocks`. -/
def commitBlocks (k : KVCacheManager) (r : KVRequest) (numComputedTokens : ℕ) :
    Option KVCacheManager :=
  k.onManagers fun m p => m.cacheBlocks r.requestId r.blockHashes.hashes numComputedTokens p

/-! ## The public methods -/

def cacheBlocks (k : KVCacheManager) (r : KVRequest) (numComputedTokens : ℕ) :
    Option KVCacheManager :=
  if k.enableCaching then k.commitBlocks r numComputedTokens else some k

/-- The arguments of `allocate_slots` besides the request and its hits. -/
structure SlotArgs where
  numNewTokens : ℤ
  numLookaheadTokens : ℕ := 0
  numExternalComputedTokens : ℕ := 0
  delayCacheBlocks : Bool := false
  numEncoderTokens : ℕ := 0
  deriving DecidableEq

/-- `can_fit_full_sequence`. -/
def canFitFullSequence (k : KVCacheManager) (r : KVRequest) (numNewComputedTokens : ℕ)
    (hits : List (List BlockId)) (numExternalComputedTokens numEncoderTokens : ℕ) :
    Option Bool := do
  let totalComputedTokens := min
    (r.numComputedTokens + numNewComputedTokens + numExternalComputedTokens) k.maxModelLen
  let fullNumTokens := min r.numTokens k.maxModelLen
  let n ← sumBlocksToAllocate k.pool r.requestId fullNumTokens numEncoderTokens
    totalComputedTokens.toNat fullNumTokens k.managers hits
  return decide (n ≤ k.pool.getNumFreeBlocks)

/-- Adds the computed blocks, if there are any. -/
def addComputed (k : KVCacheManager) (r : RequestId) (hits : List (List BlockId))
    (numLocal numExternal : ℕ) : Option KVCacheManager :=
  if hits.any (· ≠ []) = true ∨ 0 < numExternal then
    k.allocateNewComputedBlocks r hits numLocal numExternal
  else some k

/-- The part of `allocate_slots` after the check for free blocks: the tables grow, and full blocks
are cached. -/
def grow (k : KVCacheManager) (r : KVRequest) (numNewComputedTokens : ℕ)
    (hits : List (List BlockId)) (a : SlotArgs) :
    Option (List (List BlockId) × KVCacheManager) := do
  let numLocal := r.numComputedTokens + numNewComputedTokens
  let total := min (numLocal + a.numExternalComputedTokens) k.maxModelLen
  let numTokensMainModel := total + a.numNewTokens
  let numTokensNeedSlot := min (numTokensMainModel + a.numLookaheadTokens) k.maxModelLen
  let k1 ← k.addComputed r.requestId hits numLocal.toNat a.numExternalComputedTokens
  let (news, k2) ← k1.allocateNewBlocks r.requestId numTokensNeedSlot.toNat
    numTokensMainModel.toNat a.numEncoderTokens
  if k.enableCaching = false ∨ a.delayCacheBlocks = true then return (news, k2)
  else do
    let k3 ← k2.commitBlocks r (min numTokensMainModel r.numTokens).toNat
    return (news, k3)

/-- `allocate_slots`: the new blocks of each group, or nothing if the pool has too few. Skipped
blocks are freed in either case. -/
def allocateSlots (k : KVCacheManager) (r : KVRequest) (numNewComputedTokens : ℕ)
    (hits : List (List BlockId)) (a : SlotArgs) :
    Option (Option (List (List BlockId)) × KVCacheManager) :=
  if a.numNewTokens = 0 ∧ a.numExternalComputedTokens = 0 then none
  else do
    let numLocal := r.numComputedTokens + numNewComputedTokens
    let total := min (numLocal + a.numExternalComputedTokens) k.maxModelLen
    let numTokensMainModel := total + a.numNewTokens
    let numTokensNeedSlot := min (numTokensMainModel + a.numLookaheadTokens) k.maxModelLen
    let k ← k.removeSkippedBlocks r.requestId total.toNat
    let n ← sumBlocksToAllocate k.pool r.requestId numTokensNeedSlot.toNat a.numEncoderTokens
      (numLocal + a.numExternalComputedTokens).toNat numTokensMainModel.toNat k.managers hits
    if k.pool.getNumFreeBlocks < n then return (none, k)
    else do
      let (news, k) ← k.grow r numNewComputedTokens hits a
      return (some news, k)

def free (k : KVCacheManager) (r : RequestId) : Option KVCacheManager :=
  k.onManagers fun m p => m.free r p

def evictBlocks (k : KVCacheManager) (bs : List BlockId) : Option KVCacheManager := do
  let pool ← k.pool.evictBlocks bs
  return { k with pool }

def resetPrefixCache (k : KVCacheManager) : Bool × KVCacheManager :=
  (k.pool.resetPrefixCache.1, { k with pool := k.pool.resetPrefixCache.2 })

def newStepStarts (k : KVCacheManager) : KVCacheManager :=
  { k with managers := k.managers.map Manager.newStepStarts }

end KVCacheManager

end Nvllm.KVCache
