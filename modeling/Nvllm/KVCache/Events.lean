import Nvllm.KVCache.BlockPool
import Nvllm.Lib.Run

/-! # KV cache events

With `enable_kv_cache_events` the pool reports which hashes it stores and removes, so that others
can follow the content of the cache. `EventPool` is the block pool with its queue of events; its
methods do to the pool what those of `BlockPool` do. The queue is never drained here, so it holds
all events. The medium of an event, which is always the GPU, is left out.

A KV cache with one group has the block size at which the hashes are computed.
-/

namespace Nvllm.KVCache

variable {E : Type}

inductive ExternalBlockHash
  | bytes (b : Bytes)
  | int (n : ℕ)
  deriving DecidableEq, Repr

/-- `int.from_bytes` with the most significant byte first. -/
def intFromBytes (b : Bytes) : ℕ := b.foldl (fun n x => n * 256 + x.toNat) 0

/-- `useInt` is `VLLM_KV_EVENTS_USE_INT_BLOCK_HASHES`. -/
def maybeConvertBlockHash (useInt : Bool) (hashBytes : Bytes) : ExternalBlockHash :=
  if useInt then .int (intFromBytes hashBytes % 2 ^ 64) else .bytes hashBytes

structure BlockStored where
  blockHashes : List ExternalBlockHash
  parentBlockHash : Option ExternalBlockHash
  tokenIds : List ℤ
  blockSize : ℕ
  loraId : Option ℕ
  loraName : Option String
  extraKeys : Option (List (Option (List ExtraKey)))
  deriving DecidableEq

inductive KVCacheEvent
  | blockStored (e : BlockStored)
  | blockRemoved (blockHashes : List ExternalBlockHash)
  | allBlocksCleared
  deriving DecidableEq

def KVCacheEvent.stored? : KVCacheEvent → Option BlockStored
  | .blockStored e => some e
  | _ => none

/-- A request with its block hashes; each of them is the hash of a full block of tokens. -/
structure EventRequest (H : Hasher E) extends RequestContent E where
  loraId : Option ℕ
  covered : blockHashes.length * H.blockSize ≤ allTokenIds.length

structure EventPool where
  pool : BlockPool
  kvEventQueue : List KVCacheEvent
  deriving DecidableEq

namespace EventPool

variable (useInt : Bool)

/-- The loop of `cache_full_blocks`, with the hashes for the event. -/
def cacheLoop (groupId : ℕ) :
    List BlockId → List Bytes → BlockPool → Option (List ExternalBlockHash × BlockPool)
  | [], _, p => some ([], p)
  | b :: bs, hashes, p =>
    if (p.block b).isNull then cacheLoop groupId bs hashes.tail p
    else
      match (p.block b).blockHash, hashes with
      | none, h :: hs => do
        let (newHashes, p) ← cacheLoop groupId bs hs (p.cacheBlock ⟨h, groupId⟩ b)
        return (maybeConvertBlockHash useInt h :: newHashes, p)
      | _, _ => none

/-- The extra keys of the blocks from block `i` on. -/
def extraKeysLoop (H : Hasher E) (r : RequestContent E) (p : BlockPool) (blockSize : ℕ) :
    List BlockId → ℕ → ℤ → Option (List (Option (List ExtraKey)))
  | [], _, _ => some []
  | b :: bs, i, currMmIdx =>
    if (p.block b).isNull then extraKeysLoop H r p blockSize bs (i + 1) currMmIdx
    else do
      let blockStart := i * blockSize
      let (extraKeys, currMmIdx) ←
        generateBlockHashExtraKeys H r blockStart (blockStart + blockSize) currMmIdx
      let rest ← extraKeysLoop H r p blockSize bs (i + 1) currMmIdx
      return extraKeys :: rest

def parentBlockHash (hashes : List Bytes) (numCachedBlocks : ℕ) :
    Option (Option ExternalBlockHash) :=
  if numCachedBlocks = 0 then some none
  else (hashes[numCachedBlocks - 1]?).map fun h => some (maybeConvertBlockHash useInt h)

def cacheFullBlocks {H : Hasher E} (q : EventPool) (r : EventRequest H) (blocks : List BlockId)
    (numCachedBlocks numFullBlocks blockSize groupId : ℕ) : Option EventPool :=
  if numFullBlocks ≤ numCachedBlocks then some q
  else if r.blockHashes.length < numFullBlocks then none
  else do
    let hashes ← q.pool.hashesAt blockSize r.blockHashes
    let newFullBlocks := (blocks.take numFullBlocks).drop numCachedBlocks
    let (newHashes, pool) ←
      cacheLoop useInt groupId newFullBlocks (hashes.drop numCachedBlocks) q.pool
    let parent ← parentBlockHash useInt hashes numCachedBlocks
    -- the loop over the extra keys indexes `blocks` up to `num_full_blocks`
    if blocks.length < numFullBlocks then none
    else do
      let extraKeysList ←
        extraKeysLoop H r.toRequestContent pool blockSize newFullBlocks numCachedBlocks 0
      let event : BlockStored :=
        { blockHashes := newHashes
          parentBlockHash := parent
          tokenIds := (r.allTokenIds.take (numFullBlocks * blockSize)).drop
            (numCachedBlocks * blockSize)
          blockSize
          loraId := r.loraId
          loraName := r.loraName
          extraKeys := if extraKeysList = [] then none else some extraKeysList }
      return { pool, kvEventQueue := q.kvEventQueue ++ [.blockStored event] }

def maybeEvictCachedBlock (q : EventPool) (b : BlockId) : EventPool :=
  match (q.pool.block b).blockHash with
  | none => q
  | some key =>
    match q.pool.cachedBlockHashToBlock.pop key b with
    | (false, m) => { q with pool := { q.pool with cachedBlockHashToBlock := m } }
    | (true, m) =>
      { pool := { q.pool.modifyBlock b KVCacheBlock.clearHash with cachedBlockHashToBlock := m }
        kvEventQueue := q.kvEventQueue ++
          [.blockRemoved [maybeConvertBlockHash useInt key.blockHash]] }

def takeLoop : List BlockId → EventPool → Option EventPool
  | [], q => some q
  | b :: bs, q =>
    let q := if q.pool.enableCaching then q.maybeEvictCachedBlock useInt b else q
    if (q.pool.block b).refCnt = 0 then takeLoop bs { q with pool := q.pool.addRef b 1 }
    else none

def getNewBlocks (numBlocks : ℤ) (q : EventPool) : Option (List BlockId × EventPool) :=
  if q.pool.getNumFreeBlocks < numBlocks then none
  else do
    let (bs, free) ← q.pool.freeBlockQueue.popleftN numBlocks
    let q ← takeLoop useInt bs { q with pool := { q.pool with freeBlockQueue := free } }
    return (bs, q)

def evictBlocks : List BlockId → EventPool → Option EventPool
  | [], q => some q
  | b :: bs, q =>
    if b < q.pool.blocks.length then evictBlocks bs (q.maybeEvictCachedBlock useInt b) else none

def touch (bs : List BlockId) (q : EventPool) : Option EventPool := do
  let pool ← q.pool.touch bs
  return { q with pool }

def freeBlocks (orderedBlocks : List BlockId) (q : EventPool) : Option EventPool := do
  let pool ← q.pool.freeBlocks orderedBlocks
  return { q with pool }

def resetPrefixCache (q : EventPool) : Bool × EventPool :=
  match q.pool.resetPrefixCache with
  | (false, pool) => (false, { q with pool })
  | (true, pool) => (true, { pool, kvEventQueue := q.kvEventQueue ++ [.allBlocksCleared] })

end EventPool

/-! ## Runs -/

/-- The arguments of a call of `cache_full_blocks`. -/
structure StoreCall (H : Hasher E) where
  request : EventRequest H
  blocks : List BlockId
  numCachedBlocks : ℕ
  numFullBlocks : ℕ

/-- The blocks that a call caches. -/
def StoreCall.newFullBlocks {H : Hasher E} (c : StoreCall H) : List BlockId :=
  (c.blocks.take c.numFullBlocks).drop c.numCachedBlocks

inductive PoolOp (H : Hasher E)
  | cacheFullBlocks (c : StoreCall H)
  | getNewBlocks (numBlocks : ℤ)
  | evictBlocks (blockIds : List BlockId)
  | touch (blocks : List BlockId)
  | freeBlocks (orderedBlocks : List BlockId)
  | resetPrefixCache

/-- The pool with the calls that made its `BlockStored` events, in order. -/
structure EventLog (H : Hasher E) where
  q : EventPool
  calls : List (StoreCall H)

namespace EventLog

variable {H : Hasher E}

def init (H : Hasher E) (p : BlockPool) : EventLog H where
  q := { pool := p, kvEventQueue := [] }
  calls := []

/-- The blocks that are passed to the pool are blocks of the pool. -/
def known (l : EventLog H) (bs : List BlockId) : Bool := bs.all (· < l.q.pool.blocks.length)

/-- One call, for a KV cache with the one group `groupId`. -/
def step (useInt : Bool) (groupId : ℕ) (l : EventLog H) : PoolOp H → Option (EventLog H)
  | .cacheFullBlocks c =>
    if l.known c.blocks then do
      let q ← l.q.cacheFullBlocks useInt c.request c.blocks c.numCachedBlocks c.numFullBlocks
        H.blockSize groupId
      return { q, calls := if c.numFullBlocks ≤ c.numCachedBlocks then l.calls
        else l.calls ++ [c] }
    else none
  | .getNewBlocks numBlocks => do
    let (_, q) ← l.q.getNewBlocks useInt numBlocks
    return { l with q }
  | .evictBlocks blockIds => do
    let q ← l.q.evictBlocks useInt blockIds
    return { l with q }
  | .touch blocks =>
    if l.known blocks then do
      let q ← l.q.touch blocks
      return { l with q }
    else none
  | .freeBlocks orderedBlocks =>
    if l.known orderedBlocks then do
      let q ← l.q.freeBlocks orderedBlocks
      return { l with q }
    else none
  | .resetPrefixCache => some { l with q := l.q.resetPrefixCache.2 }

end EventLog

end Nvllm.KVCache
