import Nvllm.KVCache.BlockHash
import Nvllm.Lib.DList

/-! # The block pool

`BlockPool` owns the blocks of the KV cache: their reference counts and hashes, the queue of free
blocks in eviction order, and the map from hashes to cached blocks. A block is named by its index,
which is its `block_id`; the two link fields of a block are kept in the queue. A Python exception
is `none`. Events and metrics are left out.
-/

namespace Nvllm.KVCache

open Nvllm.DList

abbrev BlockId := ℕ

abbrev RequestId := ℕ

/-- The hash of a block together with its KV cache group; the source packs both into one byte
string, the group id in the last four bytes. -/
structure BlockHashWithGroupId where
  blockHash : Bytes
  groupId : ℕ
  deriving DecidableEq, Repr

/-- `KVCacheBlock` without its id and its link fields. -/
structure KVCacheBlock where
  refCnt : ℤ := 0
  blockHash : Option BlockHashWithGroupId := none
  isNull : Bool := false
  deriving DecidableEq, Repr

/-- `reset_hash`. -/
def KVCacheBlock.clearHash (blk : KVCacheBlock) : KVCacheBlock := { blk with blockHash := none }

/-! ## Cached blocks by hash -/

/-- The union of `BlockHashToBlockMap`: one block, or a dict of blocks in insertion order. -/
inductive CachedBlocks
  | one (b : BlockId)
  | many (bs : List BlockId)
  deriving DecidableEq, Repr

abbrev BlockHashToBlockMap := Dict BlockHashWithGroupId CachedBlocks

namespace BlockHashToBlockMap

def getOneBlock (m : BlockHashToBlockMap) (key : BlockHashWithGroupId) : Option BlockId :=
  match m.get? key with
  | none => none
  | some (.one b) => some b
  | some (.many bs) => bs.head?

/-- `blocks[b] = b` on the ids of an inner dict. -/
def addId (bs : List BlockId) (b : BlockId) : List BlockId := if b ∈ bs then bs else bs ++ [b]

def insert (m : BlockHashToBlockMap) (key : BlockHashWithGroupId) (b : BlockId) :
    BlockHashToBlockMap :=
  match m.get? key with
  | none => m.set key (.one b)
  | some (.one b0) => m.set key (.many (addId [b0] b))
  | some (.many bs) => m.set key (.many (addId bs b))

/-- `pop`: whether the block was found, and the map afterwards. -/
def pop (m : BlockHashToBlockMap) (key : BlockHashWithGroupId) (b : BlockId) :
    Bool × BlockHashToBlockMap :=
  match m.get? key with
  | none => (false, m.erase key)
  | some (.one b0) =>
    if b0 = b then (true, m.erase key) else (false, (m.erase key).set key (.one b0))
  | some (.many bs) =>
    let bs' := bs.filter (· ≠ b)
    (decide (b ∈ bs), if bs'.isEmpty then m.erase key else (m.erase key).set key (.many bs'))

/-- The map stores `b` under `key`. -/
def Stores (m : BlockHashToBlockMap) (key : BlockHashWithGroupId) (b : BlockId) : Prop :=
  match m.get? key with
  | none => False
  | some (.one b0) => b0 = b
  | some (.many bs) => b ∈ bs

end BlockHashToBlockMap

/-- `BlockHashListWithBlockSize`: consecutive hashes concatenated, `scale` at a time. -/
def mergeBlockHashes (scale : ℕ) (hashes : List Bytes) : List Bytes :=
  (List.range (hashes.length / scale)).map fun i => ((hashes.drop (i * scale)).take scale).flatten

/-! ## The pool -/

structure BlockPool where
  numGpuBlocks : ℕ
  enableCaching : Bool
  hashBlockSize : ℕ
  blocks : List KVCacheBlock
  freeBlockQueue : Queue BlockId
  cachedBlockHashToBlock : BlockHashToBlockMap
  nullBlock : BlockId
  deriving DecidableEq

namespace BlockPool

def block (p : BlockPool) (b : BlockId) : KVCacheBlock := p.blocks[b]?.getD {}

def modifyBlock (p : BlockPool) (b : BlockId) (f : KVCacheBlock → KVCacheBlock) : BlockPool :=
  { p with blocks := p.blocks.modify b f }

/-- `block.ref_cnt += n`. -/
def addRef (p : BlockPool) (b : BlockId) (n : ℤ) : BlockPool :=
  p.modifyBlock b fun blk => { blk with refCnt := blk.refCnt + n }

def init (numGpuBlocks : ℕ) (enableCaching : Bool) (hashBlockSize : ℕ) : Option BlockPool := do
  let (null, q) ← (Queue.ofList (List.range numGpuBlocks)).popleft
  let p : BlockPool :=
    { numGpuBlocks, enableCaching, hashBlockSize
      blocks := List.replicate numGpuBlocks {}
      freeBlockQueue := q
      cachedBlockHashToBlock := ∅
      nullBlock := null }
  return p.modifyBlock null fun blk => { blk with isNull := true }

def getNumFreeBlocks (p : BlockPool) : ℤ := p.freeBlockQueue.size

/-- The cached block of each group, or nothing if one group misses. -/
def getCachedBlock (p : BlockPool) (blockHash : Bytes) (groupIds : List ℕ) :
    Option (List BlockId) :=
  groupIds.mapM fun g => p.cachedBlockHashToBlock.getOneBlock ⟨blockHash, g⟩

/-- Hashes at the granularity of `blockSize`. -/
def hashesAt (p : BlockPool) (blockSize : ℕ) (hashes : List Bytes) : Option (List Bytes) :=
  if blockSize = p.hashBlockSize then some hashes
  else if blockSize % p.hashBlockSize = 0 then
    some (mergeBlockHashes (blockSize / p.hashBlockSize) hashes)
  else none

/-- Sets the hash of a full block and stores it. -/
def cacheBlock (p : BlockPool) (key : BlockHashWithGroupId) (b : BlockId) : BlockPool :=
  { p.modifyBlock b fun blk => { blk with blockHash := some key } with
    cachedBlockHashToBlock := p.cachedBlockHashToBlock.insert key b }

/-- The loop of `cache_full_blocks` over the new full blocks and the hashes from there on. -/
def cacheLoop (groupId : ℕ) : List BlockId → List Bytes → BlockPool → Option BlockPool
  | [], _, p => some p
  | b :: bs, hashes, p =>
    -- null blocks are skipped, and so is their hash
    if (p.block b).isNull then cacheLoop groupId bs hashes.tail p
    else
      match (p.block b).blockHash, hashes with
      | none, h :: hs => cacheLoop groupId bs hs (p.cacheBlock ⟨h, groupId⟩ b)
      | _, _ => none

def cacheFullBlocks (p : BlockPool) (blockHashes : List Bytes) (blocks : List BlockId)
    (numCachedBlocks numFullBlocks blockSize groupId : ℕ) : Option BlockPool :=
  if numFullBlocks ≤ numCachedBlocks then some p
  else if blockHashes.length < numFullBlocks then none
  else do
    let hashes ← p.hashesAt blockSize blockHashes
    cacheLoop groupId ((blocks.take numFullBlocks).drop numCachedBlocks)
      (hashes.drop numCachedBlocks) p

def maybeEvictCachedBlock (p : BlockPool) (b : BlockId) : BlockPool :=
  match (p.block b).blockHash with
  | none => p
  | some key =>
    match p.cachedBlockHashToBlock.pop key b with
    | (false, m) => { p with cachedBlockHashToBlock := m }
    | (true, m) =>
      { p.modifyBlock b KVCacheBlock.clearHash with
        cachedBlockHashToBlock := m }

/-- The loop of `get_new_blocks` over the popped blocks. -/
def takeLoop : List BlockId → BlockPool → Option BlockPool
  | [], p => some p
  | b :: bs, p =>
    let p := if p.enableCaching then p.maybeEvictCachedBlock b else p
    if (p.block b).refCnt = 0 then takeLoop bs (p.addRef b 1) else none

def getNewBlocks (numBlocks : ℤ) (p : BlockPool) : Option (List BlockId × BlockPool) :=
  if p.getNumFreeBlocks < numBlocks then none
  else do
    let (bs, q) ← p.freeBlockQueue.popleftN numBlocks
    let p ← takeLoop bs { p with freeBlockQueue := q }
    return (bs, p)

/-- The free queue once `b` is touched: a block that nobody holds leaves it. -/
def queueTouched (p : BlockPool) (b : BlockId) : Option (Queue BlockId) :=
  if (p.block b).refCnt = 0 ∧ (p.block b).isNull = false then p.freeBlockQueue.remove b
  else some p.freeBlockQueue

def touch : List BlockId → BlockPool → Option BlockPool
  | [], p => some p
  | b :: bs, p => do
    let q ← p.queueTouched b
    touch bs ({ p with freeBlockQueue := q }.addRef b 1)

def decrLoop : List BlockId → BlockPool → BlockPool
  | [], p => p
  | b :: bs, p => decrLoop bs (p.addRef b (-1))

def freeBlocks (orderedBlocks : List BlockId) (p : BlockPool) : Option BlockPool := do
  let p := decrLoop orderedBlocks p
  let q ← p.freeBlockQueue.appendN
    (orderedBlocks.filter fun b => (p.block b).refCnt = 0 ∧ (p.block b).isNull = false)
  return { p with freeBlockQueue := q }

def evictBlocks : List BlockId → BlockPool → Option BlockPool
  | [], p => some p
  | b :: bs, p =>
    if b < p.blocks.length then evictBlocks bs (p.maybeEvictCachedBlock b) else none

/-- `reset_prefix_cache`: unchanged and `false` while blocks are in use. -/
def resetPrefixCache (p : BlockPool) : Bool × BlockPool :=
  if (p.numGpuBlocks : ℤ) - p.getNumFreeBlocks ≠ 1 then (false, p)
  else
    (true,
      { p with
        cachedBlockHashToBlock := ∅
        blocks := p.blocks.map KVCacheBlock.clearHash })

end BlockPool

end Nvllm.KVCache
