import Nvllm.Lib.Run
import Nvllm.Offload.CachePolicy

/-! # The CPU offloading manager

`CPUOffloadingManager` owns the blocks of CPU memory. A block id is new (not below
`numAllocatedBlocks`), in `freeList`, or held by the policy under the hash of the data it has. A
Python exception, an assertion for instance, is `none`. Events and the block size, which only
events report, are left out.

A run is any sequence of calls. `Tracked` keeps with the manager the transfers that were prepared
and not completed yet, with the block ids that the workers were told; `Permitted` says which calls
fit them and the stored blocks.
-/

namespace Nvllm.Offload

variable {H : Type} [DecidableEq H]

structure CPUOffloadingManager (H : Type) where
  numBlocks : ℕ
  numAllocatedBlocks : ℕ := 0
  freeList : List ℕ := []
  policy : CachePolicy H

/-- What `prepare_store` returns if the blocks can be stored. -/
structure PrepareStoreOutput (H : Type) where
  blockHashesToStore : List H
  storeSpec : List ℕ
  blockHashesEvicted : List H

namespace CPUOffloadingManager

def init (name : PolicyName) (numBlocks : ℕ) : CPUOffloadingManager H where
  numBlocks := numBlocks
  policy := .init name numBlocks

/-! ## The block pool -/

def getNumFreeBlocks (m : CPUOffloadingManager H) : ℤ :=
  m.freeList.length + m.numBlocks - m.numAllocatedBlocks

/-- New blocks first, then the last ones of the free list. -/
def allocateBlocks (m : CPUOffloadingManager H) (blockHashes : List H) :
    Option (List BlockStatus × CPUOffloadingManager H) :=
  let numFresh := min blockHashes.length (m.numBlocks - m.numAllocatedBlocks)
  let numReused := blockHashes.length - numFresh
  if numReused ≤ m.freeList.length then
    let fresh := List.range' m.numAllocatedBlocks numFresh
    let reused := m.freeList.reverse.take numReused
    some ((fresh ++ reused).map BlockStatus.init,
      { m with
        numAllocatedBlocks := m.numAllocatedBlocks + numFresh
        freeList := (m.freeList.reverse.drop numReused).reverse })
  else none

/-! ## Lookup and loads -/

def lookup (m : CPUOffloadingManager H) : List H → ℕ
  | [] => 0
  | h :: hs =>
    match m.policy.get h with
    | some block => if block.isReady then m.lookup hs + 1 else 0
    | none => 0

def touch (R : Rounding) (m : CPUOffloadingManager H) (blockHashes : List H) :
    CPUOffloadingManager H :=
  { m with policy := m.policy.touch R blockHashes }

/-- `prepare_load`: the ids of the blocks to read. -/
def prepareLoad : List H → CPUOffloadingManager H → Option (List ℕ × CPUOffloadingManager H)
  | [], m => some ([], m)
  | h :: hs, m => do
    let block ← m.policy.get h
    if block.isReady then do
      let policy := m.policy.assign h (block.setRefCnt (block.refCnt + 1))
      let (ids, m) ← prepareLoad hs { m with policy }
      return (block.blockId :: ids, m)
    else none

def completeLoad : List H → CPUOffloadingManager H → Option (CPUOffloadingManager H)
  | [], m => some m
  | h :: hs, m => do
    let block ← m.policy.get h
    if 0 < block.refCnt then
      completeLoad hs
        { m with policy := m.policy.assign h (block.setRefCnt (block.refCnt - 1)) }
    else none

/-! ## Stores -/

/-- `_policy.insert` for each hash with its block. -/
def insertAll : List (H × BlockStatus) → CachePolicy H → CachePolicy H
  | [], p => p
  | e :: es, p => insertAll es (p.insert e.1 e.2)

/-- The part of `prepare_store` after the eviction. -/
def storeBlocks (m : CPUOffloadingManager H) (blockHashesToStore evicted : List H) :
    Option (PrepareStoreOutput H × CPUOffloadingManager H) := do
  let (blocks, m) ← m.allocateBlocks blockHashesToStore
  if blocks.length = blockHashesToStore.length then
    return ({
        blockHashesToStore
        storeSpec := blocks.map BlockStatus.blockId
        blockHashesEvicted := evicted },
      { m with policy := insertAll (blockHashesToStore.zip blocks) m.policy })
  else none

/-- `prepare_store`; its result is nothing if the blocks cannot be stored. -/
def prepareStore (m : CPUOffloadingManager H) (blockHashes : List H) :
    Option (Option (PrepareStoreOutput H) × CPUOffloadingManager H) := do
  let toStore := blockHashes.filter fun h => (m.policy.get h).isNone
  if toStore = [] then return (some ⟨[], [], []⟩, m)
  else
    let numBlocksToEvict := toStore.length - m.getNumFreeBlocks
    if 0 < numBlocksToEvict then
      -- blocks of the request that are already stored must remain
      match m.policy.evict numBlocksToEvict.toNat blockHashes with
      | none => return (none, m)
      | some (evicted, policy) => do
        let m := { m with
          policy
          freeList := m.freeList ++ evicted.map fun e : H × BlockStatus => e.2.blockId }
        let (out, m) ← m.storeBlocks toStore (evicted.map Prod.fst)
        return (some out, m)
    else do
      let (out, m) ← m.storeBlocks toStore []
      return (some out, m)

/-- The body of the loop of `complete_store`. -/
def completeOne (m : CPUOffloadingManager H) (h : H) (success : Bool) :
    Option (CPUOffloadingManager H) :=
  match m.policy.get h with
  | none => some m
  | some block =>
    if block.isReady then some m
    else if success then some { m with policy := m.policy.assign h (block.setRefCnt 0) }
    else do
      let policy ← m.policy.remove h
      return { m with policy, freeList := m.freeList ++ [block.blockId] }

def completeStore (success : Bool) : List H → CPUOffloadingManager H →
    Option (CPUOffloadingManager H)
  | [], m => some m
  | h :: hs, m => do
    let m ← m.completeOne h success
    completeStore success hs m

end CPUOffloadingManager

/-! ## Runs -/

inductive Call (H : Type)
  | lookup (blockHashes : List H)
  | touch (blockHashes : List H)
  | prepareLoad (blockHashes : List H)
  | completeLoad (blockHashes : List H)
  | prepareStore (blockHashes : List H)
  | completeStore (blockHashes : List H) (success : Bool)

/-- The manager with the pending transfers: the hashes and the block ids given for them. -/
structure Tracked (H : Type) where
  m : CPUOffloadingManager H
  loads : List (H × ℕ)
  stores : List (H × ℕ)

namespace Tracked

def init (name : PolicyName) (numBlocks : ℕ) : Tracked H := ⟨.init name numBlocks, [], []⟩

/-- Takes the first transfer of each hash from the list. -/
def settle (pending : List (H × ℕ)) (hs : List H) : List (H × ℕ) :=
  hs.foldl (fun pending h => pending.eraseP fun j => j.1 = h) pending

open CPUOffloadingManager in
def step (R : Rounding) (t : Tracked H) : Call H → Option (Tracked H)
  | .lookup _ => some t
  | .touch hs => some { t with m := t.m.touch R hs }
  | .prepareLoad hs => do
    let (ids, m) ← prepareLoad hs t.m
    return { t with m, loads := t.loads ++ hs.zip ids }
  | .completeLoad hs => do
    let m ← completeLoad hs t.m
    return { t with m, loads := settle t.loads hs }
  | .prepareStore hs => do
    let (out, m) ← t.m.prepareStore hs
    return { t with
      m
      stores := t.stores ++ (out.elim [] fun o => o.blockHashesToStore.zip o.storeSpec) }
  | .completeStore hs success => do
    let m ← completeStore success hs t.m
    return { t with m, stores := settle t.stores hs }

/-- How often the hash is in the list of transfers. -/
def pendingCount (pending : List (H × ℕ)) (h : H) : ℕ := pending.countP fun j => j.1 = h

/-- Completions match preparations, and a store lists distinct hashes. -/
def Matched (t : Tracked H) : Call H → Prop
  | .completeLoad hs => ∀ h ∈ hs, hs.count h ≤ pendingCount t.loads h
  | .prepareStore hs => hs.Nodup
  | .completeStore hs _ => ∀ h ∈ hs, hs.count h ≤ pendingCount t.stores h
  | _ => True

/-- A load lists hashes that `lookup` counts, and leaves fewer than 2^31 loads of one block. -/
def Loadable (t : Tracked H) : Call H → Prop
  | .prepareLoad hs => (∀ h ∈ hs, t.m.lookup [h] = 1) ∧
      ∀ h ∈ hs, pendingCount t.loads h + hs.count h < 2 ^ 31
  | _ => True

/-- The calls that fit the pending transfers and the stored blocks. -/
def Permitted (t : Tracked H) (c : Call H) : Prop := t.Matched c ∧ t.Loadable c

instance (t : Tracked H) (c : Call H) : Decidable (t.Matched c) :=
  match c with
  | .lookup _ | .touch _ | .prepareLoad _ => inferInstanceAs (Decidable True)
  | .completeLoad hs => inferInstanceAs (Decidable (∀ h ∈ hs, _))
  | .prepareStore hs => inferInstanceAs (Decidable hs.Nodup)
  | .completeStore hs _ => inferInstanceAs (Decidable (∀ h ∈ hs, _))

instance (t : Tracked H) (c : Call H) : Decidable (t.Loadable c) :=
  match c with
  | .prepareLoad _ => inferInstanceAs (Decidable (_ ∧ _))
  | .lookup _ | .touch _ | .completeLoad _ | .prepareStore _ | .completeStore _ _ =>
    inferInstanceAs (Decidable True)

instance (t : Tracked H) (c : Call H) : Decidable (t.Permitted c) :=
  inferInstanceAs (Decidable (_ ∧ _))

end Tracked

end Nvllm.Offload
