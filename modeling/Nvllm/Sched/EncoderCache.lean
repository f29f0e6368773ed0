import Nvllm.Sched.Request

/-! # The encoder cache

`EncoderCacheManager` decides which encoder outputs the workers keep. An entry is the hash of a
multimodal item with the ids of the requests that use it. Entries without users stay until their
space is needed. The space that is counted is embeddings.

`EncoderDecoderCacheManager` is the variant for encoder-decoder models, which never shares an
output; it is the same structure with `encoderDecoder` set. The Python sets of ids and of input
indices are lists here, input indices in increasing order. A Python exception is `none`.
-/

namespace Nvllm.KVCache.PlaceholderRange

def getNumEmbeds (p : PlaceholderRange) : ℕ :=
  match p.isEmbed with
  | none => p.length
  | some mask => mask.count true

/-- `embeds_cumsum[i]`. -/
def embedsCumsum (mask : List Bool) (i : ℤ) : Option ℕ :=
  (pyIndex mask.length i).map fun j => (mask.take (j + 1)).count true

def getEmbedsIndicesInRange (p : PlaceholderRange) (startIdx endIdx : ℤ) : Option (ℤ × ℤ) :=
  match p.isEmbed with
  | none => some (startIdx, endIdx)
  | some mask => do
    let first ← (if 0 < startIdx then embedsCumsum mask (startIdx - 1) else some 0)
    let last ← embedsCumsum mask (endIdx - 1)
    return ((first : ℤ), (last : ℤ))

end Nvllm.KVCache.PlaceholderRange

namespace Nvllm.Sched

open Nvllm.KVCache

abbrev MmHash := String

def Request.getNumEncoderEmbeds (r : Request) (inputId : ℕ) : Option ℕ :=
  (r.mmFeatures[inputId]?).map fun f => f.mmPosition.getNumEmbeds

structure EncoderCacheManager where
  encoderDecoder : Bool := false
  cacheSize : ℕ
  numFreeSlots : ℤ
  numFreeableSlots : ℤ
  /-- the ids of the requests that use an entry -/
  cached : Dict MmHash (List RequestId) := ∅
  /-- the entries without users with their sizes, oldest first -/
  freeable : Dict MmHash ℕ := ∅
  freed : List MmHash := []
  /-- used by the encoder-decoder variant only -/
  allocated : List MmHash := []
  toFree : List MmHash := []

namespace EncoderCacheManager

def init (encoderDecoder : Bool) (cacheSize : ℕ) : EncoderCacheManager :=
  { encoderDecoder, cacheSize, numFreeSlots := cacheSize, numFreeableSlots := cacheSize }

def reset (e : EncoderCacheManager) : EncoderCacheManager :=
  if e.encoderDecoder then { e with numFreeSlots := e.cacheSize, allocated := [], toFree := [] }
  else init false e.cacheSize

/-- Whether the item is cached; if so the request becomes a user of the entry. -/
def checkAndUpdateCache (e : EncoderCacheManager) (r : Request) (inputId : ℕ) :
    Option (Bool × EncoderCacheManager) :=
  if e.encoderDecoder then some (false, e)
  else do
    let f ← r.mmFeatures[inputId]?
    match e.cached.get? f.identifier with
    | none => return (false, e)
    | some [] => do
      let numEncoderEmbeds ← e.freeable.get? f.identifier
      return (true, { e with
        freeable := e.freeable.erase f.identifier
        numFreeableSlots := e.numFreeableSlots - numEncoderEmbeds
        cached := e.cached.set f.identifier [r.requestId] })
    | some users =>
      return (true, { e with cached := e.cached.set f.identifier (users.insert r.requestId) })

/-- The eviction loop of `can_allocate` over the entries without users. -/
def evict (numEmbeds : ℤ) : List (MmHash × ℕ) → EncoderCacheManager → Option EncoderCacheManager
  | [], e => if e.numFreeSlots < numEmbeds then none else some e
  | (mmHash, numFreeEmbeds) :: rest, e =>
    if e.numFreeSlots < numEmbeds then
      if e.cached.contains mmHash then
        evict numEmbeds rest { e with
          freeable := e.freeable.erase mmHash
          cached := e.cached.erase mmHash
          freed := e.freed ++ [mmHash]
          numFreeSlots := e.numFreeSlots + numFreeEmbeds }
      else none
    else some e

/-- Whether there is room for the item. Entries without users may be evicted for it. -/
def canAllocate (e : EncoderCacheManager) (r : Request) (inputId : ℕ)
    (encoderComputeBudget numEmbedsToSchedule : ℤ) : Option (Bool × EncoderCacheManager) := do
  let numEmbeds ← r.getNumEncoderEmbeds inputId
  if encoderComputeBudget < numEmbeds then return (false, e)
  else if numEmbeds + numEmbedsToSchedule ≤ e.numFreeSlots then return (true, e)
  else if e.encoderDecoder ∨ e.numFreeableSlots < numEmbeds + numEmbedsToSchedule then
    return (false, e)
  else do
    let e ← evict (numEmbeds + numEmbedsToSchedule) e.freeable.entries e
    return (true, e)

/-- Enters the item in the cache, before the encoder has run. -/
def allocate (e : EncoderCacheManager) (r : Request) (inputId : ℕ) :
    Option EncoderCacheManager := do
  let f ← r.mmFeatures[inputId]?
  let numEncoderEmbeds := f.mmPosition.getNumEmbeds
  if e.encoderDecoder then
    return { e with
      numFreeSlots := e.numFreeSlots - numEncoderEmbeds
      allocated := e.allocated ++ [f.identifier] }
  else if numEncoderEmbeds ≤ e.numFreeSlots ∧ numEncoderEmbeds ≤ e.numFreeableSlots then
    return { e with
      cached := e.cached.set f.identifier ((e.cached.getD f.identifier []).insert r.requestId)
      numFreeSlots := e.numFreeSlots - numEncoderEmbeds
      numFreeableSlots := e.numFreeableSlots - numEncoderEmbeds }
  else none

def allocateAll (r : Request) : List ℕ → EncoderCacheManager → Option EncoderCacheManager
  | [], e => some e
  | i :: is, e => do
    let e ← e.allocate r i
    allocateAll r is e

def getCachedInputIds (e : EncoderCacheManager) (r : Request) : List ℕ :=
  (List.range r.mmFeatures.length).filter fun i =>
    e.encoderDecoder || ((r.mmFeatures[i]?).map fun f => e.cached.contains f.identifier).getD false

/-- The request no longer uses the item. -/
def freeEncoderInput (e : EncoderCacheManager) (r : Request) (inputId : ℕ) :
    Option EncoderCacheManager := do
  let f ← r.mmFeatures[inputId]?
  let numEncoderEmbeds := f.mmPosition.getNumEmbeds
  if e.encoderDecoder then return { e with numFreeSlots := e.numFreeSlots + numEncoderEmbeds }
  else
    match e.cached.get? f.identifier with
    | none | some [] => return e
    | some users =>
      let users := users.erase r.requestId
      let e := { e with cached := e.cached.set f.identifier users }
      if users = [] then
        return { e with
          freeable := e.freeable.set f.identifier numEncoderEmbeds
          numFreeableSlots := e.numFreeableSlots + numEncoderEmbeds }
      else return e

def freeInputs (r : Request) : List ℕ → EncoderCacheManager → Option EncoderCacheManager
  | [], e => some e
  | i :: is, e => do
    let e ← e.freeEncoderInput r i
    freeInputs r is e

/-- The request no longer uses any item. -/
def free (e : EncoderCacheManager) (r : Request) : Option EncoderCacheManager :=
  freeInputs r (e.getCachedInputIds r) e

def getFreedMmHashes (e : EncoderCacheManager) : List MmHash × EncoderCacheManager :=
  if e.encoderDecoder then (e.toFree, { e with toFree := e.allocated, allocated := [] })
  else (e.freed, { e with freed := [] })

end EncoderCacheManager

end Nvllm.Sched
