import Mathlib.Algebra.Ring.Int.Defs
import Nvllm.KVCache.Coordinator

/-! # Requests

`Request` with its statuses, the updates of a streaming session, and the check whether a request
stops after a new token. Requests are objects that the queues share, so the scheduler works with
references (`Ref`) to them. Times are integers, a prompt is given by its tokens, and the fields
that are only reported to the client (events, stop reasons, numbers of cached tokens) are left out.

The block hasher is a parameter; `none` is an exception in it.
-/

namespace Nvllm.Sched

open Nvllm.KVCache

/-- A `Request` object. -/
abbrev Ref := ℕ

inductive RequestStatus
  | waiting
  | waitingForStructuredOutputGrammar
  | waitingForRemoteKvs
  | waitingForStreamingReq
  | running
  | preempted
  | finishedStopped
  | finishedLengthCapped
  | finishedAborted
  | finishedIgnored
  | finishedError
  | finishedRepetition
  deriving DecidableEq, Repr

/-- `RequestStatus.is_finished`: what comes after `PREEMPTED`. -/
def RequestStatus.isFinished : RequestStatus → Bool
  | .waiting | .waitingForStructuredOutputGrammar | .waitingForRemoteKvs
  | .waitingForStreamingReq | .running | .preempted => false
  | .finishedStopped | .finishedLengthCapped | .finishedAborted | .finishedIgnored
  | .finishedError | .finishedRepetition => true

/-- `_is_blocked_waiting_status`. -/
def RequestStatus.isBlocked : RequestStatus → Bool
  | .waitingForStructuredOutputGrammar | .waitingForRemoteKvs | .waitingForStreamingReq => true
  | _ => false

structure RepetitionDetectionParams where
  maxPatternSize : ℤ
  minPatternSize : ℤ
  minCount : ℤ
  deriving DecidableEq, Repr

structure SamplingParams where
  minTokens : ℕ := 0
  eosTokenId : Option ℤ := none
  stopTokenIds : List ℤ := []
  repetitionDetection : Option RepetitionDetectionParams := none
  deriving DecidableEq, Repr

/-- `StreamingUpdate`: the next input of a streaming session. Its `max_tokens` is never read. -/
structure StreamingUpdate where
  mmFeatures : List MultiModalFeature := []
  promptTokenIds : List ℤ
  arrivalTime : ℤ
  samplingParams : Option SamplingParams
  deriving DecidableEq

structure LoRARequest where
  loraName : String
  loraIntId : ℕ
  deriving DecidableEq, Repr

structure Request where
  requestId : RequestId
  priority : ℤ := 0
  arrivalTime : ℤ := 0
  samplingParams : Option SamplingParams := some {}
  /-- whether there are `pooling_params` -/
  pooling : Bool := false
  maxTokens : ℕ := 16
  useStructuredOutput : Bool := false
  loraRequest : Option LoRARequest := none
  cacheSalt : Option String := none
  mmFeatures : List MultiModalFeature := []
  skipReadingPrefixCache : Bool := false
  promptTokenIds : List ℤ
  outputTokenIds : List ℤ := []
  allTokenIds : List ℤ
  status : RequestStatus := .waiting
  numOutputPlaceholders : ℤ := 0
  discardLatestAsyncTokens : Bool := false
  specTokenIds : List ℤ := []
  numComputedTokens : ℤ := 0
  isPrefillChunk : Bool := false
  numPreemptions : ℕ := 0
  blockHashes : List Bytes := []
  resumable : Bool := false
  streamingQueue : Option (List (Option StreamingUpdate)) := none
  deriving DecidableEq

instance : Inhabited Request := ⟨{ requestId := 0, promptTokenIds := [], allTokenIds := [] }⟩

namespace Request

def isFinished (r : Request) : Bool := r.status.isFinished

def numTokens (r : Request) : ℕ := r.allTokenIds.length

def numTokensWithSpec (r : Request) : ℕ := r.allTokenIds.length + r.specTokenIds.length

def numOutputTokens (r : Request) : ℕ := r.outputTokenIds.length

def numPromptTokens (r : Request) : ℕ := r.promptTokenIds.length

def hasEncoderInputs (r : Request) : Bool := r.mmFeatures ≠ []

/-- What the block hasher reads of a request without prompt embeddings. -/
def content (E : Type) (r : Request) : RequestContent E where
  allTokenIds := r.allTokenIds
  blockHashes := r.blockHashes
  mmFeatures := r.mmFeatures
  loraName := r.loraRequest.map (·.loraName)
  cacheSalt := r.cacheSalt
  promptEmbeds := none

/-- What the KV cache manager reads of a request. Runs in which two blocks of a request get the same
hash, or hashes have different lengths, are left out (`none`). -/
def toKV (r : Request) : Option KVRequest :=
  if h : r.blockHashes.Nodup ∧
      ∀ a ∈ r.blockHashes, ∀ b ∈ r.blockHashes, a.length = b.length then
    some {
      requestId := r.requestId
      numTokens := r.numTokens
      numComputedTokens := r.numComputedTokens
      blockHashes := ⟨r.blockHashes, h.1, h.2⟩
      skipReadingPrefixCache := r.skipReadingPrefixCache }
  else none

/-- `__lt__`; the references stand for the addresses. -/
def lt (a : Request) (refA : Ref) (b : Request) (refB : Ref) : Bool :=
  if a.priority ≠ b.priority then a.priority < b.priority
  else if a.arrivalTime ≠ b.arrivalTime then a.arrivalTime < b.arrivalTime
  else if a.requestId ≠ b.requestId then a.requestId < b.requestId
  else refA < refB

/-- `update_block_hashes`: the hashes of the blocks that became full follow the old ones. -/
def updateBlockHashes (hasher : Request → Option (List Bytes)) (r : Request) : Option Request := do
  let hs ← hasher r
  return { r with blockHashes := r.blockHashes ++ hs }

def appendOutputTokenId (hasher : Request → Option (List Bytes)) (r : Request) (token : ℤ) :
    Option Request :=
  updateBlockHashes hasher
    { r with
      outputTokenIds := r.outputTokenIds ++ [token]
      allTokenIds := r.allTokenIds ++ [token] }

/-! ## New requests -/

/-- What a client sends. -/
structure EngineCoreRequest where
  requestId : RequestId
  promptTokenIds : List ℤ
  samplingParams : Option SamplingParams := some {}
  /-- whether there are `pooling_params` -/
  pooling : Bool := false
  /-- `sampling_params.max_tokens` -/
  maxTokens : ℕ := 16
  /-- whether the sampling parameters ask for structured output -/
  structuredOutputs : Bool := false
  skipReadingPrefixCache : Bool := false
  mmFeatures : List MultiModalFeature := []
  loraRequest : Option LoRARequest := none
  cacheSalt : Option String := none
  priority : ℤ := 0
  arrivalTime : ℤ := 0
  resumable : Bool := false
  deriving DecidableEq

/-- `from_engine_core_request`. -/
def fromEngineCoreRequest (hasher : Request → Option (List Bytes)) (q : EngineCoreRequest) :
    Option Request :=
  let useStructuredOutput := q.samplingParams.isSome && q.structuredOutputs
  if q.pooling ∨ q.samplingParams.isSome then
    updateBlockHashes hasher {
      requestId := q.requestId
      priority := q.priority
      arrivalTime := q.arrivalTime
      samplingParams := q.samplingParams
      pooling := q.pooling
      maxTokens := if q.pooling then 1 else q.maxTokens
      useStructuredOutput
      loraRequest := q.loraRequest
      cacheSalt := q.cacheSalt
      mmFeatures := q.mmFeatures
      skipReadingPrefixCache := q.skipReadingPrefixCache
      promptTokenIds := q.promptTokenIds
      allTokenIds := q.promptTokenIds
      status :=
        if !q.pooling && useStructuredOutput then .waitingForStructuredOutputGrammar else .waiting
      resumable := q.resumable }
  else none

/-! ## When a request stops -/

/-- `_has_repeating_pattern` on the reversed tokens. -/
def hasRepeatingPattern (tail : List ℤ) (patternLen minCount : ℕ) : Bool :=
  (List.range patternLen).all fun n =>
    (List.range (minCount - 1)).all fun m => tail[patternLen * (m + 1) + n]? == tail[n]?

/-- The loop of `check_sequence_repetition` over `n` pattern lengths from `patternLen` on. -/
def repetitionLoop (tail : List ℤ) (minCount : ℕ) : ℕ → ℕ → Bool
  | 0, _ => false
  | n + 1, patternLen =>
    if tail.length < patternLen * minCount then false
    else
      hasRepeatingPattern tail patternLen minCount ||
        repetitionLoop tail minCount n (patternLen + 1)

def checkSequenceRepetition (tokenIds : List ℤ) (params : RepetitionDetectionParams) : Bool :=
  let minPatternSize := if params.minPatternSize ≤ 0 then 1 else params.minPatternSize
  if params.maxPatternSize ≤ 0 ∨ params.minCount < 2 ∨ params.maxPatternSize < minPatternSize then
    false
  else
    repetitionLoop tokenIds.reverse params.minCount.toNat
      (params.maxPatternSize + 1 - minPatternSize).toNat minPatternSize.toNat

/-- The status that the last token leads to, if the request stops with it. -/
def stopStatus (r : Request) (p : SamplingParams) (lastTokenId : ℤ) (maxModelLen : ℕ) :
    Option RequestStatus :=
  if some lastTokenId = p.eosTokenId ∨ lastTokenId ∈ p.stopTokenIds then some .finishedStopped
  else if maxModelLen ≤ r.numTokens ∨ r.maxTokens ≤ r.numOutputTokens then
    some .finishedLengthCapped
  else
    match p.repetitionDetection with
    | some params =>
      if checkSequenceRepetition r.outputTokenIds params then some .finishedRepetition else none
    | none => none

/-- `check_stop`: the status in which the request stops, or nothing. -/
def checkStop (r : Request) (maxModelLen : ℕ) : Option (Option RequestStatus) :=
  if r.pooling then none
  else do
    let p ← r.samplingParams
    if r.numOutputTokens < p.minTokens then return none
    else do
      let lastTokenId ← r.outputTokenIds.getLast?
      return r.stopStatus p lastTokenId maxModelLen

/-- `Scheduler._update_request_with_output`: the appended tokens and whether the request stops. -/
def updateWithOutput (hasher : Request → Option (List Bytes)) (maxModelLen : ℕ) :
    List ℤ → Request → Option (List ℤ × Bool × Request)
  | [], r => some ([], false, r)
  | token :: tokens, r => do
    let r ← r.appendOutputTokenId hasher token
    match ← r.checkStop maxModelLen with
    | some status => return ([token], true, { r with status })
    | none => do
      let (appended, stopped, r) ← updateWithOutput hasher maxModelLen tokens r
      return (token :: appended, stopped, r)

/-! ## Streaming sessions -/

/-- `StreamingUpdate.from_request`. -/
def toStreamingUpdate (r : Request) : Option StreamingUpdate :=
  if r.resumable then
    some { mmFeatures := r.mmFeatures, promptTokenIds := r.promptTokenIds
           arrivalTime := r.arrivalTime, samplingParams := r.samplingParams }
  else none

/-- Where a Python slice that ends at `i` stops in a list of length `n`. -/
def sliceStop (n : ℕ) (i : ℤ) : ℕ := if 0 ≤ i then min i.toNat n else (n + i).toNat

/-- A feature `base` tokens further on. -/
def shiftFeature (base : ℕ) (f : MultiModalFeature) : MultiModalFeature :=
  { f with mmPosition := { f.mmPosition with offset := f.mmPosition.offset + base } }

/-- The tokens that `_update_request_as_session` keeps: those that are computed. -/
def keptTokens (r : Request) : List ℤ :=
  r.allTokenIds.take (sliceStop r.numTokens r.numComputedTokens)

/-- The tokens of the request after `_update_request_as_session`. -/
def replaceTokens (r : Request) (update : StreamingUpdate) : Request :=
  { r with
    outputTokenIds := []
    allTokenIds := r.keptTokens ++ update.promptTokenIds
    promptTokenIds := r.promptTokenIds ++ r.keptTokens.drop r.numPromptTokens ++
      update.promptTokenIds
    mmFeatures := r.mmFeatures ++ update.mmFeatures.map (shiftFeature r.keptTokens.length) }

/-- `_update_request_as_session` without the counter of the scheduler: the computed output becomes
part of the prompt, the rest of it is dropped and the new input follows. -/
def updateAsSession (hasher : Request → Option (List Bytes)) (r : Request)
    (update : StreamingUpdate) : Option Request := do
  let r ← updateBlockHashes hasher (r.replaceTokens update)
  return { r with
    arrivalTime := update.arrivalTime
    samplingParams := update.samplingParams
    status := .waiting }

/-- `_handle_stopped_request` without the queues and the counter of the scheduler: whether the
request is finished, and the request. -/
def handleStopped (hasher : Request → Option (List Bytes)) (r : Request) :
    Option (Bool × Request) :=
  if r.resumable then
    match r.streamingQueue with
    | some (none :: queue) => some (true, { r with streamingQueue := some queue })
    | some (some update :: queue) => do
      let r ← updateAsSession hasher { r with streamingQueue := some queue } update
      return (false, r)
    | _ => some (false, { r with status := .waitingForStreamingReq })
  else some (true, r)

end Request

end Nvllm.Sched
