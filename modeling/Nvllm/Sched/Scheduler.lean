import Nvllm.Sched.EncoderCache
import Nvllm.Sched.Queue

/-! # The state of the scheduler

The fields of `Scheduler` and the methods that `schedule`, `update_from_output` and the calls of
the engine share: preemption, freeing, promotion of blocked requests, the waiting queues and the
start of the next input of a streaming session.

`req` holds the objects; the queues and `requests` refer to them. What comes from outside (the KV
connector, the encoder cache connector, the grammar compiler) is an argument of type `Answers`, so
that every behaviour of theirs is covered. Statistics, events and logging are left out. A Python
exception is `none`.
-/

namespace Nvllm.Sched

open Nvllm.KVCache

structure SchedulerConfig where
  policy : SchedulingPolicy := .fcfs
  maxNumRunningReqs : ℕ
  maxNumScheduledTokens : ℕ
  maxModelLen : ℕ
  /-- the block size of the hashes -/
  blockSize : ℕ
  /-- the block size of the cache configuration, read by the split for mamba -/
  cacheBlockSize : ℕ := blockSize
  longPrefillTokenThreshold : ℕ := 0
  enableChunkedPrefill : Bool := true
  disableChunkedMmInput : Bool := false
  /-- the limit of the LoRA configuration, if there is one -/
  maxLoras : Option ℕ := none
  useEagle : Bool := false
  numSpecTokens : ℕ := 0
  numLookaheadTokens : ℕ := 0
  isEncoderDecoder : Bool := false
  maxNumEncoderInputTokens : ℕ := 0
  schedulerReserveFullIsl : Bool := false
  needMambaBlockAlignedSplit : Bool := false
  usePp : Bool := false
  useV2ModelRunner : Bool := false
  /-- the class is `AsyncScheduler` -/
  asyncScheduling : Bool := false
  /-- there is a KV connector -/
  connector : Bool := false
  recomputeKvLoadFailures : Bool := true

/-- What the connectors and the grammar compiler say during one call. -/
structure Answers where
  /-- `get_num_new_matched_tokens`: the number, if it is known, and whether it is loaded
  asynchronously -/
  matchedTokens : RequestId → ℕ → Option ℕ × Bool := fun _ _ => (some 0, false)
  grammarReady : RequestId → Bool := fun _ => true
  /-- `has_cache_item` of the encoder cache connector -/
  hasCacheItem : MmHash → Bool := fun _ => false
  /-- `request_finished` asks to free the blocks later -/
  delayFreeBlocks : RequestId → Bool := fun _ => false

inductive PauseState
  | unpaused
  | pausedNew
  | pausedAll
  deriving DecidableEq, Repr

structure Scheduler where
  req : Ref → Request
  nextRef : Ref
  requests : Dict RequestId Ref
  waiting : List Ref
  skippedWaiting : List Ref
  running : List Ref
  finishedReqIds : List RequestId
  numWaitingForStreamingInput : ℤ
  finishedRecvingKvReqIds : List RequestId
  failedRecvingKvReqIds : List RequestId
  prevStepScheduledReqIds : List RequestId
  pauseState : PauseState
  kv : KVCacheManager
  enc : EncoderCacheManager

/-- A request that is preempted is computed from the start again. -/
def Request.preempted (r : Request) : Request :=
  { r with
    status := .preempted
    numComputedTokens := 0
    specTokenIds := []
    numPreemptions := r.numPreemptions + 1 }

def Request.withStreamingQueue (streamingQueue : Option (List (Option StreamingUpdate)))
    (r : Request) : Request :=
  { r with streamingQueue }

/-- A session that waits for its next input. -/
def Request.idle (r : Request) : Request := { r with status := .waitingForStreamingReq }

namespace Scheduler

def init (kv : KVCacheManager) (enc : EncoderCacheManager) : Scheduler where
  req := fun _ => default
  nextRef := 0
  requests := ∅
  waiting := []
  skippedWaiting := []
  running := []
  finishedReqIds := []
  numWaitingForStreamingInput := 0
  finishedRecvingKvReqIds := []
  failedRecvingKvReqIds := []
  prevStepScheduledReqIds := []
  pauseState := .unpaused
  kv := kv
  enc := enc

/-- Assigns to fields of a request. -/
def modify (s : Scheduler) (v : Ref) (f : Request → Request) : Scheduler :=
  { s with req := Function.update s.req v (f (s.req v)) }

@[simp] theorem req_modify_self (s : Scheduler) (v : Ref) (f : Request → Request) :
    (s.modify v f).req v = f (s.req v) := Function.update_self ..

theorem req_modify_of_ne (s : Scheduler) {v w : Ref} (f : Request → Request) (h : w ≠ v) :
    (s.modify v f).req w = s.req w := Function.update_of_ne h ..

/-- A field that is not changed. -/
theorem field_modify {α : Type} (g : Request → α) {s : Scheduler} {v : Ref} {f : Request → Request}
    (h : g (f (s.req v)) = g (s.req v)) (w : Ref) : g ((s.modify v f).req w) = g (s.req w) := by
  by_cases hw : w = v
  · rw [hw, req_modify_self, h]
  · rw [req_modify_of_ne s f hw]

/-- `__lt__` of two requests. -/
def lt (s : Scheduler) (v w : Ref) : Bool := (s.req v).lt v (s.req w) w

variable (cfg : SchedulerConfig) (hasher : Request → Option (List Bytes)) (a : Answers)

/-! ## The waiting queues -/

inductive QueueName
  | waiting
  | skipped
  deriving DecidableEq, Repr

def queue (s : Scheduler) : QueueName → List Ref
  | .waiting => s.waiting
  | .skipped => s.skippedWaiting

def setQueue (s : Scheduler) (q : QueueName) (refs : List Ref) : Scheduler :=
  match q with
  | .waiting => { s with waiting := refs }
  | .skipped => { s with skippedWaiting := refs }

def prependWaiting (s : Scheduler) (v : Ref) : Scheduler :=
  { s with waiting := RequestQueue.prependRequest cfg.policy s.lt v s.waiting }

def enqueueWaitingRequest (s : Scheduler) (v : Ref) : Scheduler :=
  let q := if (s.req v).status.isBlocked then .skipped else .waiting
  s.setQueue q (RequestQueue.addRequest cfg.policy s.lt v (s.queue q))

/-- Blocked requests first for `FCFS`, the smaller head for `PRIORITY`. -/
def selectWaitingQueueForScheduling (s : Scheduler) : Option QueueName :=
  match cfg.policy, s.waiting, s.skippedWaiting with
  | _, [], [] => none
  | .fcfs, _, _ :: _ => some .skipped
  | .fcfs, _ :: _, [] => some .waiting
  | .priority, v :: _, w :: _ => some (if s.lt v w then .waiting else .skipped)
  | .priority, _ :: _, [] => some .waiting
  | .priority, [], _ :: _ => some .skipped

/-! ## Preemption -/

/-- `_preempt_request`, for a request that is no longer in `running`. -/
def preemptRequest (s : Scheduler) (v : Ref) : Option Scheduler :=
  if (s.req v).status = .running then do
    let kv ← s.kv.free (s.req v).requestId
    let enc ← s.enc.free (s.req v)
    return ({ s with kv, enc }.modify v Request.preempted).prependWaiting cfg v
  else none

/-! ## Freeing -/

/-- `_connector_finished`: whether the connector delays the freeing. -/
def connectorFinished (s : Scheduler) (v : Ref) : Option (Bool × Scheduler) :=
  if cfg.connector then do
    let kv ← s.kv.removeSkippedBlocks (s.req v).requestId (s.req v).numTokens
    return (a.delayFreeBlocks (s.req v).requestId, { s with kv })
  else some (false, s)

def freeBlocks (s : Scheduler) (v : Ref) : Option Scheduler :=
  if (s.req v).isFinished = true ∧ s.requests.contains (s.req v).requestId = true then do
    let kv ← s.kv.free (s.req v).requestId
    return { s with kv, requests := s.requests.erase (s.req v).requestId }
  else none

def freeRequest (s : Scheduler) (v : Ref) (delayFreeBlocks : Bool) : Option Scheduler :=
  if (s.req v).isFinished then do
    let (delay, s) ← s.connectorFinished cfg a v
    let enc ← s.enc.free (s.req v)
    let s := { s with enc, finishedReqIds := s.finishedReqIds.insert (s.req v).requestId }
    if delayFreeBlocks || delay then return s else s.freeBlocks v
  else none

/-! ## Blocked requests -/

/-- `kv_cache_manager.cache_blocks` for the computed tokens of a request. -/
def cacheComputed (s : Scheduler) (v : Ref) : Option KVCacheManager := do
  let r ← (s.req v).toKV
  s.kv.cacheBlocks r (s.req v).numComputedTokens.toNat

/-- `_update_waiting_for_remote_kv`: the tokens that were received can be used. -/
def updateWaitingForRemoteKv (s : Scheduler) (v : Ref) : Option Scheduler :=
  let r := s.req v
  let finishedRecvingKvReqIds := s.finishedRecvingKvReqIds.erase r.requestId
  if cfg.connector = false then none
  else if r.requestId ∈ s.failedRecvingKvReqIds then do
    let kv ← (if r.numComputedTokens ≠ 0 then s.cacheComputed v else s.kv.free r.requestId)
    return { s with
      kv, finishedRecvingKvReqIds
      failedRecvingKvReqIds := s.failedRecvingKvReqIds.erase r.requestId }
  else do
    let kv ← s.cacheComputed v
    -- the last token of a prompt is computed again, to sample from it
    return { s with kv, finishedRecvingKvReqIds }.modify v fun r =>
      if r.numComputedTokens = r.numTokens then { r with numComputedTokens := r.numTokens - 1 }
      else r

/-- `_try_promote_blocked_waiting_request`. -/
def tryPromoteBlockedWaitingRequest (s : Scheduler) (v : Ref) : Option (Bool × Scheduler) :=
  let r := s.req v
  match r.status with
  | .waitingForRemoteKvs =>
    if r.requestId ∈ s.finishedRecvingKvReqIds then do
      let s ← s.updateWaitingForRemoteKv cfg v
      let status := if r.numPreemptions = 0 then RequestStatus.waiting else .preempted
      return (true, s.modify v fun r => { r with status })
    else some (false, s)
  | .waitingForStructuredOutputGrammar =>
    if r.useStructuredOutput && a.grammarReady r.requestId then
      some (true, s.modify v fun r => { r with status := .waiting })
    else some (false, s)
  | .waitingForStreamingReq =>
    if r.streamingQueue.getD [] = [] then some (false, s) else none
  | _ => none

/-! ## Streaming sessions -/

/-- `_update_request_as_session`. -/
def updateRequestAsSession (s : Scheduler) (v : Ref) (update : StreamingUpdate) :
    Option Scheduler := do
  let r ← (s.req v).updateAsSession hasher update
  let waiting : ℤ := if (s.req v).status = .waitingForStreamingReq then 1 else 0
  let s := { s with
    numWaitingForStreamingInput := s.numWaitingForStreamingInput - waiting }
  return s.modify v fun _ => r

/-- `_handle_stopped_request`: whether the request is finished. -/
def handleStoppedRequest (s : Scheduler) (v : Ref) : Option (Bool × Scheduler) :=
  if (s.req v).resumable then
    match (s.req v).streamingQueue with
    | some (none :: queue) => some (true, s.modify v (Request.withStreamingQueue (some queue)))
    | some (some update :: queue) => do
      let s ← (s.modify v (Request.withStreamingQueue (some queue))).updateRequestAsSession
        hasher v update
      return (false, s.enqueueWaitingRequest cfg v)
    | _ =>
      let s := { s with numWaitingForStreamingInput := s.numWaitingForStreamingInput + 1 }
      some (false, (s.modify v Request.idle).enqueueWaitingRequest cfg v)
  else some (true, s)

end Scheduler

end Nvllm.Sched
