import Nvllm.Sched.Schedule

/-! # Outputs of the workers and calls of the engine

`Scheduler.update_from_output` applies the output of a step: blocks that could not be loaded,
rejected drafts, sampled tokens, stops, and finished transfers of the KV connector. The other
methods are those that the engine calls between steps: new requests, aborts, drafts, and resets.
What is sent back to the clients is left out.
-/

namespace Nvllm.Sched

open Nvllm.KVCache

/-- What the workers report for a step. -/
structure ModelRunnerOutput where
  sampledTokenIds : RequestId → List ℤ := fun _ => []
  /-- whether there is a pooler output -/
  poolerOutput : RequestId → Bool := fun _ => false
  invalidBlockIds : List BlockId := []
  finishedRecving : List RequestId := []
  finishedSending : List RequestId := []

namespace Scheduler

variable (cfg : SchedulerConfig) (hasher : Request → Option (List Bytes)) (a : Answers)

/-! ## Blocks that could not be loaded -/

/-- The sets of `_update_requests_with_invalid_blocks` with the scheduler. -/
structure InvalidScan where
  s : Scheduler
  affectedReqIds : List RequestId := []
  blocksToEvict : List BlockId := []
  markedInvalidBlockIds : List BlockId := []

/-- The loop over the computed blocks of a request; `marked` says that it is already cut. -/
def scanBlocks (invalid : List BlockId) (evictBlocks : Bool) (v : Ref) (table : List BlockId) :
    List (ℕ × BlockId) → Bool → Bool → InvalidScan → Bool × Bool × InvalidScan
  | [], affected, marked, z => (affected, marked, z)
  | (idx, b) :: rest, affected, marked, z =>
    if b ∉ invalid then scanBlocks invalid evictBlocks v table rest affected marked z
    else if b ∈ z.markedInvalidBlockIds then
      -- an earlier request computes the block again
      scanBlocks invalid evictBlocks v table rest true marked z
    else
      let z := { z with markedInvalidBlockIds := b :: z.markedInvalidBlockIds }
      if marked then scanBlocks invalid evictBlocks v table rest true true z
      else
        scanBlocks invalid evictBlocks v table rest true true { z with
          s := z.s.modify v fun r =>
            { r with numComputedTokens := ((idx * cfg.blockSize : ℕ) : ℤ) }
          blocksToEvict := if evictBlocks then z.blocksToEvict ++ table.drop idx
            else z.blocksToEvict }

/-- The body of the loop over the requests. There must be one KV cache group. -/
def scanRequest (invalid : List BlockId) (numScheduledTokens : Dict RequestId ℤ)
    (evictBlocks : Bool) (v : Ref) (z : InvalidScan) : Option InvalidScan :=
  match z.s.kv.managers with
  | [m] =>
    let r := z.s.req v
    let table := m.table r.requestId
    let numComputed := r.numComputedTokens - numScheduledTokens.getD r.requestId 0
    let numComputedBlocks := ((numComputed + cfg.blockSize - 1) / cfg.blockSize).toNat
    let (affected, marked, z) := scanBlocks cfg invalid evictBlocks v table
      ((List.range numComputedBlocks).zip table) false false z
    if affected then
      some { z with
        s :=
          if marked then z.s else z.s.modify v fun r => { r with numComputedTokens := numComputed }
        affectedReqIds := z.affectedReqIds.insert r.requestId }
    else some z
  | _ => none

def scanRequests (invalid : List BlockId) (numScheduledTokens : Dict RequestId ℤ)
    (evictBlocks : Bool) : List Ref → InvalidScan → Option InvalidScan
  | [], z => some z
  | v :: vs, z => do
    let z ← scanRequest cfg invalid numScheduledTokens evictBlocks v z
    scanRequests invalid numScheduledTokens evictBlocks vs z

/-- `_handle_invalid_blocks`: the requests whose output is ignored. -/
def handleInvalidBlocks (s : Scheduler) (invalid : List BlockId)
    (numScheduledTokens : Dict RequestId ℤ) : Option (List RequestId × Scheduler) := do
  let loading := s.skippedWaiting.filter fun v => (s.req v).status = .waitingForRemoteKvs
  let z1 ← scanRequests cfg invalid numScheduledTokens false loading { s }
  let z2 ← scanRequests cfg invalid numScheduledTokens true z1.s.running { s := z1.s }
  if z1.affectedReqIds = [] ∧ z2.affectedReqIds = [] then return ([], z2.s)
  else if cfg.recomputeKvLoadFailures then
    return (z2.affectedReqIds, { z2.s with
      failedRecvingKvReqIds := z2.s.failedRecvingKvReqIds ∪ z1.affectedReqIds })
  else do
    let kv ←
      (if z2.blocksToEvict = [] then some z2.s.kv else z2.s.kv.evictBlocks z2.blocksToEvict)
    return (z1.affectedReqIds ∪ z2.affectedReqIds, { z2.s with kv })

/-! ## Sampled tokens -/

end Scheduler

namespace Request

variable (cfg : SchedulerConfig) (hasher : Request → Option (List Bytes))

/-- Takes rejected drafts back. -/
def rejectDrafts (drafts generated : List ℤ) (r : Request) : Request :=
  if drafts ≠ [] ∧ generated ≠ [] then
    let numRejected : ℤ := drafts.length - (generated.length - 1)
    { r with
      numComputedTokens :=
        if 0 < r.numComputedTokens then r.numComputedTokens - numRejected else r.numComputedTokens
      numOutputPlaceholders :=
        if 0 < r.numOutputPlaceholders then r.numOutputPlaceholders - numRejected
        else r.numOutputPlaceholders }
  else r

/-- The part of `AsyncScheduler._update_request_with_output` that is about the request. -/
def takeAsync (generated : List ℤ) (r : Request) : Option (Bool × Request) :=
  if r.discardLatestAsyncTokens then some (false, { r with discardLatestAsyncTokens := false })
  else do
    let (appended, stopped, r) ← r.updateWithOutput hasher cfg.maxModelLen generated
    let r := { r with numOutputPlaceholders := r.numOutputPlaceholders - appended.length }
    if r.numOutputPlaceholders < 0 then none else return (stopped, r)

/-- The request after its sampled tokens or its pooler output; whether it stops. -/
def takeOutput (generated : List ℤ) (poolerOutput : Bool) (r : Request) :
    Option (Bool × Request) :=
  if generated ≠ [] then
    if cfg.asyncScheduling then r.takeAsync cfg hasher generated
    else do
      let (_, stopped, r) ← r.updateWithOutput hasher cfg.maxModelLen generated
      return (stopped, r)
  else if r.pooling && poolerOutput then some (true, { r with status := .finishedStopped })
  else some (false, r)

end Request

namespace Scheduler

variable (cfg : SchedulerConfig) (hasher : Request → Option (List Bytes)) (a : Answers)

/-- With async scheduling the blocks of new tokens are cached when the tokens are known, unless the
request was preempted in between. `r` is the request before its output, `r'` after it. -/
def cacheOutput (kv : KVCacheManager) (r r' : Request) (generated : List ℤ) :
    Option KVCacheManager :=
  if cfg.asyncScheduling = true ∧ generated ≠ [] ∧ r.discardLatestAsyncTokens = false ∧
      r.status = .running then do
    let q ← r'.toKV
    kv.cacheBlocks q (r'.numComputedTokens - r'.numOutputPlaceholders).toNat
  else some kv

/-- The output of a request is applied: whether it stops. -/
def applyOutput (s : Scheduler) (v : Ref) (generated : List ℤ) (poolerOutput : Bool) :
    Option (Bool × Scheduler) := do
  let (stopped, r) ← (s.req v).takeOutput cfg hasher generated poolerOutput
  let kv ← cacheOutput cfg s.kv (s.req v) r generated
  return (stopped, { s with kv }.modify v fun _ => r)

/-- A request that stopped is freed, or waits for the next input of its session. -/
def stopRequest (s : Scheduler) (v : Ref) : Option Scheduler := do
  let (finished, s) ← s.handleStoppedRequest cfg hasher v
  if finished then s.freeRequest cfg a v false else return s

/-- The scheduler with the requests that stopped while running and those that stopped otherwise. -/
structure Stops where
  s : Scheduler
  stoppedRunningReqs : List Ref := []
  stoppedPreemptedReqs : List Ref := []

/-- The body of the loop of `update_from_output`. -/
def updateTurn (out : SchedulerOutput) (m : ModelRunnerOutput) (failed : List RequestId)
    (id : RequestId) (n : ℤ) (z : Stops) : Option Stops :=
  if n ≤ 0 then none
  else if id ∈ failed then some z
  else
    match z.s.requests.get? id with
    | none => some z
    | some v =>
      if (z.s.req v).isFinished then some z
      else do
        let generated := m.sampledTokenIds id
        let s := z.s.modify v
          (Request.rejectDrafts (out.scheduledSpecDecodeTokens.getD id []) generated)
        let statusBeforeStop := (s.req v).status
        let (stopped, s) ← s.applyOutput cfg hasher v generated (m.poolerOutput id)
        if stopped then do
          let s ← s.stopRequest cfg hasher a v
          if statusBeforeStop = .running then
            return { z with s, stoppedRunningReqs := z.stoppedRunningReqs.insert v }
          else return { z with s, stoppedPreemptedReqs := z.stoppedPreemptedReqs.insert v }
        else return { z with s }

def updateLoop (out : SchedulerOutput) (m : ModelRunnerOutput) (failed : List RequestId) :
    List (RequestId × ℤ) → Stops → Option Stops
  | [], z => some z
  | (id, n) :: rest, z => do
    let z ← updateTurn cfg hasher a out m failed id n z
    updateLoop out m failed rest z

/-- Stopped requests leave their queues; of the waiting queues only one is looked at. -/
def removeStopped (z : Stops) : Scheduler :=
  let s := { z.s with running := removeAll z.s.running z.stoppedRunningReqs }
  if z.stoppedPreemptedReqs = [] then s
  else { s with
    waiting := RequestQueue.removeRequests cfg.policy s.lt z.stoppedPreemptedReqs s.waiting }

/-! ## Finishing requests -/

/-- The requests of the given ids that are not finished. -/
def validRequests (s : Scheduler) (ids : List RequestId) : List Ref :=
  ids.filterMap fun id =>
    (s.requests.get? id).bind fun v => if (s.req v).isFinished then none else some v

/-- The second pass of `finish_requests`. -/
def finishLoop (finishedStatus : RequestStatus) : List Ref → Scheduler → Option Scheduler
  | [], s => some s
  | v :: vs, s => do
    let r := s.req v
    let loading := decide (r.status = .waitingForRemoteKvs)
    let delay := loading && decide (r.requestId ∉ s.finishedRecvingKvReqIds)
    let s :=
      if loading then { s with
        finishedRecvingKvReqIds := s.finishedRecvingKvReqIds.erase r.requestId
        failedRecvingKvReqIds := s.failedRecvingKvReqIds.erase r.requestId }
      else s
    let s ← (s.modify v fun r => { r with status := finishedStatus }).freeRequest cfg a v delay
    finishLoop finishedStatus vs s

/-- `finish_requests`; all requests if no ids are given. -/
def finishRequests (s : Scheduler) (requestIds : Option (List RequestId))
    (finishedStatus : RequestStatus) : Option Scheduler :=
  if finishedStatus.isFinished then
    let valid := s.validRequests ((requestIds.map List.dedup).getD s.requests.keys)
    let inRunning := valid.filter fun v => (s.req v).status = .running
    let others := valid.filter fun v => (s.req v).status ≠ .running
    let streaming := valid.countP fun v => (s.req v).status = .waitingForStreamingReq
    let s := { s with
      running := removeAll s.running inRunning
      numWaitingForStreamingInput := s.numWaitingForStreamingInput - streaming }
    let s := if others = [] then s else { s with
      waiting := RequestQueue.removeRequests cfg.policy s.lt others s.waiting
      skippedWaiting := RequestQueue.removeRequests cfg.policy s.lt others s.skippedWaiting }
    s.finishLoop cfg a finishedStatus valid
  else none

/-! ## The output of a step -/

def finishedRecvingLoop : List RequestId → Scheduler → Option Scheduler
  | [], s => some s
  | id :: rest, s => do
    let v ← s.requests.get? id
    let s ←
      (if (s.req v).status = .waitingForRemoteKvs then
        some { s with finishedRecvingKvReqIds := s.finishedRecvingKvReqIds.insert id }
      else s.freeBlocks v)
    finishedRecvingLoop rest s

def finishedSendingLoop : List RequestId → Scheduler → Option Scheduler
  | [], s => some s
  | id :: rest, s => do
    let v ← s.requests.get? id
    let s ← s.freeBlocks v
    finishedSendingLoop rest s

/-- `_update_from_kv_xfer_finished`. -/
def updateFromKvXferFinished (s : Scheduler) (m : ModelRunnerOutput) : Option Scheduler := do
  let s ← s.finishedRecvingLoop m.finishedRecving
  s.finishedSendingLoop m.finishedSending

def updateFromOutput (s : Scheduler) (out : SchedulerOutput) (m : ModelRunnerOutput) :
    Option Scheduler := do
  let (failed, s) ←
    (if m.invalidBlockIds = [] then some ([], s)
    else s.handleInvalidBlocks cfg m.invalidBlockIds out.numScheduledTokens)
  let z ← updateLoop cfg hasher a out m failed out.numScheduledTokens.entries { s }
  let s := removeStopped cfg z
  let s ←
    (if failed ≠ [] ∧ cfg.recomputeKvLoadFailures = false then
      s.finishRequests cfg a (some failed) .finishedError
    else some s)
  s.updateFromKvXferFinished m

/-! ## Calls between steps -/

/-- `update_draft_token_ids`, where the drafts already follow the grammar. -/
def updateDraftTokenIds : List (RequestId × List ℤ) → Scheduler → Scheduler
  | [], s => s
  | (id, drafts) :: rest, s =>
    updateDraftTokenIds rest <|
      match s.requests.get? id with
      | none => s
      | some v => s.modify v fun r =>
        if r.isFinished then r
        else { r with specTokenIds := if r.isPrefillChunk then [] else drafts }

/-- `add_request` for a request with a new id. -/
def addNewRequest (s : Scheduler) (r : Request) : Scheduler :=
  let v := s.nextRef
  let r := if r.resumable then { r with streamingQueue := some [] } else r
  let s := { s with req := Function.update s.req v r, nextRef := v + 1 }
  { s.enqueueWaitingRequest cfg v with requests := s.requests.set r.requestId v }

/-- `add_request`: a new request, or the next input of a session. -/
def addRequest (s : Scheduler) (q : Request.EngineCoreRequest) : Option Scheduler := do
  let r ← Request.fromEngineCoreRequest hasher q
  match s.requests.get? r.requestId with
  | none => return s.addNewRequest cfg r
  | some v =>
    if (s.req v).status ≠ .waitingForStreamingReq then do
      let queue ← (s.req v).streamingQueue
      return s.modify v (Request.withStreamingQueue (some (queue ++ [r.toStreamingUpdate])))
    else
      match r.toStreamingUpdate with
      | some update => s.updateRequestAsSession hasher v update
      | none => s.finishRequests cfg a (some [r.requestId]) .finishedAborted

/-- The loop of `reset_prefix_cache` that preempts all running requests, the last one first. -/
def preemptAll : List Ref → Scheduler → Option Scheduler
  | [], s => some s
  | v :: vs, s => do
    let s ← { s with running := vs.reverse }.preemptRequest cfg v
    preemptAll vs (s.modify v fun r =>
      { r with numOutputPlaceholders := 0, discardLatestAsyncTokens := true })

def resetPrefixCache (s : Scheduler) (resetRunningRequests : Bool) : Option Scheduler :=
  if resetRunningRequests then do
    let s ← s.preemptAll cfg s.running.reverse
    let (successful, kv) := s.kv.resetPrefixCache
    if successful then return { s with kv, prevStepScheduledReqIds := [] } else none
  else some { s with kv := s.kv.resetPrefixCache.2 }

def resetEncoderCache (s : Scheduler) : Scheduler := { s with enc := s.enc.reset }

end Scheduler

end Nvllm.Sched
