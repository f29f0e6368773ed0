import Nvllm.Sched.Scheduler

/-! # One scheduling pass

`Scheduler.schedule`: the running requests get tokens first, in their order; if no block is free,
requests are preempted. If none was, waiting requests are admitted. `Pass` holds the local variables
of the method together with the state of the scheduler. The body of each loop is a function of its
own, which also says whether the loop goes on, and each loop runs on fuel that is enough for it.
The number of common prefix blocks, which is only a hint for the workers, is left out.
-/

namespace Nvllm.Sched

open Nvllm.KVCache

variable (cfg : SchedulerConfig) (a : Answers)

/-! ## Assignments to a request -/

namespace Request

def withoutDrafts (r : Request) : Request := { r with specTokenIds := [] }

/-- A waiting request gets its next status and the number of its computed tokens. -/
def placed (status : RequestStatus) (numComputedTokens : ℤ) (r : Request) : Request :=
  { r with status, numComputedTokens }

/-- `n` tokens are scheduled. -/
def advance (n : ℤ) (r : Request) : Request :=
  { r with
    numComputedTokens := r.numComputedTokens + n
    isPrefillChunk := decide (r.numComputedTokens + n < r.numTokens + r.numOutputPlaceholders) }

/-- Async scheduling expects one token and the drafts, and has drafts for the next step, before
they are known. -/
def expect (numDrafts numSpecTokens : ℕ) (r : Request) : Request :=
  if r.isPrefillChunk then r
  else { r with
    numOutputPlaceholders := r.numOutputPlaceholders + 1 + numDrafts
    specTokenIds := List.replicate numSpecTokens (-1) }

end Request

/-! ## Encoder inputs -/

/-- The variables of `_try_schedule_encoder_inputs` with the encoder cache. -/
structure EncoderTry where
  enc : EncoderCacheManager
  numNewTokens : ℤ
  encoderComputeBudget : ℤ
  encoderInputsToSchedule : List ℕ := []
  externalLoadEncoderInput : List ℕ := []
  mmHashesToSchedule : List MmHash := []
  numEmbedsToSchedule : ℤ := 0

namespace EncoderTry

/-- The last part of the loop body, for an item that is needed and for which there is room. -/
def schedule (c : ℤ) (i : ℕ) (f : MultiModalFeature) (t : EncoderTry) :
    Option (Bool × EncoderTry) := do
  let startPos : ℤ := f.start
  let (currEmbedsStart, currEmbedsEnd) ← f.mmPosition.getEmbedsIndicesInRange
    (max 0 (c - startPos)) (min f.mmPosition.length (c + t.numNewTokens - startPos))
  let t' := { t with
    mmHashesToSchedule := t.mmHashesToSchedule ++ [f.identifier]
    numEmbedsToSchedule := t.numEmbedsToSchedule + f.mmPosition.getNumEmbeds }
  if currEmbedsEnd - currEmbedsStart = 0 then return (true, t)
  else if a.hasCacheItem f.identifier then
    return (true, { t' with externalLoadEncoderInput := t.externalLoadEncoderInput ++ [i] })
  else
    return (true, { t' with
      encoderComputeBudget := t.encoderComputeBudget - f.mmPosition.getNumEmbeds
      encoderInputsToSchedule := t.encoderInputsToSchedule ++ [i] })

/-- The middle part, for an item that is needed and not cached. -/
def reserve (r : Request) (c shift : ℤ) (i : ℕ) (f : MultiModalFeature) (t : EncoderTry) :
    Option (Bool × EncoderTry) := do
  let startPos : ℤ := f.start
  if cfg.disableChunkedMmInput = true ∧ c < startPos ∧
      c + t.numNewTokens < startPos + f.mmPosition.length then
    return (false, { t with numNewTokens := max 0 (startPos - (c + shift)) })
  else do
    let (fits, enc) ← t.enc.canAllocate r i t.encoderComputeBudget t.numEmbedsToSchedule
    let t := { t with enc }
    if fits then t.schedule a c i f
    else
      return (false, { t with
        numNewTokens := if c + shift < startPos then startPos - (c + shift) else 0 })

/-- The body of the loop over the items: whether the loop goes on. `c` tokens are computed. -/
def item (r : Request) (c shift : ℤ) (i : ℕ) (f : MultiModalFeature) (t : EncoderTry) :
    Option (Bool × EncoderTry) :=
  let startPos : ℤ := f.start
  if c + t.numNewTokens + shift ≤ startPos then some (false, t)
  else if cfg.isEncoderDecoder = true ∧ 0 < c then
    -- encoder inputs of encoder-decoder models come first
    if startPos = 0 then some (true, t) else none
  else if startPos + f.mmPosition.length ≤ c then some (true, t)
  else if cfg.isEncoderDecoder then t.reserve cfg a r c shift i f
  else if f.identifier ∈ t.mmHashesToSchedule then some (true, t)
  else do
    let (cached, enc) ← t.enc.checkAndUpdateCache r i
    let t := { t with enc }
    if cached then return (true, t) else t.reserve cfg a r c shift i f

def loop (r : Request) (c shift : ℤ) : ℕ → List MultiModalFeature → EncoderTry → Option EncoderTry
  | _, [], t => some t
  | i, f :: fs, t => do
    let (goOn, t) ← t.item cfg a r c shift i f
    if goOn then loop r c shift (i + 1) fs t else return t

end EncoderTry

def tryScheduleEncoderInputs (enc : EncoderCacheManager) (r : Request) (c n budget : ℤ) :
    Option EncoderTry :=
  let t : EncoderTry := { enc, numNewTokens := n, encoderComputeBudget := budget }
  if n = 0 ∨ r.hasEncoderInputs = false then some t
  else t.loop cfg a r c (if cfg.useEagle then 1 else 0) 0 r.mmFeatures

/-- `_mamba_block_aligned_split`, if it is needed. -/
def mambaBlockAlignedSplit (r : Request) (n : ℤ) (numNewLocal numExternal : ℕ) : Option ℤ :=
  if cfg.needMambaBlockAlignedSplit = false then some n
  else if numExternal ≠ 0 then none
  else
    let c : ℤ := r.numComputedTokens + numNewLocal + numExternal
    if c < max (r.numPromptTokens : ℤ) (r.numTokens - 1) then
      let aligned := r.numTokens - r.numTokens % cfg.cacheBlockSize
      let lastCachePosition : ℤ :=
        if cfg.useEagle then max ((aligned : ℤ) - cfg.cacheBlockSize) 0 else aligned
      if c + n < lastCachePosition then some (n / cfg.cacheBlockSize * cfg.cacheBlockSize)
      else if c < lastCachePosition ∧ lastCachePosition < c + n then some (lastCachePosition - c)
      else some n
    else some n

/-! ## The local variables -/

structure Pass where
  s : Scheduler
  scheduledNewReqs : List Ref := []
  scheduledResumedReqs : List Ref := []
  scheduledRunningReqs : List Ref := []
  preemptedReqs : List Ref := []
  reqToNewBlocks : Dict RequestId (List (List BlockId)) := ∅
  numScheduledTokens : Dict RequestId ℤ := ∅
  tokenBudget : ℤ
  scheduledEncoderInputs : Dict RequestId (List ℕ) := ∅
  encoderComputeBudget : ℤ
  scheduledSpecDecodeTokens : Dict RequestId (List ℤ) := ∅
  reqIndex : ℕ := 0
  scheduledLoras : List ℕ := []
  stepSkippedWaiting : List Ref := []

namespace Pass

def start (s : Scheduler) : Pass where
  s := { s with kv := s.kv.newStepStarts }
  tokenBudget := if s.pauseState = .pausedAll then 0 else cfg.maxNumScheduledTokens
  encoderComputeBudget := cfg.maxNumEncoderInputTokens

/-! ## Running requests -/

/-- The request needs no further step, even if all its drafts are rejected. -/
def capped (r : Request) : Bool :=
  decide (0 < r.numOutputPlaceholders) &&
    decide ((r.numPromptTokens : ℤ) + r.maxTokens ≤
      r.numComputedTokens + 2 - r.numOutputPlaceholders)

/-- Long prefills are cut. -/
def cutLong (n : ℤ) : ℤ :=
  if 0 < (cfg.longPrefillTokenThreshold : ℤ) ∧ cfg.longPrefillTokenThreshold < n then
    cfg.longPrefillTokenThreshold
  else n

/-- The number of new tokens of a running request before encoder inputs are considered. -/
def runningTokens (p : Pass) (r : Request) : ℤ :=
  min (min (cutLong cfg (r.numTokensWithSpec + r.numOutputPlaceholders - r.numComputedTokens))
    p.tokenBudget) (cfg.maxModelLen - 1 - r.numComputedTokens)

def tryRunning (p : Pass) (v : Ref) : Option EncoderTry := do
  let r := p.s.req v
  let t ← tryScheduleEncoderInputs cfg a p.s.enc r r.numComputedTokens (p.runningTokens cfg r)
    p.encoderComputeBudget
  let n ← mambaBlockAlignedSplit cfg r t.numNewTokens 0 0
  return { t with numNewTokens := n }

/-- The first of the requests with the largest priority and arrival time. -/
def latest (s : Scheduler) : List Ref → Option Ref
  | [] => none
  | v :: vs =>
    match latest s vs with
    | none => some v
    | some w =>
      let r := s.req v
      let r' := s.req w
      if r.priority < r'.priority ∨ r.priority = r'.priority ∧ r.arrivalTime < r'.arrivalTime then
        some w
      else some v

/-- The request that is preempted, and the others. -/
def victim (s : Scheduler) : Option (Ref × List Ref) :=
  match cfg.policy with
  | .priority => (latest s s.running).map fun v => (v, s.running.erase v)
  | .fcfs => s.running.getLast?.map fun v => (v, s.running.dropLast)

/-- A preempted request that was already scheduled in this pass gives its tokens back. -/
def unschedule (p : Pass) (v : Ref) : Option Pass :=
  if cfg.policy = .priority ∧ v ∈ p.scheduledRunningReqs then do
    let r := p.s.req v
    let n ← p.numScheduledTokens.get? r.requestId
    let _ ← p.reqToNewBlocks.get? r.requestId
    let embeds ← ((p.scheduledEncoderInputs.getD r.requestId []).mapM r.getNumEncoderEmbeds)
    return { p with
      scheduledRunningReqs := p.scheduledRunningReqs.erase v
      tokenBudget := p.tokenBudget + n
      numScheduledTokens := p.numScheduledTokens.erase r.requestId
      reqToNewBlocks := p.reqToNewBlocks.erase r.requestId
      scheduledSpecDecodeTokens := p.scheduledSpecDecodeTokens.erase r.requestId
      scheduledEncoderInputs := p.scheduledEncoderInputs.erase r.requestId
      encoderComputeBudget := p.encoderComputeBudget + embeds.sum
      reqIndex := p.reqIndex - 1 }
  else some p

/-- Preempts one request. -/
def preempt (p : Pass) : Option (Ref × Pass) := do
  let (v, running) ← victim cfg p.s
  let p ← { p with s := { p.s with running } }.unschedule cfg v
  let s ← p.s.preemptRequest cfg v
  return (v, { p with s, preemptedReqs := p.preemptedReqs ++ [v] })

/-- The inner loop: tries to get blocks for `n` tokens and preempts until that works or the request
itself is preempted. Every round takes a request from the running ones, so as many rounds as there
are of these are enough. -/
def allocateOrPreempt (v : Ref) (n : ℤ) :
    ℕ → Pass → Option (Option (List (List BlockId)) × Pass)
  | 0, p => some (none, p)
  | fuel + 1, p => do
    let r ← (p.s.req v).toKV
    let (newBlocks, kv) ← p.s.kv.allocateSlots r 0 p.s.kv.emptyHits
      { numNewTokens := n, numLookaheadTokens := cfg.numLookaheadTokens }
    let p := { p with s := { p.s with kv } }
    match newBlocks with
    | some bs => return (some bs, p)
    | none => do
      let (w, p) ← p.preempt cfg
      if w = v then return (none, p) else p.allocateOrPreempt v n fuel

/-- The drafts of a request that are among its `n` new tokens. -/
def draftsAmong (r : Request) (n : ℤ) : List ℤ :=
  r.specTokenIds.take
    (n + r.numComputedTokens - r.numTokens - r.numOutputPlaceholders).toNat

/-- A running request is scheduled. -/
def scheduleRunning (p : Pass) (v : Ref) (t : EncoderTry) (newBlocks : List (List BlockId)) :
    Option Pass := do
  let r := p.s.req v
  let drafts := draftsAmong r t.numNewTokens
  let s := p.s.modify v Request.withoutDrafts
  let enc ← EncoderCacheManager.allocateAll r
    (t.encoderInputsToSchedule ++ t.externalLoadEncoderInput) s.enc
  return { p with
    s := { s with enc }
    scheduledRunningReqs := p.scheduledRunningReqs ++ [v]
    reqToNewBlocks := p.reqToNewBlocks.set r.requestId newBlocks
    numScheduledTokens := p.numScheduledTokens.set r.requestId t.numNewTokens
    tokenBudget := p.tokenBudget - t.numNewTokens
    reqIndex := p.reqIndex + 1
    scheduledSpecDecodeTokens :=
      if drafts = [] then p.scheduledSpecDecodeTokens
      else p.scheduledSpecDecodeTokens.set r.requestId drafts
    scheduledEncoderInputs :=
      if t.encoderInputsToSchedule = [] then p.scheduledEncoderInputs
      else p.scheduledEncoderInputs.set r.requestId t.encoderInputsToSchedule
    encoderComputeBudget :=
      if t.encoderInputsToSchedule = [] then p.encoderComputeBudget else t.encoderComputeBudget }

/-- The body of the loop over the running requests. -/
def runningTurn (p : Pass) (v : Ref) : Option (Bool × Pass) :=
  if capped (p.s.req v) then some (true, { p with reqIndex := p.reqIndex + 1 })
  else do
    let t ← p.tryRunning cfg a v
    let p := { p with s := { p.s with enc := t.enc } }
    if t.numNewTokens = 0 then return (true, { p with reqIndex := p.reqIndex + 1 })
    else do
      let (newBlocks, p) ← p.allocateOrPreempt cfg v t.numNewTokens p.s.running.length
      match newBlocks with
      | none => return (false, p)
      | some bs => do
        let p ← p.scheduleRunning v t bs
        return (true, p)

/-- Every turn brings the index closer to the end of the list, so as many turns as there are
running requests are enough. -/
def runningLoop : ℕ → Pass → Option Pass
  | 0, p => some p
  | fuel + 1, p =>
    match p.s.running[p.reqIndex]? with
    | none => some p
    | some v =>
      if p.tokenBudget ≤ 0 then some p
      else do
        let (goOn, p) ← p.runningTurn cfg a v
        if goOn then p.runningLoop fuel else return p

/-- The adapters of the running requests that were scheduled. -/
def runningLoras (p : Pass) : List ℕ :=
  (p.scheduledRunningReqs.filterMap fun v =>
    (p.s.req v).loraRequest.bind fun l => if 0 < l.loraIntId then some l.loraIntId else none).dedup

/-- Records the adapters; more than the limit is an assertion error. -/
def recordLoras (p : Pass) : Option Pass :=
  match cfg.maxLoras with
  | none => some p
  | some maxLoras =>
    if p.runningLoras.length ≤ maxLoras then some { p with scheduledLoras := p.runningLoras }
    else none

/-! ## Waiting requests -/

/-- What is already computed of a waiting request. -/
structure Computed where
  newComputedBlocks : List (List BlockId)
  numNewLocalComputedTokens : ℕ := 0
  numExternalComputedTokens : ℕ := 0
  loadKvAsync : Bool := false
  numComputedTokens : ℤ

/-- Looks the computed tokens up; nothing if the connector does not know yet. -/
def lookUpComputed (p : Pass) (r : Request) : Option (Option Computed) :=
  if r.numComputedTokens = 0 then do
    let (hits, numLocal) ← p.s.kv.getComputedBlocks (← r.toKV)
    let (ext, loadKvAsync) :=
      if cfg.connector then a.matchedTokens r.requestId numLocal else (some 0, false)
    match ext with
    | none => return none
    | some ext =>
      if numLocal + ext ≤ r.numTokens then
        return some {
          newComputedBlocks := hits
          numNewLocalComputedTokens := numLocal
          numExternalComputedTokens := ext
          loadKvAsync
          numComputedTokens := numLocal + ext }
      else none
  else
    -- the tokens were received from a connector
    some (some {
      newComputedBlocks := p.s.kv.emptyHits
      numComputedTokens := r.numComputedTokens })

/-- The number of new tokens with the encoder inputs for them; whether the pass goes on. -/
def tryWaiting (p : Pass) (r : Request) (c : Computed) : Option (Bool × EncoderTry) := do
  let t0 : EncoderTry :=
    { enc := p.s.enc, numNewTokens := 0, encoderComputeBudget := p.encoderComputeBudget }
  if c.loadKvAsync then
    if 0 < c.numExternalComputedTokens then do
      let n ← mambaBlockAlignedSplit cfg r 0 c.numNewLocalComputedTokens
        c.numExternalComputedTokens
      return (!cfg.needMambaBlockAlignedSplit, { t0 with numNewTokens := n })
    else none
  else
    let n := cutLong cfg (r.numTokens - c.numComputedTokens)
    if cfg.enableChunkedPrefill = false ∧ p.tokenBudget < n then return (false, t0)
    else if min n p.tokenBudget ≤ 0 then none
    else do
      let t ← tryScheduleEncoderInputs cfg a p.s.enc r c.numComputedTokens (min n p.tokenBudget)
        p.encoderComputeBudget
      if r.hasEncoderInputs = true ∧ t.numNewTokens = 0 then return (false, t)
      else do
        let n ← mambaBlockAlignedSplit cfg r t.numNewTokens c.numNewLocalComputedTokens
          c.numExternalComputedTokens
        return (!(cfg.needMambaBlockAlignedSplit && decide (n = 0)), { t with numNewTokens := n })

/-- `num_encoder_tokens`: the tokens for which cross attention needs blocks. -/
def numEncoderTokens (r : Request) (t : EncoderTry) : Option ℕ :=
  if cfg.isEncoderDecoder then
    (t.encoderInputsToSchedule.mapM r.getNumEncoderEmbeds).map List.sum
  else some 0

/-- Gets blocks for a waiting request, if there are enough. -/
def allocateWaiting (p : Pass) (v : Ref) (c : Computed) (t : EncoderTry) :
    Option (Bool × Pass) := do
  let r := p.s.req v
  let kvr ← r.toKV
  let encoderTokens ← numEncoderTokens cfg r t
  let fits ←
    (if cfg.schedulerReserveFullIsl then
      p.s.kv.canFitFullSequence kvr c.numNewLocalComputedTokens c.newComputedBlocks
        c.numExternalComputedTokens encoderTokens
    else some true)
  if fits then do
    let (newBlocks, kv) ← p.s.kv.allocateSlots kvr c.numNewLocalComputedTokens c.newComputedBlocks
      { numNewTokens := t.numNewTokens
        numLookaheadTokens := if r.numComputedTokens = 0 then 0 else cfg.numLookaheadTokens
        numExternalComputedTokens := c.numExternalComputedTokens
        delayCacheBlocks := c.loadKvAsync
        numEncoderTokens := encoderTokens }
    return (newBlocks.isSome, { p with s := { p.s with kv } })
  else return (false, p)

/-- The request at the head of a queue goes to the queue of those skipped in this pass. -/
def skipWaiting (p : Pass) (q : Scheduler.QueueName) (v : Ref) : Option Pass := do
  let (_, rest) ← RequestQueue.popRequest cfg.policy p.s.lt (p.s.queue q)
  return { p with
    s := p.s.setQueue q rest
    stepSkippedWaiting :=
      RequestQueue.prependRequest cfg.policy p.s.lt v p.stepSkippedWaiting }

/-- A waiting request whose tokens are being loaded is skipped. -/
def loadAsync (p : Pass) (q : Scheduler.QueueName) (v : Ref) (c : Computed) : Option Pass := do
  let (_, rest) ← RequestQueue.popRequest cfg.policy p.s.lt (p.s.queue q)
  let s := (p.s.setQueue q rest).modify v (Request.placed .waitingForRemoteKvs c.numComputedTokens)
  return { p with
    s
    stepSkippedWaiting := RequestQueue.prependRequest cfg.policy s.lt v p.stepSkippedWaiting }

/-- Whether an admitted request is new or resumed; it must be one of them. -/
def newOrResumed (r : Request) (v : Ref) : Option (List Ref × List Ref) :=
  match r.status with
  | .waiting => some ([v], [])
  | .preempted => some ([], [v])
  | _ => none

/-- A waiting request becomes a running one. -/
def enterRunning (p : Pass) (q : Scheduler.QueueName) (v : Ref) (c : Computed) (t : EncoderTry) :
    Option Pass := do
  let r := p.s.req v
  let (_, rest) ← RequestQueue.popRequest cfg.policy p.s.lt (p.s.queue q)
  let s := (p.s.setQueue q rest).modify v (Request.placed .running c.numComputedTokens)
  let enc ← EncoderCacheManager.allocateAll r
    (t.encoderInputsToSchedule ++ t.externalLoadEncoderInput) s.enc
  let (new, resumed) ← newOrResumed r v
  return { p with
    s := { s with enc, running := s.running ++ [v] }
    scheduledNewReqs := p.scheduledNewReqs ++ new
    scheduledResumedReqs := p.scheduledResumedReqs ++ resumed
    scheduledLoras :=
      match cfg.maxLoras, r.loraRequest with
      | some _, some l => p.scheduledLoras.insert l.loraIntId
      | _, _ => p.scheduledLoras
    reqToNewBlocks := p.reqToNewBlocks.set r.requestId
      (s.kv.managers.map fun m => m.table r.requestId)
    numScheduledTokens := p.numScheduledTokens.set r.requestId t.numNewTokens
    tokenBudget := p.tokenBudget - t.numNewTokens
    scheduledEncoderInputs :=
      if t.encoderInputsToSchedule = [] then p.scheduledEncoderInputs
      else p.scheduledEncoderInputs.set r.requestId t.encoderInputsToSchedule
    encoderComputeBudget :=
      if t.encoderInputsToSchedule = [] then p.encoderComputeBudget else t.encoderComputeBudget }

/-- All adapters are taken, and the request has another one. -/
def loraBlocked (p : Pass) (r : Request) : Bool :=
  match cfg.maxLoras, r.loraRequest with
  | some maxLoras, some l =>
    decide (p.scheduledLoras.length = maxLoras) && decide (l.loraIntId ∉ p.scheduledLoras)
  | _, _ => false

/-- The request at the head of a queue, which is not blocked. -/
def waitingReady (p : Pass) (q : Scheduler.QueueName) (v : Ref) : Option (Bool × Pass) := do
  let r := p.s.req v
  if p.loraBlocked cfg r then do
    let p ← p.skipWaiting cfg q v
    return (true, p)
  else
    match ← p.lookUpComputed cfg a r with
    | none => do
      let p ← p.skipWaiting cfg q v
      return (true, p)
    | some c => do
      let (goOn, t) ← p.tryWaiting cfg a r c
      let p := { p with s := { p.s with enc := t.enc } }
      if goOn then do
        let (granted, p) ← p.allocateWaiting cfg v c t
        if granted then do
          let p ← (if c.loadKvAsync then p.loadAsync cfg q v c else p.enterRunning cfg q v c t)
          return (true, p)
        else do
          -- the request no longer uses cached encoder outputs
          let enc ← (if r.hasEncoderInputs then p.s.enc.free r else some p.s.enc)
          return (false, { p with s := { p.s with enc } })
      else return (false, p)

/-- The body of the loop over the waiting requests. -/
def waitingTurn (p : Pass) : Option (Bool × Pass) := do
  let q ← p.s.selectWaitingQueueForScheduling cfg
  let v ← RequestQueue.peekRequest (p.s.queue q)
  if (p.s.req v).status.isBlocked then do
    let (promoted, s) ← p.s.tryPromoteBlockedWaitingRequest cfg a v
    let p := { p with s }
    if promoted then p.waitingReady cfg a q v
    else do
      let p ← p.skipWaiting cfg q v
      return (true, p)
  else p.waitingReady cfg a q v

/-- The condition of the loop over the waiting requests. -/
def admitting (p : Pass) : Prop :=
  (p.s.waiting ≠ [] ∨ p.s.skippedWaiting ≠ []) ∧ 0 < p.tokenBudget ∧
    p.s.running.length ≠ cfg.maxNumRunningReqs

instance (p : Pass) : Decidable (p.admitting cfg) := inferInstanceAs (Decidable (_ ∧ _))

/-- Every turn takes a request from the waiting queues, so as many turns as there are waiting
requests are enough. -/
def waitingLoop : ℕ → Pass → Option Pass
  | 0, p => some p
  | fuel + 1, p =>
    if p.admitting cfg then do
      let (goOn, p) ← p.waitingTurn cfg a
      if goOn then p.waitingLoop fuel else return p
    else some p

/-- The skipped requests come before those that were skipped earlier. -/
def requeueSkipped (p : Pass) : Pass :=
  { p with
    s := { p.s with
      skippedWaiting := RequestQueue.prependRequests cfg.policy p.s.lt p.stepSkippedWaiting
        p.s.skippedWaiting }
    stepSkippedWaiting := [] }

/-- The second part of the pass; it is left out after a preemption. -/
def waitingPart (p : Pass) : Option Pass :=
  if p.preemptedReqs = [] ∧ p.s.pauseState = .unpaused then do
    let p ← p.waitingLoop cfg a (p.s.waiting.length + p.s.skippedWaiting.length)
    return p.requeueSkipped cfg
  else some p

end Pass

/-! ## The output -/

structure NewRequestData where
  reqId : RequestId
  promptTokenIds : List ℤ
  mmFeatures : List MultiModalFeature
  blockIds : List (List BlockId)
  numComputedTokens : ℤ
  loraRequest : Option LoRARequest
  prefillTokenIds : Option (List ℤ)
  deriving DecidableEq

/-- An entry of the parallel lists of `CachedRequestData`. -/
structure CachedRequest where
  reqId : RequestId
  resumed : Bool
  /-- sent with pipeline parallelism only -/
  newTokenIds : List ℤ
  /-- sent if the request was not scheduled in the step before -/
  allTokenIds : Option (List ℤ)
  newBlockIds : Option (List (List BlockId))
  numComputedTokens : ℤ
  numOutputTokens : ℤ
  deriving DecidableEq

structure SchedulerOutput where
  scheduledNewReqs : List NewRequestData
  scheduledCachedReqs : List CachedRequest
  numScheduledTokens : Dict RequestId ℤ
  totalNumScheduledTokens : ℤ
  scheduledSpecDecodeTokens : Dict RequestId (List ℤ)
  scheduledEncoderInputs : Dict RequestId (List ℕ)
  preemptedReqIds : List RequestId
  finishedReqIds : List RequestId
  freeEncoderMmHashes : List MmHash

namespace Pass

def newRequestData (p : Pass) (v : Ref) : Option NewRequestData := do
  let r := p.s.req v
  let blockIds ← p.reqToNewBlocks.get? r.requestId
  return {
    reqId := r.requestId
    promptTokenIds := r.promptTokenIds
    mmFeatures := r.mmFeatures
    blockIds
    numComputedTokens := r.numComputedTokens
    loraRequest := r.loraRequest
    prefillTokenIds := if cfg.useV2ModelRunner then some r.allTokenIds else none }

def cachedRequest (p : Pass) (resumed : Bool) (v : Ref) : Option CachedRequest := do
  let r := p.s.req v
  let n ← p.numScheduledTokens.get? r.requestId
  let blockIds ← p.reqToNewBlocks.get? r.requestId
  let inPrevStep := decide (r.requestId ∈ p.s.prevStepScheduledReqIds)
  let numTokens := n - (p.scheduledSpecDecodeTokens.getD r.requestId []).length
  if resumed && inPrevStep then none
  else return {
    reqId := r.requestId
    resumed
    newTokenIds :=
      if cfg.usePp && !cfg.asyncScheduling then
        (r.allTokenIds.drop r.numComputedTokens.toNat).take numTokens.toNat
      else []
    allTokenIds := if inPrevStep then none else some r.allTokenIds
    newBlockIds := if blockIds.all (· = []) then none else some blockIds
    numComputedTokens := r.numComputedTokens
    numOutputTokens := r.numOutputTokens + r.numOutputPlaceholders }

/-- What the pass asserts at its end. -/
def checks (p : Pass) : Prop :=
  p.numScheduledTokens.values.sum ≤ cfg.maxNumScheduledTokens ∧ 0 ≤ p.tokenBudget ∧
    p.s.running.length ≤ cfg.maxNumRunningReqs ∧
    p.scheduledNewReqs.length + p.scheduledResumedReqs.length + p.scheduledRunningReqs.length ≤
      p.s.running.length

instance (p : Pass) : Decidable (p.checks cfg) := inferInstanceAs (Decidable (_ ∧ _))

def output (p : Pass) : Option SchedulerOutput := do
  let (new, resumed) :=
    if cfg.useV2ModelRunner then (p.scheduledNewReqs ++ p.scheduledResumedReqs, [])
    else (p.scheduledNewReqs, p.scheduledResumedReqs)
  let newData ← new.mapM (p.newRequestData cfg)
  let runningData ← p.scheduledRunningReqs.mapM (p.cachedRequest cfg false)
  let resumedData ← resumed.mapM (p.cachedRequest cfg true)
  return {
    scheduledNewReqs := newData
    scheduledCachedReqs := runningData ++ resumedData
    numScheduledTokens := p.numScheduledTokens
    totalNumScheduledTokens := p.numScheduledTokens.values.sum
    scheduledSpecDecodeTokens := p.scheduledSpecDecodeTokens
    scheduledEncoderInputs := p.scheduledEncoderInputs
    preemptedReqIds := p.preemptedReqs.map fun v => (p.s.req v).requestId
    finishedReqIds := p.s.finishedReqIds
    freeEncoderMmHashes := p.s.enc.getFreedMmHashes.1 }

end Pass

namespace Scheduler

/-- `_free_encoder_inputs`: items whose tokens are computed are no longer used. -/
def freeEncoderInputs (s : Scheduler) (v : Ref) : Option Scheduler := do
  let r := s.req v
  let done := (s.enc.getCachedInputIds r).filter fun i =>
    match r.mmFeatures[i]? with
    | some f => (cfg.isEncoderDecoder && decide (0 < r.numComputedTokens)) ||
        decide ((f.stop : ℤ) ≤ r.numComputedTokens)
    | none => true
  let enc ← EncoderCacheManager.freeInputs r done s.enc
  return { s with enc }

/-- The loop of `_update_after_schedule`. -/
def advance : List (RequestId × ℤ) → Scheduler → Option Scheduler
  | [], s => some s
  | (id, n) :: rest, s => do
    let v ← s.requests.get? id
    let s ← (s.modify v (Request.advance n)).freeEncoderInputs cfg v
    advance rest s

/-- The loop of `AsyncScheduler._update_after_schedule`. -/
def addPlaceholders (drafts : Dict RequestId (List ℤ)) :
    List (RequestId × ℤ) → Scheduler → Option Scheduler
  | [], s => some s
  | (id, _) :: rest, s => do
    let v ← s.requests.get? id
    addPlaceholders drafts rest
      (s.modify v (Request.expect (drafts.getD id []).length cfg.numSpecTokens))

def updateAfterSchedule (s : Scheduler) (numScheduledTokens : Dict RequestId ℤ)
    (drafts : Dict RequestId (List ℤ)) : Option Scheduler := do
  let s ← s.advance cfg numScheduledTokens.entries
  let s := { s with finishedReqIds := [] }
  if cfg.asyncScheduling then s.addPlaceholders cfg drafts numScheduledTokens.entries
  else return s

/-- The pass up to the loop over the waiting requests. -/
def runningPart (s : Scheduler) : Option Pass :=
  (Pass.start cfg s).runningLoop cfg a s.running.length

/-- The end of the pass. -/
def finishPass (p : Pass) : Option (SchedulerOutput × Scheduler) :=
  if p.checks cfg then do
    let out ← p.output cfg
    let s := { p.s with
      enc := p.s.enc.getFreedMmHashes.2
      prevStepScheduledReqIds := p.numScheduledTokens.keys }
    let s ← s.updateAfterSchedule cfg p.numScheduledTokens p.scheduledSpecDecodeTokens
    return (out, s)
  else none

def schedule (s : Scheduler) : Option (SchedulerOutput × Scheduler) := do
  let p ← s.runningPart cfg a
  let p ← p.recordLoras cfg
  let p ← p.waitingPart cfg a
  finishPass cfg p

end Scheduler

end Nvllm.Sched
