import Nvllm.Sched.QueueMoves
import Nvllm.Sched.TakeOutput

/-! # What an output can do

One lemma for each function of `update_from_output`, and for the other methods that the engine
calls, that says what it can do to the requests and the queues. The KV cache and the encoder cache
change along the way; `Agrees` leaves them open.

`updateLoop_invariant` is the rule for the loop: the requests of the entries that are still to come
are as they were before the loop, because each entry has an id of its own.
-/

namespace Nvllm.Sched

open Nvllm.KVCache List Option

/-- Inputs of requests with good features are freed. -/
inductive Freed (Good : List MultiModalFeature → Prop) (e : EncoderCacheManager) :
    EncoderCacheManager → Prop
  | refl : Freed Good e e
  | free {e1 e2 : EncoderCacheManager} (r : Request) (is : List ℕ) : Freed Good e e1 →
      Good r.mmFeatures → EncoderCacheManager.freeInputs r is e1 = some e2 → Freed Good e e2

theorem Freed.trans {Good : List MultiModalFeature → Prop} {e e1 e2 : EncoderCacheManager}
    (h : Freed Good e e1) (h' : Freed Good e1 e2) : Freed Good e e2 := by
  induction h' with
  | refl => exact h
  | free r is _ hr hfree ih => exact .free r is ih hr hfree

namespace Scheduler

/-- The queues are the same. -/
structure Stays (s s' : Scheduler) : Prop where
  nextRef : s'.nextRef = s.nextRef
  waiting : s'.waiting = s.waiting
  skippedWaiting : s'.skippedWaiting = s.skippedWaiting
  running : s'.running = s.running
  numWaitingForStreamingInput : s'.numWaitingForStreamingInput = s.numWaitingForStreamingInput

/-- The schedulers have the same requests and queues. -/
structure Agrees (s s' : Scheduler) : Prop extends Stays s s' where
  req : s'.req = s.req
  requests : s'.requests = s.requests

variable {cfg : SchedulerConfig} {hasher : Request → Option (List Bytes)} {a : Answers}
  {s s' s'' : Scheduler} {v : Ref}

theorem Stays.refl (s : Scheduler) : Stays s s := ⟨rfl, rfl, rfl, rfl, rfl⟩

theorem Stays.trans (h : Stays s s') (h' : Stays s' s'') : Stays s s'' where
  nextRef := h'.nextRef.trans h.nextRef
  waiting := h'.waiting.trans h.waiting
  skippedWaiting := h'.skippedWaiting.trans h.skippedWaiting
  running := h'.running.trans h.running
  numWaitingForStreamingInput :=
    h'.numWaitingForStreamingInput.trans h.numWaitingForStreamingInput

theorem Agrees.refl (s : Scheduler) : Agrees s s := ⟨.refl s, rfl, rfl⟩

/-- Of the encoder cache, only inputs of the requests in `F` are freed. -/
def FreesInputs (F : Ref → Prop) (s s' : Scheduler) : Prop :=
  ∀ Good : List MultiModalFeature → Prop, (∀ v, F v → Good (s.req v).mmFeatures) →
    Freed Good s.enc s'.enc

variable {F F' : Ref → Prop}

theorem FreesInputs.of_enc (h : s'.enc = s.enc) : FreesInputs F s s' := fun _ _ => h ▸ .refl

theorem FreesInputs.one {r : Request} (hr : r.mmFeatures = (s.req v).mmFeatures)
    (h : s.enc.free r = some s'.enc) : FreesInputs (· = v) s s' :=
  fun _ hgood => .free r _ .refl (hr ▸ hgood v rfl) h

theorem FreesInputs.mono (h : FreesInputs F s s') (hF : ∀ v, F v → F' v) : FreesInputs F' s s' :=
  fun Good hgood => h Good fun v hv => hgood v (hF v hv)

theorem FreesInputs.trans (h : FreesInputs F s s') (h' : FreesInputs F s' s'')
    (hf : ∀ v, (s'.req v).mmFeatures = (s.req v).mmFeatures) : FreesInputs F s s'' :=
  fun Good hgood => (h Good hgood).trans (h' Good fun v hv => hf v ▸ hgood v hv)

theorem FreesInputs.of_modify {f : Request → Request} (h : FreesInputs F s' s'')
    (hreq : s'.req = (s.modify v f).req) (henc : s'.enc = s.enc)
    (hf : (f (s.req v)).mmFeatures = (s.req v).mmFeatures) : FreesInputs F s s'' := by
  refine FreesInputs.trans (.of_enc henc) h ?_
  rw [hreq]
  exact field_modify Request.mmFeatures hf

/-! ## Freeing -/

theorem connectorFinished_agrees {delay : Bool}
    (h : s.connectorFinished cfg a v = some (delay, s')) : Agrees s s' ∧ s'.enc = s.enc := by
  unfold connectorFinished at h
  split at h
  · obtain ⟨kv, -, h⟩ := bind_eq_some_iff.mp h
    cases h
    exact ⟨{ Agrees.refl s with }, rfl⟩
  · cases h
    exact ⟨.refl _, rfl⟩

theorem freeBlocks_agrees (h : s.freeBlocks v = some s') :
    ((s.req v).isFinished = true ∧ s'.enc = s.enc) ∧
      Agrees { s with requests := s.requests.erase (s.req v).requestId } s' := by
  unfold freeBlocks at h
  split at h
  · rename_i hfin
    obtain ⟨kv, -, h⟩ := bind_eq_some_iff.mp h
    cases h
    exact ⟨⟨hfin.1, rfl⟩, { Agrees.refl s with requests := rfl }⟩
  · cases h

/-- A finished request is forgotten, or kept until the connector is done with it. -/
theorem freeRequest_agrees {delay : Bool} (h : s.freeRequest cfg a v delay = some s') :
    ((s.req v).isFinished = true ∧ FreesInputs (· = v) s s') ∧ ∃ requests,
      (requests = s.requests ∨ requests = s.requests.erase (s.req v).requestId) ∧
      Agrees { s with requests } s' := by
  unfold freeRequest at h
  split at h
  · rename_i hfin
    simp only [bind, bind_eq_some_iff] at h
    obtain ⟨⟨d, s1⟩, hconn, enc, henc, h⟩ := h
    obtain ⟨h1, henc1⟩ := connectorFinished_agrees hconn
    rw [h1.req, henc1] at henc
    split at h
    · cases h
      exact ⟨⟨hfin, .one rfl henc⟩, s.requests, .inl rfl, { h1 with }⟩
    · obtain ⟨⟨-, henc2⟩, h2⟩ := freeBlocks_agrees h
      refine ⟨⟨hfin, .one rfl (henc.trans (congrArg some henc2.symm))⟩, _, .inr rfl,
        { h1.toStays.trans { h2.toStays with } with }, h2.req.trans h1.req, h2.requests.trans ?_⟩
      rw [h1.requests, h1.req]
  · cases h

/-! ## Stopping -/

/-- What becomes of a request that stopped. -/
inductive StopOutcome (cfg : SchedulerConfig) (hasher : Request → Option (List Bytes))
    (s : Scheduler) (v : Ref) (s' : Scheduler) : Prop
  /-- it is finished and freed -/
  | finished (streamingQueue : Option (List (Option StreamingUpdate)))
      (requests : Dict RequestId Ref) :
      (s.req v).isFinished = true →
      requests = s.requests ∨ requests = s.requests.erase (s.req v).requestId →
      Agrees ({ s with requests }.modify v (Request.withStreamingQueue streamingQueue)) s' →
      streamingQueue.getD [] ⊆ (s.req v).streamingQueue.getD [] →
      StopOutcome cfg hasher s v s'
  /-- the next input of the session follows -/
  | continued (update : StreamingUpdate) (queue : List (Option StreamingUpdate)) (r : Request) :
      (s.req v).resumable = true → (s.req v).streamingQueue = some (some update :: queue) →
      ((s.req v).withStreamingQueue (some queue)).updateAsSession hasher update = some r →
      Agrees (({ s with
        numWaitingForStreamingInput := s.numWaitingForStreamingInput -
          if (s.req v).status = RequestStatus.waitingForStreamingReq then 1 else 0 }.modify v
            fun _ => r).enqueueWaitingRequest cfg v) s' →
      StopOutcome cfg hasher s v s'
  /-- the session waits for its next input -/
  | idle :
      (s.req v).resumable = true → (s.req v).streamingQueue.getD [] = [] →
      Agrees (({ s with
        numWaitingForStreamingInput := s.numWaitingForStreamingInput + 1 }.modify v
          Request.idle).enqueueWaitingRequest cfg v) s' →
      StopOutcome cfg hasher s v s'

theorem Agrees.enqueueWaitingRequest (h : Agrees s s') (v : Ref) :
    Agrees (s.enqueueWaitingRequest cfg v) (s'.enqueueWaitingRequest cfg v) := by
  have hlt : s'.lt = s.lt := by
    funext x y
    rw [Scheduler.lt, Scheduler.lt, h.req]
  unfold Scheduler.enqueueWaitingRequest
  rw [h.req, hlt]
  by_cases hb : (s.req v).status.isBlocked = true
  · rw [if_pos hb]
    refine { h with skippedWaiting := ?_ }
    show RequestQueue.addRequest _ _ _ s'.skippedWaiting = _
    rw [h.skippedWaiting]
    rfl
  · rw [if_neg hb]
    refine { h with waiting := ?_ }
    show RequestQueue.addRequest _ _ _ s'.waiting = _
    rw [h.waiting]
    rfl

theorem modify_modify (s : Scheduler) (v : Ref) (f g : Request → Request) :
    (s.modify v f).modify v g = s.modify v fun r => g (f r) := by
  have h : Function.update (s.modify v f).req v (g ((s.modify v f).req v)) =
      Function.update s.req v (g (f (s.req v))) := by
    rw [req_modify_self]
    exact Function.update_idem ..
  exact congrArg (fun req => ({ s with req } : Scheduler)) h

theorem enqueueWaitingRequest_enc (s : Scheduler) (v : Ref) :
    (s.enqueueWaitingRequest cfg v).enc = s.enc := by
  unfold enqueueWaitingRequest
  split <;> rfl

theorem stopRequest_cases (h : s.stopRequest cfg hasher a v = some s') :
    StopOutcome cfg hasher s v s' ∧ FreesInputs (· = v) s s' := by
  obtain ⟨⟨finished, s1⟩, hstop, h⟩ := bind_eq_some_iff.mp h
  unfold handleStoppedRequest at hstop
  split at hstop
  · rename_i hres
    split at hstop
    · rename_i queue hqueue
      cases hstop
      obtain ⟨⟨hfin, hfrees⟩, requests, hreq, hagree⟩ := freeRequest_agrees h
      rw [req_modify_self] at hfin hreq
      refine ⟨.finished (some queue) requests hfin hreq hagree ?_, hfrees.of_modify rfl rfl rfl⟩
      rw [hqueue]
      exact subset_cons_self none queue
    · rename_i update queue hqueue
      obtain ⟨s2, hs2, hstop⟩ := bind_eq_some_iff.mp hstop
      cases hstop
      cases h
      obtain ⟨r, hr, hs2⟩ := bind_eq_some_iff.mp hs2
      cases hs2
      rw [req_modify_self] at hr
      refine ⟨.continued update queue r hres hqueue hr ?_, .of_enc (enqueueWaitingRequest_enc ..)⟩
      apply Agrees.enqueueWaitingRequest
      refine ⟨⟨rfl, rfl, rfl, rfl, ?_⟩, Function.update_idem .., rfl⟩
      rw [req_modify_self]
      rfl
    · rename_i hnone hsome
      cases hstop
      cases h
      refine ⟨.idle hres ?_ (.refl _), .of_enc (enqueueWaitingRequest_enc ..)⟩
      match hq : (s.req v).streamingQueue with
      | none => rfl
      | some [] => rfl
      | some (none :: queue) => exact absurd hq (hnone queue)
      | some (some update :: queue) => exact absurd hq (hsome update queue)
  · cases hstop
    obtain ⟨⟨hfin, hfrees⟩, requests, hreq, hagree⟩ := freeRequest_agrees h
    refine ⟨.finished (s.req v).streamingQueue requests hfin hreq ?_ (.refl _), hfrees⟩
    have hid : Function.update s.req v
        ((s.req v).withStreamingQueue (s.req v).streamingQueue) = s.req :=
      Function.update_eq_self v s.req
    exact { hagree with req := hagree.req.trans hid.symm }

/-! ## The loop -/

theorem applyOutput_cases {generated : List ℤ} {pooler stopped : Bool}
    (h : s.applyOutput cfg hasher v generated pooler = some (stopped, s')) :
    ∃ r, (s.req v).takeOutput cfg hasher generated pooler = some (stopped, r) ∧
      s'.enc = s.enc ∧ Agrees (s.modify v fun _ => r) s' := by
  simp only [applyOutput, bind, bind_eq_some_iff] at h
  obtain ⟨⟨st, r⟩, hr, kv, -, h⟩ := h
  cases h
  exact ⟨r, hr, rfl, { Agrees.refl (s.modify v fun _ => r) with }⟩

/-- The request of an entry takes its output. -/
structure Takes (cfg : SchedulerConfig) (hasher : Request → Option (List Bytes))
    (out : SchedulerOutput) (m : ModelRunnerOutput) (id : RequestId) (s : Scheduler) (v : Ref)
    (stopped : Bool) (r : Request) : Prop where
  request : s.requests.get? id = some v
  live : (s.req v).isFinished = false
  taken : ((s.req v).rejectDrafts (out.scheduledSpecDecodeTokens.getD id [])
    (m.sampledTokenIds id)).takeOutput cfg hasher (m.sampledTokenIds id) (m.poolerOutput id) =
      some (stopped, r)

/-- A turn of the loop: nothing happens, the request goes on, or it stops. -/
inductive Turn (cfg : SchedulerConfig) (hasher : Request → Option (List Bytes))
    (out : SchedulerOutput) (m : ModelRunnerOutput) (failed : List RequestId) (id : RequestId)
    (z : Stops) : Stops → Prop
  | ignored : id ∈ failed ∨ (∀ v, z.s.requests.get? id = some v → (z.s.req v).isFinished = true) →
      Turn cfg hasher out m failed id z z
  | goesOn (v : Ref) (r : Request) (s : Scheduler) : id ∉ failed →
      Takes cfg hasher out m id z.s v false r → Agrees (z.s.modify v fun _ => r) s →
      s.enc = z.s.enc → Turn cfg hasher out m failed id z { z with s }
  | stops (v : Ref) (r : Request) (s1 s : Scheduler) : id ∉ failed →
      Takes cfg hasher out m id z.s v true r → Agrees (z.s.modify v fun _ => r) s1 →
      StopOutcome cfg hasher s1 v s → FreesInputs (· = v) z.s s →
      Turn cfg hasher out m failed id z
        (if (z.s.req v).status = .running then
          { z with s, stoppedRunningReqs := z.stoppedRunningReqs.insert v }
        else { z with s, stoppedPreemptedReqs := z.stoppedPreemptedReqs.insert v })

theorem rejectDrafts_status (drafts generated : List ℤ) (r : Request) :
    (r.rejectDrafts drafts generated).status = r.status := by
  unfold Request.rejectDrafts
  split <;> rfl

variable {m : ModelRunnerOutput} {r r' : Request} {finishedStatus : RequestStatus}
  {ids failed : List RequestId} {out : SchedulerOutput} {id : RequestId} {z z' : Stops}
  {stopped : Bool}

theorem Takes.tokens (h : Takes cfg hasher out m id s v stopped r) :
    ∃ appended, Request.TakesTokens (m.sampledTokenIds id) appended stopped (s.req v) r := by
  obtain ⟨appended, htakes⟩ := Request.takeOutput_takesTokens h.taken
  obtain ⟨hall, hout⟩ := Request.rejectDrafts_tokens
    (out.scheduledSpecDecodeTokens.getD id []) (m.sampledTokenIds id) (s.req v)
  refine ⟨appended, htakes.core.trans (Request.rejectDrafts_core _ _ _), ?_, ?_, htakes.initial,
    fun hst => (htakes.goesOn hst).trans (rejectDrafts_status _ _ _), htakes.stops⟩
  · rw [htakes.allTokenIds, hall]
  · rw [htakes.outputTokenIds, hout]

/-- A field that sampled tokens do not change. -/
theorem Takes.field {α : Type} (h : Takes cfg hasher out m id s v stopped r) (f : Request → α)
    (hf : ∀ r : Request, f r.core = f r) : f r = f (s.req v) := by
  obtain ⟨appended, htakes⟩ := h.tokens
  exact Request.field_of_core f hf htakes.core

theorem Takes.requestId (h : Takes cfg hasher out m id s v stopped r) :
    r.requestId = (s.req v).requestId := h.field Request.requestId fun _ => rfl

theorem Takes.status (h : Takes cfg hasher out m id s v false r)
    (hagree : Agrees (s.modify v fun _ => r) s') (w : Ref) :
    (s'.req w).status = (s.req w).status := by
  obtain ⟨appended, htakes⟩ := h.tokens
  rw [hagree.req]
  exact field_modify Request.status (htakes.goesOn rfl) w

theorem updateTurn_cases {n : ℤ} (h : updateTurn cfg hasher a out m failed id n z = some z') :
    Turn cfg hasher out m failed id z z' := by
  unfold updateTurn at h
  split at h
  · cases h
  · split at h
    · cases h
      exact .ignored (.inl ‹_›)
    · rename_i hfailed
      split at h
      · rename_i hnone
        cases h
        exact .ignored (.inr fun v hv => by rw [hnone] at hv; cases hv)
      · rename_i v hv
        split at h
        · rename_i hfin
          cases h
          refine .ignored (.inr fun w hw => ?_)
          rw [hv] at hw
          cases hw
          exact hfin
        · rename_i hlive
          obtain ⟨⟨stopped, s1⟩, happly, h⟩ := bind_eq_some_iff.mp h
          obtain ⟨r, htake, henc, hagree⟩ := applyOutput_cases happly
          rw [req_modify_self] at htake
          rw [modify_modify] at hagree
          rw [req_modify_self, rejectDrafts_status] at h
          have htakes : Takes cfg hasher out m id z.s v stopped r :=
            ⟨hv, by simpa using hlive, htake⟩
          cases stopped with
          | false =>
            cases h
            exact .goesOn v r s1 hfailed htakes hagree henc
          | true =>
            obtain ⟨s2, hstop, h⟩ := bind_eq_some_iff.mp h
            obtain ⟨houtcome, hfrees⟩ := stopRequest_cases hstop
            have hturn := Turn.stops v r s1 s2 hfailed htakes hagree houtcome
              (hfrees.of_modify hagree.req henc (htakes.field Request.mmFeatures fun _ => rfl))
            split at h
            · rename_i hrun
              cases h
              rw [if_pos hrun] at hturn
              exact hturn
            · rename_i hrun
              cases h
              rw [if_neg hrun] at hturn
              exact hturn

/-! ## Who is touched -/

/-- At most the request `v` has changed, and its place in the waiting queues. -/
structure OnlyTouches (v : Ref) (s s' : Scheduler) : Prop where
  req : ∀ w, w ≠ v → s'.req w = s.req w
  requestId : (s'.req v).requestId = (s.req v).requestId
  requests : s'.requests = s.requests ∨ s'.requests = s.requests.erase (s.req v).requestId
  nextRef : s'.nextRef = s.nextRef
  running : s'.running = s.running
  waiting : ∀ w, w ≠ v → (w ∈ s'.waiting ↔ w ∈ s.waiting)
  skippedWaiting : ∀ w, w ≠ v → (w ∈ s'.skippedWaiting ↔ w ∈ s.skippedWaiting)

theorem OnlyTouches.of_agrees {requests : Dict RequestId Ref} {f : Request → Request}
    (hagree : Agrees ({ s with requests }.modify v f) s')
    (hreq : requests = s.requests ∨ requests = s.requests.erase (s.req v).requestId)
    (hid : (f (s.req v)).requestId = (s.req v).requestId) : OnlyTouches v s s' where
  req w hw := by rw [hagree.req, req_modify_of_ne _ _ hw]
  requestId := by rw [hagree.req, req_modify_self, hid]
  requests := hagree.requests ▸ hreq
  nextRef := hagree.nextRef
  running := hagree.running
  waiting w _ := by rw [hagree.waiting]; rfl
  skippedWaiting w _ := by rw [hagree.skippedWaiting]; rfl

/-- A request is entered in one of the waiting queues. -/
structure Enqueues (cfg : SchedulerConfig) (v : Ref) (s s' : Scheduler) : Prop where
  req : s'.req = s.req
  requests : s'.requests = s.requests
  nextRef : s'.nextRef = s.nextRef
  running : s'.running = s.running
  numWaitingForStreamingInput : s'.numWaitingForStreamingInput = s.numWaitingForStreamingInput
  queues : ((s.req v).status.isBlocked = true ∧ s'.waiting = s.waiting ∧
      s'.skippedWaiting = RequestQueue.addRequest cfg.policy s.lt v s.skippedWaiting) ∨
    ((s.req v).status.isBlocked = false ∧ s'.skippedWaiting = s.skippedWaiting ∧
      s'.waiting = RequestQueue.addRequest cfg.policy s.lt v s.waiting)

theorem enqueues_of_agrees (h : Agrees (s.enqueueWaitingRequest cfg v) s') :
    Enqueues cfg v s s' := by
  unfold enqueueWaitingRequest at h
  by_cases hb : (s.req v).status.isBlocked = true
  · rw [if_pos hb] at h
    exact { h with queues := .inl ⟨hb, h.waiting, h.skippedWaiting⟩ }
  · rw [if_neg hb] at h
    exact { h with queues := .inr ⟨by simpa using hb, h.skippedWaiting, h.waiting⟩ }

/-- What the queues contain then. -/
theorem Enqueues.perm (h : Enqueues cfg v s s') :
    ((s.req v).status.isBlocked = true ∧ s'.waiting = s.waiting ∧
      s'.skippedWaiting.Perm (v :: s.skippedWaiting)) ∨
    ((s.req v).status.isBlocked = false ∧ s'.skippedWaiting = s.skippedWaiting ∧
      s'.waiting.Perm (v :: s.waiting)) := by
  rcases h.queues with ⟨hb, hwait, hskip⟩ | ⟨hb, hskip, hwait⟩
  · exact .inl ⟨hb, hwait, hskip ▸ RequestQueue.addRequest_perm ..⟩
  · exact .inr ⟨hb, hskip, hwait ▸ RequestQueue.addRequest_perm ..⟩

theorem Enqueues.mem_waiting (h : Enqueues cfg v s s') {w : Ref} (hw : w ≠ v) :
    w ∈ s'.waiting ↔ w ∈ s.waiting := by
  rcases h.perm with ⟨-, hq, -⟩ | ⟨-, -, hq⟩
  · rw [hq]
  · rw [hq.mem_iff, mem_cons]
    exact or_iff_right hw

theorem Enqueues.mem_skippedWaiting (h : Enqueues cfg v s s') {w : Ref} (hw : w ≠ v) :
    w ∈ s'.skippedWaiting ↔ w ∈ s.skippedWaiting := by
  rcases h.perm with ⟨-, -, hq⟩ | ⟨-, hq, -⟩
  · rw [hq.mem_iff, mem_cons]
    exact or_iff_right hw
  · rw [hq]

theorem Enqueues.onlyTouches {n : ℤ} {f : Request → Request}
    (h : Enqueues cfg v ({ s with numWaitingForStreamingInput := n }.modify v f) s')
    (hid : (f (s.req v)).requestId = (s.req v).requestId) : OnlyTouches v s s' where
  req w hw := by rw [h.req, req_modify_of_ne _ _ hw]
  requestId := by rw [h.req, req_modify_self, hid]
  requests := .inl h.requests
  nextRef := h.nextRef
  running := h.running
  waiting _ hw := h.mem_waiting hw
  skippedWaiting _ hw := h.mem_skippedWaiting hw

theorem StopOutcome.onlyTouches (h : StopOutcome cfg hasher s v s') : OnlyTouches v s s' := by
  cases h with
  | finished streamingQueue requests _ hreq hagree =>
    exact .of_agrees hagree hreq rfl
  | continued update queue r _ _ hr hagree =>
    exact (enqueues_of_agrees hagree).onlyTouches (Request.updateAsSession_continues hr).requestId
  | idle _ _ hagree => exact (enqueues_of_agrees hagree).onlyTouches rfl

theorem OnlyTouches.trans (h : OnlyTouches v s s') (h' : OnlyTouches v s' s'')
    (hreq : s'.requests = s.requests) : OnlyTouches v s s'' where
  req w hw := (h'.req w hw).trans (h.req w hw)
  requestId := h'.requestId.trans h.requestId
  requests := by
    have := h'.requests
    rwa [hreq, h.requestId] at this
  nextRef := h'.nextRef.trans h.nextRef
  running := h'.running.trans h.running
  waiting w hw := (h'.waiting w hw).trans (h.waiting w hw)
  skippedWaiting w hw := (h'.skippedWaiting w hw).trans (h.skippedWaiting w hw)

theorem Takes.onlyTouches (h : Takes cfg hasher out m id s v stopped r)
    (hagree : Agrees (s.modify v fun _ => r) s') : OnlyTouches v s s' :=
  .of_agrees (show Agrees ({ s with requests := s.requests }.modify v fun _ => r) s' from hagree)
    (.inl rfl) h.requestId

theorem Takes.stop_onlyTouches (h : Takes cfg hasher out m id s v stopped r)
    (hagree : Agrees (s.modify v fun _ => r) s') (hstop : StopOutcome cfg hasher s' v s'') :
    OnlyTouches v s s'' :=
  (h.onlyTouches hagree).trans hstop.onlyTouches hagree.requests

/-- A turn touches at most the request of its id. -/
structure Turn.Touches (v : Ref) (z z' : Stops) : Prop where
  onlyTouches : OnlyTouches v z.s z'.s
  stoppedRunningReqs : ∀ w, w ≠ v → (w ∈ z'.stoppedRunningReqs ↔ w ∈ z.stoppedRunningReqs)
  stoppedPreemptedReqs : ∀ w, w ≠ v → (w ∈ z'.stoppedPreemptedReqs ↔ w ∈ z.stoppedPreemptedReqs)

theorem Turn.touches (h : Turn cfg hasher out m failed id z z') :
    z' = z ∨ ∃ v, z.s.requests.get? id = some v ∧ Turn.Touches v z z' := by
  cases h with
  | ignored _ => exact .inl rfl
  | goesOn v r s hf htakes hagree =>
    exact .inr ⟨v, htakes.request, htakes.onlyTouches hagree, fun _ _ => .rfl, fun _ _ => .rfl⟩
  | stops v r s1 s hf htakes hagree hstop =>
    refine .inr ⟨v, htakes.request, ?_⟩
    have hboth := htakes.stop_onlyTouches hagree hstop
    have hins : ∀ (l : List Ref) w, w ≠ v → (w ∈ l.insert v ↔ w ∈ l) := by
      intro l w hw
      rw [mem_insert_iff]
      exact or_iff_right hw
    split
    · exact ⟨hboth, hins _, fun _ _ => .rfl⟩
    · exact ⟨hboth, fun _ _ => .rfl, hins _⟩

/-- Requests are registered with their ids. -/
def Known (s : Scheduler) : Prop := ∀ id v, s.requests.get? id = some v → (s.req v).requestId = id

/-- Live requests stay registered, and none is added or comes back to life. -/
structure Retains (s s' : Scheduler) : Prop where
  requestId : ∀ v, (s'.req v).requestId = (s.req v).requestId
  live : ∀ v, (s'.req v).isFinished = false → (s.req v).isFinished = false
  requests : ∀ id v, s'.requests.get? id = some v → s.requests.get? id = some v
  keeps : ∀ id v, s.requests.get? id = some v → (s'.req v).isFinished = false →
    s'.requests.get? id = some v
  nextRef : s'.nextRef = s.nextRef

theorem Retains.refl (s : Scheduler) : Retains s s :=
  ⟨fun _ => rfl, fun _ h => h, fun _ _ h => h, fun _ _ h _ => h, rfl⟩

theorem Retains.trans (h : Retains s s') (h' : Retains s' s'') : Retains s s'' where
  requestId v := (h'.requestId v).trans (h.requestId v)
  live v hv := h.live v (h'.live v hv)
  requests id v hv := h.requests id v (h'.requests id v hv)
  keeps id v hv hlive := h'.keeps id v (h.keeps id v hv (h'.live v hlive)) hlive
  nextRef := h'.nextRef.trans h.nextRef

theorem Retains.known (h : Retains s s') (hk : s.Known) : s'.Known := by
  intro id v hv
  rw [h.requestId]
  exact hk id v (h.requests id v hv)

/-- Two registered requests with one id are the same. -/
theorem Known.eq_of_requestId (hk : s.Known) {w : Ref} {id : RequestId}
    (hv : s.requests.get? (s.req v).requestId = some v) (hw : s.requests.get? id = some w)
    (hid : (s.req w).requestId = (s.req v).requestId) : w = v := by
  rw [← hid, hk id w hw, hw] at hv
  exact Option.some.inj hv

theorem OnlyTouches.field {α : Type} (h : OnlyTouches v s s') (f : Request → α)
    (hv : f (s'.req v) = f (s.req v)) (w : Ref) : f (s'.req w) = f (s.req w) := by
  by_cases hw : w = v
  · rw [hw, hv]
  · rw [h.req w hw]

theorem OnlyTouches.get?_of_some (h : OnlyTouches v s s') {id : RequestId} {w : Ref}
    (hw : s'.requests.get? id = some w) : s.requests.get? id = some w := by
  rcases h.requests with hreq | hreq <;> rw [hreq] at hw
  · exact hw
  · exact Dict.get?_of_erase hw

theorem OnlyTouches.retains (h : OnlyTouches v s s') (hk : s.Known)
    (hv : s.requests.get? id = some v) (hlive : (s.req v).isFinished = false)
    (hkeep : (s'.req v).isFinished = false → s'.requests = s.requests) : Retains s s' where
  requestId := h.field Request.requestId h.requestId
  live w hw := by
    by_cases hwv : w = v
    · rw [hwv]
      exact hlive
    · rwa [h.req w hwv] at hw
  requests id' w hw := h.get?_of_some hw
  keeps id' w hw hlive' := by
    by_cases hwv : w = v
    · rw [hkeep (hwv ▸ hlive')]
      exact hw
    · rcases h.requests with hreq | hreq <;> rw [hreq]
      · exact hw
      · rw [Dict.get?_erase_of_ne]
        · exact hw
        · rintro rfl
          rw [hk id v hv, hv] at hw
          exact hwv (Option.some.inj hw).symm
  nextRef := h.nextRef

/-- A request that stopped is finished or still registered. -/
theorem StopOutcome.registered (h : StopOutcome cfg hasher s v s')
    (hlive : (s'.req v).isFinished = false) : s'.requests = s.requests := by
  cases h with
  | finished streamingQueue requests hfin _ hagree =>
    rw [hagree.req, req_modify_self] at hlive
    exact absurd (hfin.symm.trans hlive) (by decide)
  | continued update queue r _ _ _ hagree | idle _ _ hagree =>
    exact (enqueues_of_agrees hagree).requests

theorem Turn.retains (h : Turn cfg hasher out m failed id z z') (hk : z.s.Known) :
    Retains z.s z'.s := by
  cases h with
  | ignored _ => exact .refl _
  | goesOn v r s hf htakes hagree =>
    exact (htakes.onlyTouches hagree).retains hk htakes.request htakes.live
      fun _ => hagree.requests
  | stops v r s1 s hf htakes hagree hstop =>
    have hboth : Retains z.s s :=
      (htakes.stop_onlyTouches hagree hstop).retains hk htakes.request htakes.live
        fun hlive => (hstop.registered hlive).trans hagree.requests
    split <;> exact hboth

/-- The request of an id and its place are as in `s0`, and it did not stop. -/
structure Untouched (s0 : Scheduler) (id : RequestId) (z : Stops) : Prop where
  known : z.s.Known
  requests : z.s.requests.get? id = s0.requests.get? id
  req : ∀ v, s0.requests.get? id = some v → z.s.req v = s0.req v
  waiting : ∀ v, s0.requests.get? id = some v → (v ∈ z.s.waiting ↔ v ∈ s0.waiting)
  skippedWaiting : ∀ v, s0.requests.get? id = some v →
    (v ∈ z.s.skippedWaiting ↔ v ∈ s0.skippedWaiting)
  stopped : ∀ v, s0.requests.get? id = some v →
    v ∉ z.stoppedRunningReqs ∧ v ∉ z.stoppedPreemptedReqs

theorem Untouched.refl {s0 : Scheduler} (hk : s0.Known) (id : RequestId) :
    Untouched s0 id { s := s0 } :=
  ⟨hk, rfl, fun _ _ => rfl, fun _ _ => .rfl, fun _ _ => .rfl,
    fun _ _ => ⟨not_mem_nil, not_mem_nil⟩⟩

theorem Untouched.step {s0 : Scheduler} {id' : RequestId} (h : Untouched s0 id' z)
    (hk' : z'.s.Known) (hne : id' ≠ id) (hv : z.s.requests.get? id = some v)
    (ht : Turn.Touches v z z') : Untouched s0 id' z' := by
  have hid := h.known id v hv
  have hw : ∀ w, s0.requests.get? id' = some w → w ≠ v := by
    intro w hw hwv
    rw [← h.requests] at hw
    have hid' := h.known id' w hw
    rw [hwv, hid] at hid'
    exact hne hid'.symm
  have honly := ht.onlyTouches
  refine ⟨hk', ?_, fun w hw' => ?_, fun w hw' => ?_, fun w hw' => ?_, fun w hw' => ?_⟩
  · rcases honly.requests with hreq | hreq <;> rw [hreq]
    · exact h.requests
    · rw [Dict.get?_erase_of_ne _ (by rwa [hid])]
      exact h.requests
  · rw [honly.req w (hw w hw')]
    exact h.req w hw'
  · exact (honly.waiting w (hw w hw')).trans (h.waiting w hw')
  · exact (honly.skippedWaiting w (hw w hw')).trans (h.skippedWaiting w hw')
  · obtain ⟨hrun, hpre⟩ := h.stopped w hw'
    exact ⟨fun hmem => hrun ((ht.stoppedRunningReqs w (hw w hw')).mp hmem),
      fun hmem => hpre ((ht.stoppedPreemptedReqs w (hw w hw')).mp hmem)⟩

theorem Turn.known (h : Turn cfg hasher out m failed id z z') (hk : z.s.Known) : z'.s.Known :=
  (h.retains hk).known hk

/-- **The rule for the loop.** What holds before the loop and is preserved by every turn for a
request that is as it was before the loop holds after it. -/
theorem updateLoop_invariant (Inv : Stops → Prop) {s0 : Scheduler} {es : List (RequestId × ℤ)}
    (hk : s0.Known) (hnodup : (es.map Prod.fst).Nodup) (h0 : Inv { s := s0 })
    (hstep : ∀ id n z z', (id, n) ∈ es → Untouched s0 id z → Inv z →
      Turn cfg hasher out m failed id z z' → Inv z')
    {z : Stops} (h : updateLoop cfg hasher a out m failed es { s := s0 } = some z) : Inv z := by
  -- the entries that are left are untouched so far
  suffices hall : ∀ (rest : List (RequestId × ℤ)) (z1 : Stops), (∀ e ∈ rest, e ∈ es) →
      (rest.map Prod.fst).Nodup → (∀ e ∈ rest, Untouched s0 e.1 z1) → Inv z1 →
      updateLoop cfg hasher a out m failed rest z1 = some z → Inv z from
    hall es _ (fun _ he => he) hnodup (fun e _ => .refl hk e.1) h0 h
  intro rest
  induction rest with
  | nil =>
    intro z1 _ _ _ hinv h
    cases h
    exact hinv
  | cons e rest ih =>
    intro z1 hmem hnd hun hinv h
    obtain ⟨id, n⟩ := e
    obtain ⟨z2, hturn, hrest⟩ := bind_eq_some_iff.mp h
    have hcase := updateTurn_cases hturn
    obtain ⟨hnot, hnd'⟩ := nodup_cons.mp hnd
    have hone := hun _ mem_cons_self
    have hinv2 := hstep id n z1 z2 (hmem _ mem_cons_self) hone hinv hcase
    have hmem' : ∀ e ∈ rest, e ∈ es := fun e he => hmem e (mem_cons_of_mem _ he)
    have hun' : ∀ e ∈ rest, Untouched s0 e.1 z1 := fun e he => hun e (mem_cons_of_mem _ he)
    rcases hcase.touches with rfl | ⟨v, hv, ht⟩
    · exact ih z2 hmem' hnd' hun' hinv2 hrest
    · refine ih z2 hmem' hnd' (fun e he => ?_) hinv2 hrest
      have hne : e.1 ≠ id := fun heq => hnot (mem_map.mpr ⟨e, he, heq⟩)
      exact (hun' e he).step (hcase.known hone.known) hne hv ht

/-! ## Blocks that could not be loaded -/

/-- The requests and the queues are the same up to the numbers of computed tokens. -/
structure SameQueues (s s' : Scheduler) : Prop extends SameRequests s s' where
  queues : ∀ step, s'.queues step = s.queues step
  discards : ∀ v, (s'.req v).discardLatestAsyncTokens = (s.req v).discardLatestAsyncTokens

/-- The encoder cache is the same, too. -/
structure Recounts (s s' : Scheduler) : Prop extends SameQueues s s' where
  enc : s'.enc = s.enc

theorem Recounts.refl (s : Scheduler) : Recounts s s :=
  ⟨⟨.refl s, fun _ => rfl, fun _ => rfl⟩, rfl⟩

theorem Recounts.trans (h : Recounts s s') (h' : Recounts s' s'') : Recounts s s'' :=
  ⟨⟨h.toSameRequests.trans h'.toSameRequests,
    fun step => (h'.queues step).trans (h.queues step),
    fun v => (h'.discards v).trans (h.discards v)⟩, h'.enc.trans h.enc⟩

theorem Recounts.setComputed (s : Scheduler) (v : Ref) (n : ℤ) :
    Recounts s (s.modify v fun r => { r with numComputedTokens := n }) :=
  ⟨⟨.modify s v _ rfl, fun step => queues_modify_same s v _ step rfl,
    field_modify Request.discardLatestAsyncTokens rfl⟩, rfl⟩

section

variable {invalid : List BlockId} {tokens : Dict RequestId ℤ} {evict : Bool}

theorem scanBlocks_recounts {table : List BlockId} (bs : List (ℕ × BlockId))
    (affected marked : Bool) (z : InvalidScan) :
    Recounts z.s (scanBlocks cfg invalid evict v table bs affected marked z).2.2.s := by
  induction bs generalizing affected marked z with
  | nil => exact .refl z.s
  | cons e bs ih =>
    obtain ⟨idx, b⟩ := e
    unfold scanBlocks
    split
    · exact ih ..
    · split
      · exact ih ..
      · split
        · exact ih true true { z with markedInvalidBlockIds := b :: z.markedInvalidBlockIds }
        · refine Recounts.trans ?_ (ih true true _)
          exact .setComputed ..

theorem scanRequest_recounts {z z' : InvalidScan}
    (h : scanRequest cfg invalid tokens evict v z = some z') : Recounts z.s z'.s := by
  unfold scanRequest at h
  split at h
  · rename_i m _
    have hscan : ∀ bs, Recounts z.s (scanBlocks cfg invalid evict v
        (m.table (z.s.req v).requestId) bs false false z).2.2.s :=
      fun bs => scanBlocks_recounts bs false false z
    dsimp only at h
    split at h
    · cases h
      split
      · exact hscan _
      · exact (hscan _).trans (.setComputed ..)
    · cases h
      exact hscan _
  · cases h

theorem scanRequests_recounts {vs : List Ref} {z z' : InvalidScan}
    (h : scanRequests cfg invalid tokens evict vs z = some z') : Recounts z.s z'.s := by
  induction vs generalizing z with
  | nil =>
    cases h
    exact .refl _
  | cons v vs ih =>
    obtain ⟨z1, hz1, h⟩ := bind_eq_some_iff.mp h
    exact (scanRequest_recounts hz1).trans (ih h)

theorem handleInvalidBlocks_recounts {failed : List RequestId}
    (h : s.handleInvalidBlocks cfg invalid tokens = some (failed, s')) : Recounts s s' := by
  simp only [handleInvalidBlocks, bind, bind_eq_some_iff] at h
  obtain ⟨z1, hz1, z2, hz2, h⟩ := h
  have hsecond := scanRequests_recounts hz2
  have hboth : Recounts s z2.s := (scanRequests_recounts hz1).trans hsecond
  split at h
  · cases h
    exact hboth
  · split at h
    · cases h
      exact hboth.trans ⟨⟨⟨rfl, rfl, rfl, rfl⟩, fun _ => rfl, fun _ => rfl⟩, rfl⟩
    · obtain ⟨kv, -, h⟩ := bind_eq_some_iff.mp h
      cases h
      exact hboth.trans ⟨⟨⟨rfl, rfl, rfl, rfl⟩, fun _ => rfl, fun _ => rfl⟩, rfl⟩

end

/-! ## Finishing requests and finished transfers -/

/-- The requests `vs` are finished; those that were registered may be forgotten. -/
structure Finishes (finishedStatus : RequestStatus) (vs : List Ref) (s s' : Scheduler) : Prop
    extends Stays s s' where
  others : ∀ w, w ∉ vs → s'.req w = s.req w
  finished : ∀ w ∈ vs, s'.req w = { s.req w with status := finishedStatus }
  requests : ∀ id v, s'.requests.get? id = some v → s.requests.get? id = some v
  keeps : ∀ id v, s.requests.get? id = some v → (∀ w ∈ vs, (s.req w).requestId ≠ id) →
    s'.requests.get? id = some v

theorem finishLoop_finishes {vs : List Ref}
    (h : finishLoop cfg a finishedStatus vs s = some s') :
    Finishes finishedStatus vs s s' ∧ FreesInputs (· ∈ vs) s s' := by
  induction vs generalizing s with
  | nil =>
    cases h
    exact ⟨⟨.refl _, fun _ _ => rfl, fun _ hw => absurd hw not_mem_nil, fun _ _ hv => hv,
      fun _ _ hv _ => hv⟩, .of_enc rfl⟩
  | cons v vs ih =>
    obtain ⟨s1, hs1, h⟩ := bind_eq_some_iff.mp h
    obtain ⟨htail, hrest⟩ := ih h
    obtain ⟨⟨-, hfrees⟩, requests, hreq, hagree⟩ := freeRequest_agrees hs1
    -- the sets of the connector change before
    set f : Request → Request := fun r => { r with status := finishedStatus } with hf
    have hsame : Stays s s1 ∧ s1.req = (s.modify v f).req ∧
        (s1.requests = s.requests ∨ s1.requests = s.requests.erase (s.req v).requestId) := by
      rw [req_modify_self] at hreq
      split at hagree <;> rename_i hload <;> simp only [hload] at hreq <;>
        exact ⟨{ hagree.toStays with }, hagree.req, hagree.requests ▸ hreq⟩
    obtain ⟨hstays, h1, h3⟩ := hsame
    have hfrees : FreesInputs (· = v) s s1 :=
      hfrees.of_modify (v := v) (f := f) (by split <;> rfl) (by split <;> rfl) rfl
    have hboth : FreesInputs (· ∈ v :: vs) s s' :=
      (hfrees.mono fun _ hw => hw ▸ mem_cons_self).trans
        (hrest.mono fun _ => mem_cons_of_mem v) (h1 ▸ field_modify Request.mmFeatures rfl)
    refine ⟨⟨hstays.trans htail.toStays, fun w hw => ?_, fun w hw => ?_, fun id w hw => ?_,
      fun id w hw hids => htail.keeps id w ?_ fun u hu => ?_⟩, hboth⟩
    · obtain ⟨hne, hw⟩ := not_or.mp (fun hor => hw (mem_cons.mpr hor))
      rw [htail.others w hw, h1, req_modify_of_ne s f hne]
    · by_cases hmem : w ∈ vs
      · rw [htail.finished w hmem, h1]
        exact field_modify (v := v) f rfl w
      · obtain rfl := (mem_cons.mp hw).resolve_right hmem
        rw [htail.others w hmem, h1, req_modify_self]
    · have hw1 := htail.requests id w hw
      rcases h3 with h3 | h3 <;> rw [h3] at hw1
      · exact hw1
      · exact Dict.get?_of_erase hw1
    · rcases h3 with h3 | h3 <;> rw [h3]
      · exact hw
      · rwa [Dict.get?_erase_of_ne _ (hids v mem_cons_self).symm]
    · rw [h1, field_modify Request.requestId rfl]
      exact hids u (mem_cons_of_mem v hu)

/-- Finished requests may be forgotten. -/
structure Forgets (s s' : Scheduler) : Prop extends Stays s s' where
  req : s'.req = s.req
  requests : ∀ id v, s'.requests.get? id = some v → s.requests.get? id = some v
  keeps : ∀ id v, s.requests.get? id = some v → (s.req v).isFinished = false →
    s'.requests.get? id = some v

theorem Forgets.refl (s : Scheduler) : Forgets s s :=
  ⟨.refl s, rfl, fun _ _ hv => hv, fun _ _ hv _ => hv⟩

theorem Forgets.trans (h : Forgets s s') (h' : Forgets s' s'') : Forgets s s'' where
  toStays := h.toStays.trans h'.toStays
  req := h'.req.trans h.req
  requests id v hv := h.requests id v (h'.requests id v hv)
  keeps id v hv hlive := h'.keeps id v (h.keeps id v hv hlive) (by rwa [h.req])

theorem Forgets.retains (h : Forgets s s') : Retains s s' where
  requestId v := by rw [h.req]
  live v hv := by rwa [h.req] at hv
  requests := h.requests
  keeps id v hv hlive := h.keeps id v hv (by rwa [h.req] at hlive)
  nextRef := h.nextRef

theorem freeBlocks_forgets {id : RequestId} (hk : s.Known) (hv : s.requests.get? id = some v)
    (h : s.freeBlocks v = some s') : Forgets s s' := by
  obtain ⟨⟨hfin, -⟩, hagree⟩ := freeBlocks_agrees h
  have hreq : s'.requests = s.requests.erase id := by
    rw [hagree.requests, ← hk id v hv]
  refine { hagree with requests := fun id' w hw => ?_, keeps := fun id' w hw hlive => ?_ }
  · rw [hreq] at hw
    exact Dict.get?_of_erase hw
  · rw [hreq, Dict.get?_erase_of_ne]
    · exact hw
    · rintro rfl
      rw [hv] at hw
      cases hw
      rw [hfin] at hlive
      cases hlive

/-- **The rule for finished transfers.** Requests are noted, or their blocks are freed. -/
theorem updateFromKvXferFinished_invariant (Inv : Scheduler → Prop)
    (hnote : ∀ s ids, Inv s → Inv { s with finishedRecvingKvReqIds := ids })
    (hfree : ∀ s id v s', s.requests.get? id = some v → s.freeBlocks v = some s' → Inv s → Inv s')
    (h : s.updateFromKvXferFinished m = some s') (hs : Inv s) : Inv s' := by
  have hrecving : ∀ ids s s', finishedRecvingLoop ids s = some s' → Inv s → Inv s' := by
    intro ids
    induction ids with
    | nil =>
      intro s s' h hs
      cases h
      exact hs
    | cons id ids ih =>
      intro s s' h hs
      simp only [finishedRecvingLoop, bind, bind_eq_some_iff] at h
      obtain ⟨v, hv, s1, hs1, h⟩ := h
      refine ih s1 s' h ?_
      split at hs1
      · cases hs1
        exact hnote s _ hs
      · exact hfree s id v s1 hv hs1 hs
  have hsending : ∀ ids s s', finishedSendingLoop ids s = some s' → Inv s → Inv s' := by
    intro ids
    induction ids with
    | nil =>
      intro s s' h hs
      cases h
      exact hs
    | cons id ids ih =>
      intro s s' h hs
      simp only [finishedSendingLoop, bind, bind_eq_some_iff] at h
      obtain ⟨v, hv, s1, hs1, h⟩ := h
      exact ih s1 s' h (hfree s id v s1 hv hs1 hs)
  obtain ⟨s1, hs1, h⟩ := bind_eq_some_iff.mp h
  exact hsending _ s1 s' h (hrecving _ s s1 hs1 hs)

theorem updateFromKvXferFinished_forgets (hk : s.Known)
    (h : s.updateFromKvXferFinished m = some s') : Forgets s s' := by
  have hboth := updateFromKvXferFinished_invariant (fun s1 => Forgets s s1 ∧ s1.Known)
    (fun s1 _ h => ⟨{ h.1 with }, h.2⟩) (fun s1 id v s2 hv hs2 h => ?_) h ⟨.refl s, hk⟩
  · exact hboth.1
  · have hone := freeBlocks_forgets h.2 hv hs2
    exact ⟨h.1.trans hone, hone.retains.known h.2⟩

/-- The requests `vs`, which are about to be finished, leave the queues. -/
structure Withdraws (cfg : SchedulerConfig) (vs : List Ref) (s s' : Scheduler) : Prop where
  req : s'.req = s.req
  nextRef : s'.nextRef = s.nextRef
  requests : s'.requests = s.requests
  running : s'.running = removeAll s.running (vs.filter fun v => (s.req v).status = .running)
  waiting : ∃ others, others = vs.filter (fun v => (s.req v).status ≠ .running) ∧
    (others = [] ∧ s'.waiting = s.waiting ∧ s'.skippedWaiting = s.skippedWaiting ∨
      s'.waiting = RequestQueue.removeRequests cfg.policy s.lt others s.waiting ∧
      s'.skippedWaiting = RequestQueue.removeRequests cfg.policy s.lt others s.skippedWaiting)
  numWaitingForStreamingInput : s'.numWaitingForStreamingInput =
    s.numWaitingForStreamingInput - vs.countP fun v => (s.req v).status = .waitingForStreamingReq

theorem mem_validRequests (h : v ∈ s.validRequests ids) :
    ∃ id ∈ ids, s.requests.get? id = some v ∧ (s.req v).isFinished = false := by
  obtain ⟨id, hid, h⟩ := mem_filterMap.mp h
  obtain ⟨w, hw, h⟩ := bind_eq_some_iff.mp h
  split at h
  · cases h
  · rename_i hlive
    cases h
    exact ⟨id, hid, hw, by simpa using hlive⟩

/-- Live requests are withdrawn and finished. -/
theorem finishRequests_cases {ids : Option (List RequestId)}
    (h : s.finishRequests cfg a ids finishedStatus = some s') :
    finishedStatus.isFinished = true ∧ ∃ vs s1,
      vs = s.validRequests ((ids.map List.dedup).getD s.requests.keys) ∧ Withdraws cfg vs s s1 ∧
      Finishes finishedStatus vs s1 s' := by
  unfold finishRequests at h
  split at h
  · rename_i hfin
    refine ⟨hfin, _, _, rfl, ?_, (finishLoop_finishes h).1⟩
    split
    · rename_i hnone
      exact ⟨rfl, rfl, rfl, rfl, ⟨_, rfl, .inl ⟨hnone, rfl, rfl⟩⟩, rfl⟩
    · exact ⟨rfl, rfl, rfl, rfl, ⟨_, rfl, .inr ⟨rfl, rfl⟩⟩, rfl⟩
  · cases h

theorem finishRequests_frees {ids : Option (List RequestId)}
    (h : s.finishRequests cfg a ids finishedStatus = some s') :
    FreesInputs (· ∈ s.validRequests ((ids.map List.dedup).getD s.requests.keys)) s s' := by
  unfold finishRequests at h
  split at h
  · refine FreesInputs.trans (.of_enc ?_) (finishLoop_finishes h).2 fun v => ?_
    · split <;> rfl
    · split <;> rfl
  · cases h

theorem finishRequests_retains {ids : Option (List RequestId)} (hk : s.Known)
    (h : s.finishRequests cfg a ids finishedStatus = some s') : Retains s s' := by
  obtain ⟨hfinished, vs, s1, hvs, hw, hfin⟩ := finishRequests_cases h
  have hlive : ∀ v, (s'.req v).isFinished = false → v ∉ vs ∧ s'.req v = s.req v := by
    intro v hv
    have hnot : v ∉ vs := fun hmem => by
      rw [Request.isFinished, hfin.finished v hmem] at hv
      exact absurd (hfinished.symm.trans hv) (by decide)
    exact ⟨hnot, (hfin.others v hnot).trans (congrFun hw.req v)⟩
  refine ⟨fun v => ?_, fun v hv => ?_, fun id v hv => ?_, fun id v hv hlive' => ?_,
    hfin.nextRef.trans hw.nextRef⟩
  · by_cases hv : v ∈ vs
    · rw [hfin.finished v hv, hw.req]
    · rw [hfin.others v hv, hw.req]
  · rwa [(hlive v hv).2] at hv
  · exact hw.requests ▸ hfin.requests id v hv
  · refine hfin.keeps id v (hw.requests ▸ hv) fun w hwvs hwid => ?_
    -- a finished request has another id
    rw [hw.req] at hwid
    have hwvs' := hwvs
    rw [hvs] at hwvs'
    obtain ⟨id', -, hw', -⟩ := mem_validRequests hwvs'
    have hid := hk id v hv
    rw [hk.eq_of_requestId (hid ▸ hv) hw' (hwid.trans hid.symm)] at hwvs
    exact absurd hwvs (hlive v hlive').1

/-! ## The whole output -/

/-- The parts of `update_from_output`. -/
theorem updateFromOutput_cases {out : SchedulerOutput}
    (h : s.updateFromOutput cfg hasher a out m = some s') :
    ∃ failed s1 z s2, Recounts s s1 ∧
      updateLoop cfg hasher a out m failed out.numScheduledTokens.entries { s := s1 } = some z ∧
      (s2 = removeStopped cfg z ∨
        (removeStopped cfg z).finishRequests cfg a (some failed) .finishedError = some s2) ∧
      s2.updateFromKvXferFinished m = some s' := by
  simp only [updateFromOutput, bind, bind_eq_some_iff] at h
  obtain ⟨⟨failed, s1⟩, hinvalid, z, hloop, s2, hfinish, h⟩ := h
  refine ⟨failed, s1, z, s2, ?_, hloop, ?_, h⟩
  · split at hinvalid
    · cases hinvalid
      exact .refl _
    · exact handleInvalidBlocks_recounts hinvalid
  · split at hfinish
    · exact .inr hfinish
    · cases hfinish
      exact .inl rfl

/-! ## New requests -/

/-- A new request is registered and entered in a queue, with an empty streaming queue if it is
resumable. -/
structure AddsNew (cfg : SchedulerConfig) (r r' : Request) (s s' : Scheduler) : Prop where
  request : r' = r.withStreamingQueue r'.streamingQueue
  self : s'.req s.nextRef = r'
  others : ∀ w, w ≠ s.nextRef → s'.req w = s.req w
  nextRef : s'.nextRef = s.nextRef + 1
  requests : s'.requests = s.requests.set r.requestId s.nextRef
  running : s'.running = s.running
  numWaitingForStreamingInput : s'.numWaitingForStreamingInput = s.numWaitingForStreamingInput
  queues : (s'.waiting = s.waiting ∧ s'.skippedWaiting =
      RequestQueue.addRequest cfg.policy s'.lt s.nextRef s.skippedWaiting) ∨
    (s'.skippedWaiting = s.skippedWaiting ∧ s'.waiting =
      RequestQueue.addRequest cfg.policy s'.lt s.nextRef s.waiting)
  enc : s'.enc = s.enc
  streamingQueue : r'.streamingQueue.getD [] ⊆ r.streamingQueue.getD []

theorem addNewRequest_adds (cfg : SchedulerConfig) (s : Scheduler) (r : Request) :
    ∃ r', AddsNew cfg r r' s (s.addNewRequest cfg r) := by
  set r' : Request := if r.resumable then { r with streamingQueue := some [] } else r with hr'
  have hrequest : r' = r.withStreamingQueue r'.streamingQueue := by
    rw [hr']
    split <;> rfl
  set s1 : Scheduler :=
    { s with req := Function.update s.req s.nextRef r', nextRef := s.nextRef + 1 }
  have hen : Enqueues cfg s.nextRef s1 (s1.enqueueWaitingRequest cfg s.nextRef) :=
    enqueues_of_agrees (.refl _)
  set s2 := s1.enqueueWaitingRequest cfg s.nextRef
  have hlt : s2.lt = s1.lt := by
    funext x y
    rw [lt, lt, hen.req]
  refine ⟨r', hrequest, ?_, fun w hw => ?_, hen.nextRef, ?_, hen.running,
    hen.numWaitingForStreamingInput, ?_, enqueueWaitingRequest_enc .., ?_⟩
  · show s2.req s.nextRef = r'
    rw [hen.req]
    exact Function.update_self ..
  · show s2.req w = s.req w
    rw [hen.req]
    exact Function.update_of_ne hw ..
  · show s.requests.set r'.requestId s.nextRef = _
    rw [hrequest]
    rfl
  · show (s2.waiting = s.waiting ∧ s2.skippedWaiting =
        RequestQueue.addRequest cfg.policy s2.lt s.nextRef s.skippedWaiting) ∨
      (s2.skippedWaiting = s.skippedWaiting ∧ s2.waiting =
        RequestQueue.addRequest cfg.policy s2.lt s.nextRef s.waiting)
    rw [hlt]
    rcases hen.queues with ⟨-, hw, hs⟩ | ⟨-, hs, hw⟩
    · exact .inl ⟨hw, hs⟩
    · exact .inr ⟨hs, hw⟩
  · rw [hr']
    split
    · exact nil_subset _
    · exact .refl _

theorem AddsNew.status (h : AddsNew cfg r r' s s') : r'.status = r.status := by
  rw [h.request]
  rfl

theorem AddsNew.requestId (h : AddsNew cfg r r' s s') : r'.requestId = r.requestId := by
  rw [h.request]
  rfl

theorem AddsNew.waiting_perm (h : AddsNew cfg r r' s s') :
    (s'.waiting ++ s'.skippedWaiting).Perm (s.nextRef :: (s.waiting ++ s.skippedWaiting)) := by
  rcases h.queues with ⟨hw, hs⟩ | ⟨hs, hw⟩ <;> rw [hw, hs]
  · exact ((RequestQueue.addRequest_perm ..).append_left _).trans perm_middle
  · exact (RequestQueue.addRequest_perm ..).append_right _

/-- What `add_request` can do; `r` is the request that the client sent. -/
inductive Adds (cfg : SchedulerConfig) (hasher : Request → Option (List Bytes)) (a : Answers)
    (r : Request) (s : Scheduler) : Scheduler → Prop
  /-- the request is new -/
  | new : s.requests.get? r.requestId = none → Adds cfg hasher a r s (s.addNewRequest cfg r)
  /-- the session has not come to the input yet -/
  | queued (v : Ref) (queue : List (Option StreamingUpdate)) :
      s.requests.get? r.requestId = some v → (s.req v).status ≠ .waitingForStreamingReq →
      (s.req v).streamingQueue = some queue →
      Adds cfg hasher a r s
        (s.modify v (Request.withStreamingQueue (some (queue ++ [r.toStreamingUpdate]))))
  /-- the session was waiting for the input -/
  | continued (v : Ref) (update : StreamingUpdate) (r' : Request) :
      s.requests.get? r.requestId = some v → (s.req v).status = .waitingForStreamingReq →
      r.toStreamingUpdate = some update → (s.req v).updateAsSession hasher update = some r' →
      Adds cfg hasher a r s ({ s with
        numWaitingForStreamingInput := s.numWaitingForStreamingInput - 1 }.modify v fun _ => r')
  /-- the session ends -/
  | closed (v : Ref) (s' : Scheduler) :
      s.requests.get? r.requestId = some v → (s.req v).status = .waitingForStreamingReq →
      s.finishRequests cfg a (some [r.requestId]) .finishedAborted = some s' →
      Adds cfg hasher a r s s'

theorem addRequest_cases {q : Request.EngineCoreRequest}
    (h : s.addRequest cfg hasher a q = some s') :
    ∃ r, Request.Arrives q r ∧ Adds cfg hasher a r s s' := by
  obtain ⟨r, hr, h⟩ := bind_eq_some_iff.mp h
  refine ⟨r, Request.fromEngineCoreRequest_arrives hr, ?_⟩
  split at h
  · rename_i hnone
    cases h
    exact .new hnone
  · rename_i v hv
    split at h
    · rename_i hstatus
      obtain ⟨queue, hqueue, h⟩ := bind_eq_some_iff.mp h
      cases h
      exact .queued v queue hv hstatus hqueue
    · rename_i hstatus
      have hstatus := not_not.mp hstatus
      split at h
      · rename_i update hupdate
        obtain ⟨r', hr', h⟩ := bind_eq_some_iff.mp h
        rw [if_pos hstatus] at h
        cases h
        exact .continued v update r' hv hstatus hupdate hr'
      · exact .closed v s' hv hstatus h

/-! ## Drafts -/

theorem updateDraftTokenIds_recounts (drafts : List (RequestId × List ℤ)) (s : Scheduler) :
    Recounts s (s.updateDraftTokenIds drafts) := by
  induction drafts generalizing s with
  | nil => exact .refl s
  | cons e drafts ih =>
    refine Recounts.trans ?_ (ih _)
    split
    · exact .refl s
    · rename_i v hv
      refine ⟨⟨.modify s v _ ?_, fun step => queues_modify_same s v _ step ?_,
        field_modify Request.discardLatestAsyncTokens ?_⟩, rfl⟩
      all_goals split <;> rfl

/-! ## Resetting the prefix cache -/

theorem preemptAll_moves {vs : List Ref} (hrun : s.running = vs.reverse)
    (h : preemptAll cfg vs s = some s') :
    (s.SameRequests s' ∧ FreesInputs (· ∈ vs) s s') ∧
      Queues.Moves cfg.policy s.lt (s.queues []) (s'.queues []) := by
  induction vs generalizing s with
  | nil =>
    cases h
    exact ⟨⟨.refl _, .of_enc rfl⟩, .refl⟩
  | cons v vs ih =>
    obtain ⟨s1, hs1, h⟩ := bind_eq_some_iff.mp h
    obtain ⟨hstatus, hsame, hq⟩ := preemptRequest_spec hs1 []
    set f : Request → Request := fun r =>
      { r with numOutputPlaceholders := 0, discardLatestAsyncTokens := true }
    have hfrees : FreesInputs (· = v) s (s1.modify v f) := by
      obtain ⟨-, kv, enc, -, henc, rfl⟩ := Pass.preemptRequest_eq_some hs1
      exact .one rfl henc
    have hsame1 : s.SameRequests (s1.modify v f) :=
      (⟨rfl, rfl, rfl, rfl⟩ : s.SameRequests { s with running := vs.reverse }).trans
        (hsame.trans (.modify s1 v f rfl))
    have hq1 : (s1.modify v f).queues [] = s1.queues [] := queues_modify_same s1 v f [] rfl
    have hrun1 : (s1.modify v f).running = vs.reverse := congrArg Queues.running hq
    obtain ⟨⟨hrest, hfrees1⟩, hmoves⟩ := ih hrun1 h
    have hboth : FreesInputs (· ∈ v :: vs) s s' :=
      (hfrees.mono fun _ hw => hw ▸ mem_cons_self).trans
        (hfrees1.mono fun _ => mem_cons_of_mem v) (hsame1.field Request.mmFeatures fun _ => rfl)
    refine ⟨⟨hsame1.trans hrest, hboth⟩, .head ?_ (hsame1.lt ▸ hmoves)⟩
    rw [hq1, hq]
    refine .preempt (q := s.queues []) ?_ ?_ hstatus
    · show s.running.Perm _
      rw [hrun, reverse_cons]
      exact perm_append_singleton v _
    · show Sublist _ s.running
      rw [hrun, reverse_cons]
      exact sublist_append_left ..

theorem resetPrefixCache_moves {resetRunningRequests : Bool}
    (h : s.resetPrefixCache cfg resetRunningRequests = some s') :
    (s.SameRequests s' ∧
        FreesInputs (fun v => resetRunningRequests = true ∧ v ∈ s.running) s s') ∧
      Queues.Moves cfg.policy s.lt (s.queues []) (s'.queues []) := by
  unfold resetPrefixCache at h
  split at h
  · rename_i hreset
    obtain ⟨s1, hs1, h⟩ := bind_eq_some_iff.mp h
    have hrun : s.running = s.running.reverse.reverse := s.running.reverse_reverse.symm
    obtain ⟨⟨hsame, hfrees⟩, hmoves⟩ := preemptAll_moves hrun hs1
    dsimp only at h
    split at h
    · cases h
      exact ⟨⟨hsame.trans ⟨rfl, rfl, rfl, rfl⟩,
        hfrees.mono fun _ hv => ⟨hreset, mem_reverse.mp hv⟩⟩, hmoves⟩
    · cases h
  · cases h
    exact ⟨⟨⟨rfl, rfl, rfl, rfl⟩, .of_enc rfl⟩, .refl⟩

end Scheduler

end Nvllm.Sched
