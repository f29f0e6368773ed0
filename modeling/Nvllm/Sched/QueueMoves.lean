import Mathlib.Logic.Relation
import Nvllm.Sched.PassCases

/-! # What a pass does to the queues

A pass of the scheduler changes the queues of requests by a few moves: a running request is
preempted, a blocked one is promoted, the head of a waiting queue is skipped, starts to load or is
admitted, and the skipped requests return to their queue. `Queues` holds what the moves are about,
and `schedule_moves` says that `schedule` is a sequence of moves. It changes neither what a request
consists of (`Request.fixed`) nor which requests there are.
-/

namespace Nvllm.Sched

open Nvllm.KVCache Relation Option

/-- A request without the fields that scheduling and preemption change. -/
def Request.fixed (r : Request) : Request :=
  { r with
    status := .waiting
    numOutputPlaceholders := 0
    discardLatestAsyncTokens := false
    specTokenIds := []
    numComputedTokens := 0
    isPrefillChunk := false
    numPreemptions := 0 }

structure Queues where
  status : Ref → RequestStatus
  running : List Ref
  waiting : List Ref
  skipped : List Ref
  /-- the requests that were skipped in the current pass -/
  step : List Ref

namespace Queues

def get (q : Queues) : Scheduler.QueueName → List Ref
  | .waiting => q.waiting
  | .skipped => q.skipped

def set (q : Queues) (name : Scheduler.QueueName) (refs : List Ref) : Queues :=
  match name with
  | .waiting => { q with waiting := refs }
  | .skipped => { q with skipped := refs }

def setStatus (q : Queues) (v : Ref) (status : RequestStatus) : Queues :=
  { q with status := Function.update q.status v status }

variable (policy : SchedulingPolicy) (lt : Ref → Ref → Bool)

/-- A move of one request. -/
inductive Move : Queues → Queues → Prop
  | preempt {q : Queues} {v : Ref} {rest : List Ref} :
      q.running.Perm (v :: rest) → rest.Sublist q.running → q.status v = .running →
      Move q ({ q with
        running := rest
        waiting := RequestQueue.prependRequest policy lt v q.waiting }.setStatus v .preempted)
  | promote {q : Queues} (name : Scheduler.QueueName) {v : Ref} {status : RequestStatus} :
      RequestQueue.peekRequest (q.get name) = some v → (q.status v).isBlocked = true →
      q.status v ≠ .waitingForStreamingReq → status = .waiting ∨ status = .preempted →
      Move q (q.setStatus v status)
  | skip {q : Queues} {name : Scheduler.QueueName} {v : Ref} {rest : List Ref} :
      RequestQueue.popRequest policy lt (q.get name) = some (v, rest) →
      Move q { q.set name rest with step := RequestQueue.prependRequest policy lt v q.step }
  | load {q : Queues} {name : Scheduler.QueueName} {v : Ref} {rest : List Ref} :
      RequestQueue.popRequest policy lt (q.get name) = some (v, rest) →
      (q.status v).isBlocked = false →
      Move q ({ q.set name rest with
        step := RequestQueue.prependRequest policy lt v q.step }.setStatus v .waitingForRemoteKvs)
  | enterRunning {q : Queues} {name : Scheduler.QueueName} {v : Ref} {rest : List Ref} :
      RequestQueue.popRequest policy lt (q.get name) = some (v, rest) →
      q.status v = .waiting ∨ q.status v = .preempted →
      Move q ({ q.set name rest with running := q.running ++ [v] }.setStatus v .running)
  | requeue {q : Queues} :
      Move q { q with
        skipped := RequestQueue.prependRequests policy lt q.step q.skipped
        step := [] }

abbrev Moves : Queues → Queues → Prop := ReflTransGen (Move policy lt)

/-- What a turn does with the head `v` of a waiting queue, and whether the loop goes on. -/
inductive HeadMove (name : Scheduler.QueueName) (v : Ref) (q : Queues) : Bool → Queues → Prop
  | stay : HeadMove name v q false q
  | skip {rest : List Ref} : RequestQueue.popRequest policy lt (q.get name) = some (v, rest) →
      HeadMove name v q true
        { q.set name rest with step := RequestQueue.prependRequest policy lt v q.step }
  | load {rest : List Ref} : RequestQueue.popRequest policy lt (q.get name) = some (v, rest) →
      (q.status v).isBlocked = false →
      HeadMove name v q true ({ q.set name rest with
        step := RequestQueue.prependRequest policy lt v q.step }.setStatus v .waitingForRemoteKvs)
  | enterRunning {rest : List Ref} :
      RequestQueue.popRequest policy lt (q.get name) = some (v, rest) →
      q.status v = .waiting ∨ q.status v = .preempted →
      HeadMove name v q true
        ({ q.set name rest with running := q.running ++ [v] }.setStatus v .running)

variable {policy lt} in
theorem HeadMove.moves {name : Scheduler.QueueName} {v : Ref} {q q' : Queues} {goOn : Bool}
    (h : HeadMove policy lt name v q goOn q') : Moves policy lt q q' := by
  cases h with
  | stay => exact .refl
  | skip hpop => exact .single (.skip hpop)
  | load hpop hfree => exact .single (.load hpop hfree)
  | enterRunning hpop hstatus => exact .single (.enterRunning hpop hstatus)

end Queues

/-! ## Schedulers with the same requests -/

namespace Scheduler

def fixed (s : Scheduler) (v : Ref) : Request := (s.req v).fixed

def queues (s : Scheduler) (step : List Ref) : Queues where
  status v := (s.req v).status
  running := s.running
  waiting := s.waiting
  skipped := s.skippedWaiting
  step := step

/-- What a pass leaves as it is. -/
structure SameRequests (s s' : Scheduler) : Prop where
  fixed : s'.fixed = s.fixed
  nextRef : s'.nextRef = s.nextRef
  requests : s'.requests = s.requests
  numWaitingForStreamingInput : s'.numWaitingForStreamingInput = s.numWaitingForStreamingInput

variable {s s' s'' : Scheduler}

theorem SameRequests.refl (s : Scheduler) : SameRequests s s := ⟨rfl, rfl, rfl, rfl⟩

theorem SameRequests.trans (h : SameRequests s s') (h' : SameRequests s' s'') :
    SameRequests s s'' where
  fixed := h'.fixed.trans h.fixed
  nextRef := h'.nextRef.trans h.nextRef
  requests := h'.requests.trans h.requests
  numWaitingForStreamingInput :=
    h'.numWaitingForStreamingInput.trans h.numWaitingForStreamingInput

/-- A field that scheduling does not change. -/
theorem SameRequests.field {α : Type} (h : SameRequests s s') (f : Request → α)
    (hf : ∀ r : Request, f r.fixed = f r) (v : Ref) : f (s'.req v) = f (s.req v) := by
  rw [← hf, ← hf (s.req v)]
  exact congrArg f (congrFun h.fixed v)

theorem SameRequests.lt (h : SameRequests s s') : s'.lt = s.lt := by
  funext v w
  have hlt : ∀ (s : Scheduler), s.lt v w = (s.fixed v).lt v (s.fixed w) w := fun s => rfl
  rw [hlt, hlt, h.fixed]

/-- Changes to the fields that scheduling changes. -/
theorem SameRequests.modify (s : Scheduler) (v : Ref) (f : Request → Request)
    (hf : (f (s.req v)).fixed = (s.req v).fixed) : SameRequests s (s.modify v f) :=
  ⟨funext (field_modify Request.fixed hf), rfl, rfl, rfl⟩

theorem SameRequests.setQueue (s : Scheduler) (name : QueueName) (refs : List Ref) :
    SameRequests s (s.setQueue name refs) := by
  cases name <;> exact ⟨rfl, rfl, rfl, rfl⟩

/-! ## The queues after an assignment -/

theorem queues_modify (s : Scheduler) (v : Ref) (f : Request → Request) (step : List Ref) :
    (s.modify v f).queues step = (s.queues step).setStatus v (f (s.req v)).status := by
  have hstatus : (fun w => ((s.modify v f).req w).status) =
      Function.update (fun w => (s.req w).status) v (f (s.req v)).status := by
    funext w
    by_cases hw : w = v
    · rw [hw, req_modify_self, Function.update_self]
    · rw [req_modify_of_ne s f hw, Function.update_of_ne hw]
  rw [queues, Queues.setStatus, hstatus]
  rfl

/-- An assignment that keeps the status. -/
theorem queues_modify_same (s : Scheduler) (v : Ref) (f : Request → Request) (step : List Ref)
    (hf : (f (s.req v)).status = (s.req v).status) :
    (s.modify v f).queues step = s.queues step := by
  rw [queues_modify, hf, Queues.setStatus]
  exact congrArg (fun status => ({ s.queues step with status } : Queues))
    (Function.update_eq_self v fun w => (s.req w).status)

theorem queues_get (s : Scheduler) (step : List Ref) (name : QueueName) :
    (s.queues step).get name = s.queue name := by
  cases name <;> rfl

theorem queues_setQueue (s : Scheduler) (step : List Ref) (name : QueueName) (refs : List Ref) :
    (s.setQueue name refs).queues step = (s.queues step).set name refs := by
  cases name <;> rfl

@[simp] theorem req_setQueue (s : Scheduler) (name : QueueName) (refs : List Ref) :
    (s.setQueue name refs).req = s.req := by
  cases name <;> rfl

end Scheduler

/-! ## The moves of a pass -/

namespace Pass

variable (cfg : SchedulerConfig) (a : Answers)

def queues (p : Pass) : Queues := p.s.queues p.stepSkippedWaiting

/-- `p'` comes from `p` by moves. -/
structure Follows (p p' : Pass) : Prop where
  same : p.s.SameRequests p'.s
  moves : Queues.Moves cfg.policy p.s.lt p.queues p'.queues

variable {cfg a} {p p' p'' : Pass}

theorem Follows.refl (p : Pass) : Follows cfg p p := ⟨.refl p.s, .refl⟩

theorem Follows.trans (h : Follows cfg p p') (h' : Follows cfg p' p'') : Follows cfg p p'' := by
  refine ⟨h.same.trans h'.same, h.moves.trans ?_⟩
  have := h'.moves
  rwa [h.same.lt] at this

/-- Nothing moves. -/
theorem Follows.quiet (hsame : p.s.SameRequests p'.s) (hq : p'.queues = p.queues) :
    Follows cfg p p' := by
  refine ⟨hsame, ?_⟩
  rw [hq]

theorem Follows.single (hsame : p.s.SameRequests p'.s)
    (hm : Queues.Move cfg.policy p.s.lt p.queues p'.queues) : Follows cfg p p' :=
  ⟨hsame, .single hm⟩

variable (cfg) in
/-- `p'` comes from `p` in the loop over the running requests, which leaves the variables of the
second loop as they are. -/
structure Runs (p p' : Pass) : Prop extends Follows cfg p p' where
  new : p'.scheduledNewReqs = p.scheduledNewReqs
  resumed : p'.scheduledResumedReqs = p.scheduledResumedReqs
  loras : p'.scheduledLoras = p.scheduledLoras
  step : p'.stepSkippedWaiting = p.stepSkippedWaiting

theorem Runs.refl (p : Pass) : Runs cfg p p := ⟨.refl p, rfl, rfl, rfl, rfl⟩

theorem Runs.trans (h : Runs cfg p p') (h' : Runs cfg p' p'') : Runs cfg p p'' where
  toFollows := h.toFollows.trans h'.toFollows
  new := h'.new.trans h.new
  resumed := h'.resumed.trans h.resumed
  loras := h'.loras.trans h.loras
  step := h'.step.trans h.step

/-! ### Running requests -/

variable {v : Ref}

end Pass

theorem Scheduler.preemptRequest_spec {cfg : SchedulerConfig} {s s' : Scheduler} {v : Ref}
    (h : s.preemptRequest cfg v = some s') (step : List Ref) :
    (s.req v).status = .running ∧ s.SameRequests s' ∧
      s'.queues step = ({ s.queues step with
        waiting := RequestQueue.prependRequest cfg.policy s.lt v s.waiting }).setStatus v
          .preempted := by
  obtain ⟨hrun, kv, enc, -, -, rfl⟩ := Pass.preemptRequest_eq_some h
  set s1 : Scheduler := { s with kv, enc }
  set f := Request.preempted
  have hsame : s.SameRequests (s1.modify v f) :=
    (⟨rfl, rfl, rfl, rfl⟩ : s.SameRequests s1).trans (.modify s1 v f rfl)
  refine ⟨hrun, hsame.trans ⟨rfl, rfl, rfl, rfl⟩, ?_⟩
  have hq : (s1.modify v f).queues step = (s.queues step).setStatus v .preempted :=
    queues_modify s1 v f step
  have hset : ((s1.modify v f).prependWaiting cfg v).queues step =
      { (s1.modify v f).queues step with
        waiting := RequestQueue.prependRequest cfg.policy (s1.modify v f).lt v s.waiting } := rfl
  rw [hset, hq, hsame.lt]
  rfl

namespace Pass

variable {cfg : SchedulerConfig} {a : Answers} {p p' p'' : Pass}

variable {v : Ref}

theorem Preempts.runs (h : Preempts cfg v p p') : Runs cfg p p' := by
  have hmove : ∀ rest s, victim cfg p.s = some (v, rest) →
      Scheduler.preemptRequest cfg { p.s with running := rest } v = some s →
      p.s.SameRequests s ∧
        Queues.Move cfg.policy p.s.lt p.queues (s.queues p.stepSkippedWaiting) := by
    intro rest s hv hs
    obtain ⟨hperm, hsub⟩ := victim_spec hv
    obtain ⟨hrun, hsame, hq⟩ := Scheduler.preemptRequest_spec hs p.stepSkippedWaiting
    refine ⟨{ hsame with }, ?_⟩
    rw [hq]
    exact .preempt hperm hsub hrun
  cases h with
  | plain rest s hv _ hs | scheduled rest s n embeds _ hv _ _ _ _ _ hs =>
    obtain ⟨hsame, hm⟩ := hmove rest s hv hs
    exact ⟨.single hsame hm, rfl, rfl, rfl, rfl⟩

/-- The caches are no queues. -/
theorem Runs.caches (p : Pass) (kv : KVCacheManager) (enc : EncoderCacheManager) :
    Runs cfg p { p with s := { p.s with kv, enc } } :=
  ⟨.quiet ⟨rfl, rfl, rfl, rfl⟩ rfl, rfl, rfl, rfl, rfl⟩

theorem Allocates.runs {n : ℤ} {newBlocks : Option (List (List BlockId))}
    (h : Allocates cfg v n p newBlocks p') : Runs cfg p p' := by
  induction h with
  | granted r bs kv _ _ => exact .caches _ kv _
  | itself r kv _ _ hpre => exact (Runs.caches _ kv _).trans hpre.runs
  | other r kv w _ _ hpre _ _ ih => exact ((Runs.caches _ kv _).trans hpre.runs).trans ih

theorem scheduleRunning_runs {t : EncoderTry} {newBlocks : List (List BlockId)}
    (h : p.scheduleRunning v t newBlocks = some p') : Runs cfg p p' := by
  simp only [scheduleRunning, bind, bind_eq_some_iff] at h
  obtain ⟨enc, -, h⟩ := h
  cases h
  have hsame := Scheduler.SameRequests.modify p.s v Request.withoutDrafts rfl
  refine ⟨.quiet (hsame.trans ⟨rfl, rfl, rfl, rfl⟩) ?_, rfl, rfl, rfl, rfl⟩
  exact Scheduler.queues_modify_same p.s v Request.withoutDrafts _ rfl

theorem RunningTurn.runs {goOn : Bool} (h : RunningTurn cfg a v p goOn p') : Runs cfg p p' := by
  cases h with
  | capped _ | noTokens t _ _ _ =>
    exact ⟨.quiet ⟨rfl, rfl, rfl, rfl⟩ rfl, rfl, rfl, rfl, rfl⟩
  | preempted t p' _ _ _ halloc => exact (Runs.caches p _ t.enc).trans halloc.runs
  | scheduled t bs p1 p' _ _ _ halloc hs =>
    exact ((Runs.caches p _ t.enc).trans halloc.runs).trans (scheduleRunning_runs hs)

theorem runningPart_runs {s : Scheduler} (h : s.runningPart cfg a = some p) :
    Runs cfg (start cfg s) p :=
  runningPart_invariant (Runs cfg (start cfg s)) (fun _ _ _ _ _ hp hturn => hp.trans hturn.runs) h
    (.refl _)

theorem recordLoras_follows (h : p.recordLoras cfg = some p') : Follows cfg p p' := by
  obtain ⟨loras, rfl⟩ := recordLoras_cases h
  exact .quiet (.refl p.s) rfl

end Pass

/-! ### Waiting requests -/

namespace Scheduler

variable {cfg : SchedulerConfig} {a : Answers} {s s' : Scheduler} {v : Ref}

theorem updateWaitingForRemoteKv_spec (h : s.updateWaitingForRemoteKv cfg v = some s') :
    s.SameRequests s' ∧ (∀ step, s'.queues step = s.queues step) ∧ s'.enc = s.enc := by
  unfold updateWaitingForRemoteKv at h
  dsimp only at h
  split at h
  · cases h
  · split at h
    · obtain ⟨kv, -, h⟩ := bind_eq_some_iff.mp h
      cases h
      exact ⟨⟨rfl, rfl, rfl, rfl⟩, fun _ => rfl, rfl⟩
    · obtain ⟨kv, -, h⟩ := bind_eq_some_iff.mp h
      cases h
      set f : Request → Request := fun r =>
        if r.numComputedTokens = r.numTokens then { r with numComputedTokens := r.numTokens - 1 }
        else r with hf
      have hkeeps : ∀ r, (f r).fixed = r.fixed ∧ (f r).status = r.status := by
        intro r
        rw [hf]
        dsimp only
        split <;> exact ⟨rfl, rfl⟩
      set s1 : Scheduler :=
        { s with
          kv
          finishedRecvingKvReqIds := s.finishedRecvingKvReqIds.erase (s.req v).requestId }
      have hsame : s.SameRequests s1 := ⟨rfl, rfl, rfl, rfl⟩
      exact ⟨hsame.trans (.modify s1 v f (hkeeps _).1),
        fun step => queues_modify_same s1 v f step (hkeeps _).2, rfl⟩

/-- A blocked request is promoted, or nothing moves. -/
theorem tryPromote_spec (h : s.tryPromoteBlockedWaitingRequest cfg a v = some (true, s')) :
    s.SameRequests s' ∧ s'.enc = s.enc ∧ (s.req v).status ≠ .waitingForStreamingReq ∧
      ∃ status, (status = .waiting ∨ status = .preempted) ∧ (s'.req v).status = status ∧
        ∀ step, s'.queues step = (s.queues step).setStatus v status := by
  cases Pass.tryPromote_cases h with
  | grammar hstatus =>
    refine ⟨.modify s v _ rfl, rfl, by rw [hstatus]; decide, .waiting, .inl rfl, ?_, fun step => ?_⟩
    · rw [req_modify_self]
    · rw [queues_modify]
  | received s1 hstatus hs1 =>
    obtain ⟨hsame, hq, henc⟩ := updateWaitingForRemoteKv_spec hs1
    refine ⟨hsame.trans (.modify s1 v _ rfl), henc, by rw [hstatus]; decide,
      if (s.req v).numPreemptions = 0 then .waiting else .preempted, ?_, ?_, fun step => ?_⟩
    · split
      · exact .inl rfl
      · exact .inr rfl
    · rw [req_modify_self]
    · rw [queues_modify, hq]

end Scheduler

namespace Pass

variable {cfg : SchedulerConfig} {a : Answers} {p p' p'' : Pass} {name : Scheduler.QueueName}
  {v : Ref}

/-- The popped request is the one that was looked at. -/
theorem pop_eq {w : Ref} {rest : List Ref}
    (hpop : RequestQueue.popRequest cfg.policy p.s.lt (p.s.queue name) = some (w, rest))
    (hpeek : RequestQueue.peekRequest (p.s.queue name) = some v) :
    RequestQueue.popRequest cfg.policy p.s.lt (p.queues.get name) = some (v, rest) := by
  have hw := RequestQueue.peekRequest_of_pop _ _ hpop
  rw [hpeek] at hw
  cases hw
  exact hpop

variable (cfg) in
/-- A turn for the head `v` of a queue. -/
structure TurnsHead (name : Scheduler.QueueName) (v : Ref) (p : Pass) (goOn : Bool) (p' : Pass) :
    Prop where
  same : p.s.SameRequests p'.s
  move : Queues.HeadMove cfg.policy p.s.lt name v p.queues goOn p'.queues

theorem TurnsHead.of_same {goOn : Bool} {p1 : Pass} (h : TurnsHead cfg name v p1 goOn p')
    (hsame : p.s.SameRequests p1.s) (hq : p1.queues = p.queues) :
    TurnsHead cfg name v p goOn p' where
  same := hsame.trans h.same
  move := by
    rw [← hsame.lt, ← hq]
    exact h.move

theorem skipWaiting_turns (hpeek : RequestQueue.peekRequest (p.s.queue name) = some v)
    (h : p.skipWaiting cfg name v = some p') : TurnsHead cfg name v p true p' := by
  simp only [skipWaiting, bind, bind_eq_some_iff] at h
  obtain ⟨⟨w, rest⟩, hpop, h⟩ := h
  cases h
  refine ⟨.setQueue p.s name rest, ?_⟩
  have hq : Scheduler.queues (p.s.setQueue name rest)
      (RequestQueue.prependRequest cfg.policy p.s.lt v p.stepSkippedWaiting) =
      { p.queues.set name rest with
        step := RequestQueue.prependRequest cfg.policy p.s.lt v p.queues.step } := by
    cases name <;> rfl
  show Queues.HeadMove _ _ _ _ _ _ (Scheduler.queues _ _)
  rw [hq]
  exact .skip (pop_eq hpop hpeek)

variable {c : Computed}

theorem loadAsync_turns (hpeek : RequestQueue.peekRequest (p.s.queue name) = some v)
    (hfree : (p.s.req v).status.isBlocked = false)
    (h : p.loadAsync cfg name v c = some p') : TurnsHead cfg name v p true p' := by
  simp only [loadAsync, bind, bind_eq_some_iff] at h
  obtain ⟨⟨w, rest⟩, hpop, h⟩ := h
  cases h
  set f := Request.placed .waitingForRemoteKvs c.numComputedTokens
  have hsame : p.s.SameRequests ((p.s.setQueue name rest).modify v f) :=
    (Scheduler.SameRequests.setQueue p.s name rest).trans (.modify _ v f rfl)
  refine ⟨hsame, ?_⟩
  have hq : ((p.s.setQueue name rest).modify v f).queues
      (RequestQueue.prependRequest cfg.policy ((p.s.setQueue name rest).modify v f).lt v
        p.stepSkippedWaiting) =
      ({ p.queues.set name rest with
        step := RequestQueue.prependRequest cfg.policy p.s.lt v p.queues.step }).setStatus v
          .waitingForRemoteKvs := by
    rw [Scheduler.queues_modify, Scheduler.queues_setQueue, hsame.lt]
    cases name <;> rfl
  show Queues.HeadMove _ _ _ _ _ _ (Scheduler.queues _ _)
  rw [hq]
  exact .load (pop_eq hpop hpeek) hfree

theorem enterRunning_turns {t : EncoderTry}
    (hpeek : RequestQueue.peekRequest (p.s.queue name) = some v)
    (h : p.enterRunning cfg name v c t = some p') : TurnsHead cfg name v p true p' := by
  simp only [enterRunning, bind, bind_eq_some_iff] at h
  obtain ⟨⟨w, rest⟩, hpop, enc, -, ⟨new, resumed⟩, hnew, h⟩ := h
  cases h
  have hstatus : (p.s.req v).status = .waiting ∨ (p.s.req v).status = .preempted := by
    unfold newOrResumed at hnew
    split at hnew
    · exact .inl ‹_›
    · exact .inr ‹_›
    · cases hnew
  set f := Request.placed .running c.numComputedTokens
  have hsame : p.s.SameRequests ((p.s.setQueue name rest).modify v f) :=
    (Scheduler.SameRequests.setQueue p.s name rest).trans (.modify _ v f rfl)
  refine ⟨hsame.trans ⟨rfl, rfl, rfl, rfl⟩, ?_⟩
  have hq : ((p.s.setQueue name rest).modify v f).queues p.stepSkippedWaiting =
      (p.queues.set name rest).setStatus v .running := by
    rw [Scheduler.queues_modify, Scheduler.queues_setQueue]
    cases name <;> rfl
  have hrun : ((p.s.setQueue name rest).modify v f).running = p.s.running := by
    cases name <;> rfl
  have hall : Queues.HeadMove cfg.policy p.s.lt name v p.queues true
      ({ p.queues.set name rest with running := p.queues.running ++ [v] }.setStatus v .running) :=
    .enterRunning (pop_eq hpop hpeek) hstatus
  have hfinal : ({ p.queues.set name rest with
        running := p.queues.running ++ [v] }.setStatus v .running) =
      { ((p.s.setQueue name rest).modify v f).queues p.stepSkippedWaiting with
        running := ((p.s.setQueue name rest).modify v f).running ++ [v] } := by
    rw [hq, hrun]
    cases name <;> rfl
  rw [hfinal] at hall
  exact hall

theorem WaitingReady.turns {goOn : Bool}
    (hpeek : RequestQueue.peekRequest (p.s.queue name) = some v)
    (hfree : (p.s.req v).status.isBlocked = false)
    (h : WaitingReady cfg a name v p goOn p') : TurnsHead cfg name v p goOn p' := by
  have hpeek' : ∀ enc kv, RequestQueue.peekRequest
      (Scheduler.queue { p.s with enc, kv } name) = some v := by
    intro enc kv
    rw [← hpeek]
    cases name <;> rfl
  cases h with
  | loraBlocked p' _ hskip | unknown p' _ hskip => exact skipWaiting_turns hpeek hskip
  | noTokens c t _ _ => exact ⟨⟨rfl, rfl, rfl, rfl⟩, .stay⟩
  | noBlocks c t p1 enc _ _ halloc _ =>
    obtain ⟨kv, rfl⟩ := allocateWaiting_cases halloc
    exact ⟨⟨rfl, rfl, rfl, rfl⟩, .stay⟩
  | loading c t p1 p' _ _ halloc _ hload =>
    obtain ⟨kv, rfl⟩ := allocateWaiting_cases halloc
    exact (loadAsync_turns (p := { p with s := { p.s with enc := t.enc, kv } }) (hpeek' t.enc kv)
      hfree hload).of_same ⟨rfl, rfl, rfl, rfl⟩ rfl
  | entered c t p1 p' _ _ _ halloc _ henter =>
    obtain ⟨kv, rfl⟩ := allocateWaiting_cases halloc
    exact (enterRunning_turns (p := { p with s := { p.s with enc := t.enc, kv } })
      (hpeek' t.enc kv) henter).of_same ⟨rfl, rfl, rfl, rfl⟩ rfl

/-- A turn is for the head of the selected queue, which may be promoted before. -/
theorem WaitingTurn.turns {goOn : Bool} (h : WaitingTurn cfg a p goOn p') :
    ∃ name v p1, p.s.selectWaitingQueueForScheduling cfg = some name ∧
      RequestQueue.peekRequest (p.s.queue name) = some v ∧ TurnsHead cfg name v p1 goOn p' ∧
      p.s.SameRequests p1.s ∧ (p1.queues = p.queues ∨ ∃ status, p1.queues =
        p.queues.setStatus v status ∧
          Queues.Move cfg.policy p.s.lt p.queues (p.queues.setStatus v status)) := by
  cases h with
  | blocked name v p' hsel hpeek _ hskip =>
    exact ⟨name, v, p, hsel, hpeek, skipWaiting_turns hpeek hskip, .refl _, .inl rfl⟩
  | ready name v goOn p' hsel hpeek hfree hready =>
    exact ⟨name, v, p, hsel, hpeek, hready.turns hpeek hfree, .refl _, .inl rfl⟩
  | promoted name v s goOn p' hsel hpeek hblocked hpro hready =>
    obtain ⟨hsame, -, hinput, status, hstatus, hv, hq⟩ := Scheduler.tryPromote_spec hpro
    have hq' : Pass.queues { p with s } = p.queues.setStatus v status := hq _
    have hpeek' : RequestQueue.peekRequest (s.queue name) = some v := by
      have hget := congrArg (fun q => q.get name) hq'
      rw [queues, Scheduler.queues_get] at hget
      rw [hget, ← hpeek, ← Scheduler.queues_get p.s p.stepSkippedWaiting]
      cases name <;> rfl
    refine ⟨name, v, { p with s }, hsel, hpeek, hready.turns hpeek' ?_, hsame,
      .inr ⟨status, hq', .promote name ?_ hblocked hinput hstatus⟩⟩
    · rw [hv]
      rcases hstatus with rfl | rfl <;> rfl
    · exact hpeek

theorem WaitingTurn.follows {goOn : Bool} (h : WaitingTurn cfg a p goOn p') :
    Follows cfg p p' := by
  obtain ⟨name, v, p1, -, -, hturn, hsame, hq⟩ := h.turns
  have hfirst : Follows cfg p p1 := by
    rcases hq with hq | ⟨status, hq, hmove⟩
    · exact .quiet hsame hq
    · exact .single hsame (hq ▸ hmove)
  exact hfirst.trans ⟨hturn.same, hturn.move.moves⟩

theorem requeueSkipped_follows : Follows cfg p (p.requeueSkipped cfg) :=
  .single ⟨rfl, rfl, rfl, rfl⟩ .requeue

/-- The second part leaves no request between the queues. -/
theorem waitingPart_follows (hstep : p.stepSkippedWaiting = [])
    (h : p.waitingPart cfg a = some p') : Follows cfg p p' ∧ p'.stepSkippedWaiting = [] := by
  unfold waitingPart at h
  split at h
  · obtain ⟨p1, hloop, h⟩ := bind_eq_some_iff.mp h
    cases h
    have hfollows := waitingLoop_invariant (Follows cfg p)
      (fun _ _ _ _ hp hturn => hp.trans hturn.follows) hloop (.refl p)
    exact ⟨hfollows.trans requeueSkipped_follows, rfl⟩
  · cases h
    exact ⟨.refl _, hstep⟩

end Pass

/-! ### The end of the pass -/

namespace Scheduler

variable {cfg : SchedulerConfig} {a : Answers} {s s' : Scheduler}

theorem freeEncoderInputs_spec {v : Ref} (h : s.freeEncoderInputs cfg v = some s') :
    ∃ enc, s' = { s with enc } := by
  simp only [freeEncoderInputs, bind, bind_eq_some_iff] at h
  obtain ⟨enc, -, h⟩ := h
  cases h
  exact ⟨enc, rfl⟩

theorem advance_spec {es : List (RequestId × ℤ)} (h : advance cfg es s = some s') :
    s.SameRequests s' ∧ ∀ step, s'.queues step = s.queues step := by
  induction es generalizing s with
  | nil =>
    cases h
    exact ⟨.refl _, fun _ => rfl⟩
  | cons e es ih =>
    obtain ⟨id, n⟩ := e
    simp only [advance, bind, bind_eq_some_iff] at h
    obtain ⟨v, -, s1, hs1, h⟩ := h
    obtain ⟨enc, rfl⟩ := freeEncoderInputs_spec hs1
    obtain ⟨hsame, hq⟩ := ih h
    have hone := SameRequests.modify s v (Request.advance n) rfl
    have henc : s.SameRequests { s.modify v (Request.advance n) with enc } :=
      hone.trans ⟨rfl, rfl, rfl, rfl⟩
    exact ⟨henc.trans hsame,
      fun step => (hq step).trans (queues_modify_same s v (Request.advance n) step rfl)⟩

theorem addPlaceholders_spec {drafts : Dict RequestId (List ℤ)} {es : List (RequestId × ℤ)}
    (h : addPlaceholders cfg drafts es s = some s') :
    s.SameRequests s' ∧ ∀ step, s'.queues step = s.queues step := by
  induction es generalizing s with
  | nil =>
    cases h
    exact ⟨.refl _, fun _ => rfl⟩
  | cons e es ih =>
    simp only [addPlaceholders, bind, bind_eq_some_iff] at h
    obtain ⟨v, -, h⟩ := h
    obtain ⟨hsame, hq⟩ := ih h
    refine ⟨SameRequests.trans (.modify s v _ ?_) hsame,
      fun step => (hq step).trans (queues_modify_same s v _ step ?_)⟩
    · unfold Request.expect
      split <;> rfl
    · unfold Request.expect
      split <;> rfl

theorem updateAfterSchedule_spec {tokens : Dict RequestId ℤ} {drafts : Dict RequestId (List ℤ)}
    (h : s.updateAfterSchedule cfg tokens drafts = some s') :
    s.SameRequests s' ∧ ∀ step, s'.queues step = s.queues step := by
  simp only [updateAfterSchedule, bind, bind_eq_some_iff] at h
  obtain ⟨s1, hs1, h⟩ := h
  obtain ⟨hsame, hq⟩ := advance_spec hs1
  have hsame1 : s.SameRequests { s1 with finishedReqIds := [] } :=
    hsame.trans ⟨rfl, rfl, rfl, rfl⟩
  split at h
  · obtain ⟨hsame2, hq2⟩ := addPlaceholders_spec h
    exact ⟨hsame1.trans hsame2, fun step => (hq2 step).trans (hq step)⟩
  · cases h
    exact ⟨hsame1, hq⟩

theorem finishPass_spec {p : Pass} {out : SchedulerOutput} (h : finishPass cfg p = some (out, s')) :
    p.s.SameRequests s' ∧ ∀ step, s'.queues step = p.s.queues step := by
  unfold finishPass at h
  split at h
  · simp only [bind, bind_eq_some_iff] at h
    obtain ⟨out', -, s1, hs1, h⟩ := h
    cases h
    obtain ⟨hsame, hq⟩ := updateAfterSchedule_spec hs1
    exact ⟨{ hsame with }, hq⟩
  · cases h

/-- **The queues in a pass.** `schedule` changes the queues by moves only; the requests stay the
same. -/
theorem schedule_moves {out : SchedulerOutput} (h : s.schedule cfg a = some (out, s')) :
    s.SameRequests s' ∧ Queues.Moves cfg.policy s.lt (s.queues []) (s'.queues []) := by
  simp only [schedule, bind, bind_eq_some_iff] at h
  obtain ⟨p1, hrun, p2, hloras, p3, hwait, hfin⟩ := h
  have hstart : s.SameRequests (Pass.start cfg s).s := ⟨rfl, rfl, rfl, rfl⟩
  have hruns := Pass.runningPart_runs hrun
  have hstep : p2.stepSkippedWaiting = [] := by
    obtain ⟨loras, rfl⟩ := Pass.recordLoras_cases hloras
    exact hruns.step
  obtain ⟨hw, hstep3⟩ := Pass.waitingPart_follows hstep hwait
  have hall := (hruns.toFollows.trans (Pass.recordLoras_follows hloras)).trans hw
  obtain ⟨hsame, hq⟩ := finishPass_spec hfin
  refine ⟨(hstart.trans hall.same).trans hsame, ?_⟩
  have hmoves := hall.moves
  rw [Pass.queues, Pass.queues, hstep3, ← hq, hstart.lt] at hmoves
  exact hmoves

end Scheduler

end Nvllm.Sched
