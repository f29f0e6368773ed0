import Nvllm.Lib.HeapOrder
import Nvllm.Sched.Queued

/-! # The order of the waiting requests

With the policy `PRIORITY` the waiting queues are heaps, and the request at the head of the queue
that `_select_waiting_queue_for_scheduling` returns should come first among all waiting requests.
This needs both queues to be in heap order with the current fields of the requests (`Heaped`). A
pass keeps it, and so do outputs: a request that changes while it is in the waiting queue leaves
that queue, which is made a heap again. The next input of a session that waits for it changes its
arrival time where it is, in the queue of the skipped requests (`arrival_breaks_order`); the order
holds in every run in which such an input leaves a heap (`head_is_first`).
-/

namespace Nvllm.Sched

open Nvllm.KVCache Nvllm.Run Nvllm.Heapq List

variable {cfg : SchedulerConfig} {hasher : Request → Option (List Bytes)} {a : Answers}

/-! ## The order of requests -/

namespace Request

/-- The order of `(priority, arrival_time, request_id)`. -/
def Precedes (r r' : Request) : Prop :=
  r.priority < r'.priority ∨ r.priority = r'.priority ∧
    (r.arrivalTime < r'.arrivalTime ∨ r.arrivalTime = r'.arrivalTime ∧ r.requestId < r'.requestId)

instance (r r' : Request) : Decidable (r.Precedes r') := inferInstanceAs (Decidable (_ ∨ _ ∧ _))

theorem lt_iff (r : Request) (v : Ref) (r' : Request) (w : Ref) :
    r.lt v r' w = true ↔ r.Precedes r' ∨ r.priority = r'.priority ∧
      r.arrivalTime = r'.arrivalTime ∧ r.requestId = r'.requestId ∧ v < w := by
  unfold lt Precedes
  split
  · rw [decide_eq_true_eq]
    omega
  · split
    · rw [decide_eq_true_eq]
      omega
    · split <;> rw [decide_eq_true_eq] <;> grind

end Request

namespace Scheduler

variable {s s' : Scheduler} {v : Ref}

theorem lt_strictWeak (s : Scheduler) : StrictWeak s.lt where
  asymm x y hxy := by
    by_contra hcon
    have hyx : s.lt y x = true := by simpa using hcon
    rw [lt, Request.lt_iff, Request.Precedes] at hxy hyx
    grind
  negTrans x y z hxy hyz := by
    by_contra hcon
    have hxz : s.lt x z = true := by simpa using hcon
    have hxy : ¬s.lt x y = true := by simpa using hxy
    have hyz : ¬s.lt y z = true := by simpa using hyz
    rw [lt, Request.lt_iff, Request.Precedes] at hxy hyz hxz
    grind

/-- The comparison reads three fields. -/
theorem lt_of_keys {x y : Ref} (hkeys : ∀ w ∈ [x, y], (s'.req w).priority = (s.req w).priority ∧
      (s'.req w).arrivalTime = (s.req w).arrivalTime ∧
      (s'.req w).requestId = (s.req w).requestId) : s'.lt x y = s.lt x y := by
  obtain ⟨hp, ha, hi⟩ := hkeys x (by simp)
  obtain ⟨hp', ha', hi'⟩ := hkeys y (by simp)
  simp only [lt, Request.lt, hp, ha, hi, hp', ha', hi']

theorem lt_of_same_keys (hkeys : ∀ w, (s'.req w).priority = (s.req w).priority ∧
      (s'.req w).arrivalTime = (s.req w).arrivalTime ∧
      (s'.req w).requestId = (s.req w).requestId) : s'.lt = s.lt :=
  funext fun _ => funext fun _ => lt_of_keys fun w _ => hkeys w

/-- A queue without the request that changes. -/
theorem isHeap_of_not_mem {q : List Ref} (hreq : ∀ w, w ≠ v → s'.req w = s.req w) (hv : v ∉ q)
    (h : IsHeap s.lt q) : IsHeap s'.lt q := by
  refine h.congr fun x hx y hy => lt_of_keys fun w hw => ?_
  have hmem : w ∈ q := by
    rcases mem_pair.mp hw with rfl | rfl
    · exact hx
    · exact hy
  have hne : w ≠ v := fun heq => hv (heq ▸ hmem)
  rw [hreq w hne]
  exact ⟨rfl, rfl, rfl⟩

end Scheduler

/-! ## Moves -/

namespace Queues

variable {lt : Ref → Ref → Bool} {q q' : Queues}

/-- The waiting queues are heaps. -/
structure Heaps (lt : Ref → Ref → Bool) (q : Queues) : Prop where
  waiting : IsHeap lt q.waiting
  skipped : IsHeap lt q.skipped

theorem Heaps.get (h : q.Heaps lt) (name : Scheduler.QueueName) : IsHeap lt (q.get name) := by
  cases name with
  | waiting => exact h.waiting
  | skipped => exact h.skipped

theorem Heaps.set (h : q.Heaps lt) (name : Scheduler.QueueName) {refs : List Ref}
    (hrefs : IsHeap lt refs) : (q.set name refs).Heaps lt := by
  cases name with
  | waiting => exact ⟨hrefs, h.skipped⟩
  | skipped => exact ⟨h.waiting, hrefs⟩

theorem Move.heaps (hlt : StrictWeak lt) (hm : Move .priority lt q q') (h : q.Heaps lt) :
    q'.Heaps lt := by
  cases hm with
  | @preempt v rest _ _ _ => exact ⟨h.waiting.heappush hlt v, h.skipped⟩
  | promote name _ _ _ _ => exact ⟨h.waiting, h.skipped⟩
  | @skip name v rest hpop | @load name v rest hpop _ | @enterRunning name v rest hpop _ =>
    obtain ⟨hw, hs⟩ := h.set name ((h.get name).heappop hlt hpop)
    exact ⟨hw, hs⟩
  | requeue => exact ⟨h.waiting, isHeap_foldl_heappush hlt _ h.skipped⟩

theorem Moves.heaps (hlt : StrictWeak lt) (hm : Moves .priority lt q q') (h : q.Heaps lt) :
    q'.Heaps lt := by
  induction hm with
  | refl => exact h
  | tail _ hstep ih => exact hstep.heaps hlt ih

end Queues

/-! ## The methods -/

namespace Scheduler

variable {s s' : Scheduler} {v : Ref}

/-- The waiting queues are heaps with the current fields of the requests. -/
def Heaped (s : Scheduler) : Prop := IsHeap s.lt s.waiting ∧ IsHeap s.lt s.skippedWaiting

instance (s : Scheduler) : Decidable s.Heaped := inferInstanceAs (Decidable (_ ∧ _))

theorem Heaped.of_moves (h : s.Heaped) (hsame : SameRequests s s')
    (hm : Queues.Moves .priority s.lt (s.queues []) (s'.queues [])) : s'.Heaped := by
  obtain ⟨hw, hs⟩ := hm.heaps s.lt_strictWeak ⟨h.1, h.2⟩
  rw [Heaped, hsame.lt]
  exact ⟨hw, hs⟩

theorem Heaped.of_same (h : s.Heaped) (hlt : s'.lt = s.lt) (hwait : s'.waiting = s.waiting)
    (hskip : s'.skippedWaiting = s.skippedWaiting) : s'.Heaped := by
  rw [Heaped, hlt, hwait, hskip]
  exact h

theorem Heaped.of_sameQueues (h : s.Heaped) (hsame : SameQueues s s') : s'.Heaped :=
  h.of_same hsame.lt (congrArg Queues.waiting (hsame.queues []))
    (congrArg Queues.skipped (hsame.queues []))

theorem Heaped.of_forgets (h : s.Heaped) (hf : Forgets s s') : s'.Heaped := by
  refine h.of_same ?_ hf.waiting hf.skippedWaiting
  funext x y
  rw [lt, lt, hf.req]

variable (hpolicy : cfg.policy = .priority)
include hpolicy

theorem Heaped.finishRequests (h : s.Heaped)
    {ids : Option (List RequestId)} {finishedStatus : RequestStatus}
    (hf : s.finishRequests cfg a ids finishedStatus = some s') : s'.Heaped := by
  obtain ⟨-, vs, s1, -, hw, hfin⟩ := finishRequests_cases hf
  have hlt : s'.lt = s.lt := by
    refine lt_of_same_keys fun w => ?_
    by_cases hvs : w ∈ vs
    · rw [hfin.finished w hvs, hw.req]
      exact ⟨rfl, rfl, rfl⟩
    · rw [hfin.others w hvs, hw.req]
      exact ⟨rfl, rfl, rfl⟩
  rw [Heaped, hlt, hfin.waiting, hfin.skippedWaiting]
  obtain ⟨others, -, ⟨-, hwait, hskip⟩ | ⟨hwait, hskip⟩⟩ := hw.waiting
  · rw [hwait, hskip]
    exact h
  · rw [hwait, hskip, hpolicy]
    exact ⟨isHeap_heapify s.lt_strictWeak _, isHeap_heapify s.lt_strictWeak _⟩

/-! ## Outputs -/

section

variable {out : SchedulerOutput} {m : ModelRunnerOutput} {failed : List RequestId}
  {id : RequestId} {z z' : Stops}

/-- The queue of the skipped requests is a heap; the waiting queue too, unless it will be made one
in the end. -/
def Stops.Heaped (z : Stops) : Prop :=
  (z.stoppedPreemptedReqs = [] → IsHeap z.s.lt z.s.waiting) ∧ IsHeap z.s.lt z.s.skippedWaiting

/-- A request that is in no queue is entered again. -/
theorem StopOutcome.heaped (h : StopOutcome cfg hasher s v s')
    (hreq : ∀ w, w ≠ v → s'.req w = s.req w) (hskip : v ∉ s.skippedWaiting)
    (hs : IsHeap s.lt s.skippedWaiting) :
    IsHeap s'.lt s'.skippedWaiting ∧
      (v ∉ s.waiting → IsHeap s.lt s.waiting → IsHeap s'.lt s'.waiting) := by
  have hskipped := isHeap_of_not_mem hreq hskip hs
  cases h with
  | finished streamingQueue requests _ _ hagree =>
    rw [hagree.skippedWaiting, hagree.waiting]
    exact ⟨hskipped, fun hv hw => isHeap_of_not_mem hreq hv hw⟩
  | continued update queue r _ _ hr hagree =>
    have hen := enqueues_of_agrees hagree
    set s1 : Scheduler := ({ s with
      numWaitingForStreamingInput := s.numWaitingForStreamingInput -
        if (s.req v).status = RequestStatus.waitingForStreamingReq then 1 else 0 }.modify v
          fun _ => r)
    have hlt : s'.lt = s1.lt := by
      funext x y
      rw [lt, lt, hen.req]
    rcases hen.queues with ⟨hb, -⟩ | ⟨-, hskip', hwait'⟩
    · rw [req_modify_self, (Request.updateAsSession_continues hr).status] at hb
      cases hb
    · rw [hskip', hwait', hpolicy, ← hlt]
      exact ⟨hskipped, fun hv hw =>
        (isHeap_of_not_mem hreq hv hw).heappush s'.lt_strictWeak v⟩
  | idle _ _ hagree =>
    have hen := enqueues_of_agrees hagree
    set s1 : Scheduler := ({ s with
      numWaitingForStreamingInput := s.numWaitingForStreamingInput + 1 }.modify v Request.idle)
    have hlt : s'.lt = s1.lt := by
      funext x y
      rw [lt, lt, hen.req]
    rcases hen.queues with ⟨-, hwait', hskip'⟩ | ⟨hb, -⟩
    · rw [hskip', hwait', hpolicy, ← hlt]
      exact ⟨hskipped.heappush s'.lt_strictWeak v, fun hv hw => isHeap_of_not_mem hreq hv hw⟩
    · rw [req_modify_self] at hb
      cases hb

theorem Turn.heaped (h : Turn cfg hasher out m failed id z z') (hq : z.left.Ok) (hz : z.Heaped)
    (hspares : ∀ v, z.s.requests.get? id = some v → v ∈ z.s.skippedWaiting →
      ¬z.s.StopsAt cfg m id v) : z'.Heaped := by
  cases h with
  | ignored _ => exact hz
  | goesOn v r s hf htakes hagree =>
    have hlt : s.lt = z.s.lt := by
      refine lt_of_same_keys fun w => ?_
      rw [hagree.req]
      exact ⟨field_modify Request.priority (htakes.field Request.priority fun _ => rfl) w,
        field_modify Request.arrivalTime (htakes.field Request.arrivalTime fun _ => rfl) w,
        field_modify Request.requestId htakes.requestId w⟩
    unfold Stops.Heaped
    rw [hlt, hagree.waiting, hagree.skippedWaiting]
    exact hz
  | stops v r s1 s hf htakes hagree hstop =>
    have hskip : v ∉ z.s.skippedWaiting := fun hmem =>
      hspares v htakes.request hmem htakes.stopsAt
    have hreq1 : ∀ w, w ≠ v → s1.req w = z.s.req w := by
      intro w hw
      rw [hagree.req, req_modify_of_ne _ _ hw]
    have hwait1 : s1.waiting = z.s.waiting := hagree.waiting
    have hskip1 : s1.skippedWaiting = z.s.skippedWaiting := hagree.skippedWaiting
    have hout := hstop.heaped hpolicy hstop.onlyTouches.req (hskip1 ▸ hskip)
      (hskip1 ▸ isHeap_of_not_mem hreq1 hskip hz.2)
    by_cases hrun : (z.s.req v).status = .running
    · -- a running request is not in the waiting queue
      rw [if_pos hrun]
      refine ⟨fun hnone => ?_, hout.1⟩
      have hnone' : z.stoppedPreemptedReqs = [] := hnone
      have hleft : z.left.waiting = z.s.waiting := by
        show z.s.waiting.filter (· ∉ z.stoppedPreemptedReqs) = _
        rw [hnone']
        simp
      have hnot : v ∉ z.s.waiting := by
        intro hmem
        rw [← hleft] at hmem
        exact hq.not_mem_waiting hrun
          (mem_append_left _ (mem_append_left _ hmem))
      exact hout.2 (hwait1 ▸ hnot) (hwait1 ▸ isHeap_of_not_mem hreq1 hnot (hz.1 hnone'))
    · rw [if_neg hrun]
      refine ⟨fun hnone => ?_, hout.1⟩
      have hmem : v ∈ z.stoppedPreemptedReqs.insert v := mem_insert_self
      have hnone' : z.stoppedPreemptedReqs.insert v = [] := hnone
      rw [hnone'] at hmem
      exact absurd hmem not_mem_nil

theorem removeStopped_heaped (hz : z.Heaped) :
    (removeStopped cfg z).Heaped := by
  unfold removeStopped
  split
  · rename_i hnone
    exact ⟨hz.1 hnone, hz.2⟩
  · rw [hpolicy]
    exact ⟨isHeap_heapify z.s.lt_strictWeak _, hz.2⟩

theorem Heaped.updateFromOutput (h : s.Heaped) (hq : s.Queued)
    (hspares : s.Spares cfg out m) (hs : s.updateFromOutput cfg hasher a out m = some s') :
    s'.Heaped := by
  refine (hq.orderly.updateFromOutput_invariant Heaped (fun z => z.Heaped ∧ z.left.Ok) hs
    (fun s1 hsame => ?_) ?_ ?_ ?_).2
  · have h1 := h.of_sameQueues hsame
    have hspares1 := hspares.of_sameQueues hsame
    refine ⟨⟨⟨fun _ => h1.1, h1.2⟩, left_start s1 ▸ (hq.of_sameQueues hsame).ok⟩, ?_⟩
    rintro failed id n z z' hmem hun ⟨hz, hqz⟩ hturn
    have hid := mem_map_of_mem (f := Prod.fst) hmem
    have hturn1 := hspares1.at_turn hid hun
    exact ⟨hturn.heaped hpolicy hqz hz hturn1, hturn.left_ok hqz hturn1⟩
  · exact fun z hz _ _ => removeStopped_heaped hpolicy hz.1
  · exact fun s s' ids status _ h hf => h.finishRequests hpolicy hf
  · exact fun s s' _ h hf => h.of_forgets hf

end

/-! ## New requests -/

theorem Heaped.addNewRequest (h : s.Heaped) (hq : s.Queued)
    (r : Request) : (s.addNewRequest cfg r).Heaped := by
  obtain ⟨r', hadds⟩ := addNewRequest_adds cfg s r
  set s' := s.addNewRequest cfg r
  -- the reference is fresh
  have hfresh : s.nextRef ∉ (s.queues []).members := fun hmem =>
    absurd (hq.bounded _ _ (hq.registered _ hmem)) (Nat.lt_irrefl _)
  rw [mem_running_or_waiting] at hfresh
  have hwait : IsHeap s'.lt s.waiting :=
    isHeap_of_not_mem hadds.others (fun hmem => hfresh (.inr (.inl hmem))) h.1
  have hskip : IsHeap s'.lt s.skippedWaiting :=
    isHeap_of_not_mem hadds.others (fun hmem => hfresh (.inr (.inr hmem))) h.2
  rw [Heaped]
  rcases hadds.queues with ⟨hw, hs⟩ | ⟨hs, hw⟩ <;> rw [hw, hs, hpolicy]
  · exact ⟨hwait, hskip.heappush s'.lt_strictWeak _⟩
  · exact ⟨hwait.heappush s'.lt_strictWeak _, hskip⟩

/-- The scheduler after the arrival time of a request changed. -/
def arriving (s : Scheduler) (v : Ref) (arrivalTime : ℤ) : Scheduler :=
  s.modify v fun r => { r with arrivalTime }

/-- If the input continues a session, the queues are still heaps with its arrival time. -/
def InputKeepsHeaps (s : Scheduler) (q : Request.EngineCoreRequest) : Prop :=
  ∀ v ∈ s.requests.get? q.requestId, (s.req v).status = .waitingForStreamingReq →
    q.resumable = true → (s.arriving v q.arrivalTime).Heaped

instance (s : Scheduler) (q : Request.EngineCoreRequest) : Decidable (s.InputKeepsHeaps q) :=
  inferInstanceAs (Decidable (∀ v ∈ _, _ → _ → Heaped _))

theorem Heaped.addRequest (h : s.Heaped) (hq : s.Queued)
    {q : Request.EngineCoreRequest} (hkeeps : s.InputKeepsHeaps q)
    (hs : s.addRequest cfg hasher a q = some s') : s'.Heaped := by
  obtain ⟨r, harrives, hadds⟩ := addRequest_cases hs
  cases hadds with
  | new hnew => exact h.addNewRequest hpolicy hq r
  | queued v queue hv hstatus hqueue =>
    refine h.of_same (lt_of_same_keys fun w => ?_) rfl rfl
    exact ⟨field_modify Request.priority rfl w, field_modify Request.arrivalTime rfl w,
      field_modify Request.requestId rfl w⟩
  | continued v update r' hv hstatus hupdate hr' =>
    have hcont := Request.updateAsSession_continues hr'
    obtain ⟨hres, -, harrival, -⟩ := Request.toStreamingUpdate_eq_some hupdate
    have harrival : r'.arrivalTime = q.arrivalTime := by
      rw [hcont.arrivalTime, harrival, harrives.arrivalTime]
    rw [harrives.requestId] at hv
    have hheaps := hkeeps v hv hstatus (harrives.resumable ▸ hres)
    refine hheaps.of_same (lt_of_same_keys fun w => ?_) rfl rfl
    by_cases hw : w = v
    · rw [hw, arriving, req_modify_self, req_modify_self]
      exact ⟨hcont.priority, harrival, hcont.requestId⟩
    · rw [arriving, req_modify_of_ne _ _ hw, req_modify_of_ne _ _ hw]
      exact ⟨rfl, rfl, rfl⟩
  | closed v s' hv hstatus hfin => exact h.finishRequests hpolicy hfin

/-! ## The selection -/

/-- A request can be selected, and the one that is selected comes first. -/
def HeadIsFirst (cfg : SchedulerConfig) (s : Scheduler) : Prop :=
  ∃ name v, s.selectWaitingQueueForScheduling cfg = some name ∧
    RequestQueue.peekRequest (s.queue name) = some v ∧
    ∀ w ∈ s.waiting ++ s.skippedWaiting, ¬(s.req w).Precedes (s.req v)

theorem Heaped.headIsFirst (h : s.Heaped)
    (hsome : s.waiting ≠ [] ∨ s.skippedWaiting ≠ []) : s.HeadIsFirst cfg := by
  -- it is enough that no request is before the selected one
  suffices hfirst : ∃ name v, s.selectWaitingQueueForScheduling cfg = some name ∧
      RequestQueue.peekRequest (s.queue name) = some v ∧
      ∀ w ∈ s.waiting ++ s.skippedWaiting, s.lt w v = false by
    obtain ⟨name, v, hselect, hpeek, hmin⟩ := hfirst
    refine ⟨name, v, hselect, hpeek, fun w hw hprec => ?_⟩
    have hlt : s.lt w v = true := (Request.lt_iff ..).mpr (.inl hprec)
    rw [hmin w hw] at hlt
    cases hlt
  have hlt := s.lt_strictWeak
  unfold selectWaitingQueueForScheduling
  rw [hpolicy]
  match hw : s.waiting, hs : s.skippedWaiting with
  | [], [] =>
    rw [hw, hs] at hsome
    rcases hsome with hne | hne <;> exact absurd rfl hne
  | v :: vs, [] =>
    refine ⟨.waiting, v, rfl, by rw [queue, hw]; rfl, fun w hmem => ?_⟩
    rw [append_nil] at hmem
    exact h.1.not_lt_head hlt (by rw [hw]; rfl) (hw ▸ hmem)
  | [], u :: us =>
    refine ⟨.skipped, u, rfl, by rw [queue, hs]; rfl, fun w hmem => ?_⟩
    exact h.2.not_lt_head hlt (by rw [hs]; rfl) (hs ▸ hmem)
  | v :: vs, u :: us =>
    have hv : ∀ w ∈ v :: vs, s.lt w v = false := fun w hmem =>
      h.1.not_lt_head hlt (by rw [hw]; rfl) (hw ▸ hmem)
    have hu : ∀ w ∈ u :: us, s.lt w u = false := fun w hmem =>
      h.2.not_lt_head hlt (by rw [hs]; rfl) (hs ▸ hmem)
    dsimp only
    by_cases hvu : s.lt v u = true
    · rw [if_pos hvu]
      refine ⟨.waiting, v, rfl, by rw [queue, hw]; rfl, fun w hmem => ?_⟩
      rcases mem_append.mp hmem with hmem | hmem
      · exact hv w hmem
      · exact hlt.negTrans w u v (hu w hmem) (hlt.asymm v u hvu)
    · rw [if_neg hvu]
      refine ⟨.skipped, u, rfl, by rw [queue, hs]; rfl, fun w hmem => ?_⟩
      rcases mem_append.mp hmem with hmem | hmem
      · exact hlt.negTrans w v u (hv w hmem) (by simpa using hvu)
      · exact hu w hmem

end Scheduler

/-- The loop over the waiting requests gets from `p` to a turn that starts in `p'`, where the queue
is selected. -/
inductive Pass.Selects (cfg : SchedulerConfig) (a : Answers) : Pass → Pass → Prop
  | here {p : Pass} : p.admitting cfg → Selects cfg a p p
  | later {p p1 p' : Pass} : p.admitting cfg → p.waitingTurn cfg a = some (true, p1) →
      Selects cfg a p1 p' → Selects cfg a p p'

theorem Pass.Selects.follows {p p' : Pass} (h : Selects cfg a p p') :
    Follows cfg p p' ∧ p'.admitting cfg := by
  induction h with
  | here hadm => exact ⟨.refl _, hadm⟩
  | later _ hturn _ ih => exact ⟨(waitingTurn_cases hturn).follows.trans ih.1, ih.2⟩

namespace Scheduler

variable {s : Scheduler}

/-- `schedule` gets to a call of `_select_waiting_queue_for_scheduling`. -/
def SelectsAt (cfg : SchedulerConfig) (a : Answers) (s : Scheduler) (p' : Pass) : Prop :=
  ∃ p0 p, s.runningPart cfg a = some p0 ∧ p0.recordLoras cfg = some p ∧ p.preemptedReqs = [] ∧
    p.s.pauseState = .unpaused ∧ Pass.Selects cfg a p p'

theorem Heaped.selectsAt (hpolicy : cfg.policy = .priority) (h : s.Heaped) {p' : Pass}
    (hsel : s.SelectsAt cfg a p') : p'.s.HeadIsFirst cfg := by
  obtain ⟨p0, p, hrun, hloras, -, -, hsel⟩ := hsel
  obtain ⟨hfollows, hadm⟩ := hsel.follows
  have hall : Pass.Follows cfg (Pass.start cfg s) p' :=
    (Pass.runningPart_runs hrun).toFollows.trans ((Pass.recordLoras_follows hloras).trans hfollows)
  have hheaps : p'.queues.Heaps s.lt := by
    have hmoves := hall.moves
    rw [hpolicy] at hmoves
    exact hmoves.heaps s.lt_strictWeak ⟨h.1, h.2⟩
  refine Heaped.headIsFirst hpolicy ?_ hadm.1
  have hlt : p'.s.lt = s.lt := hall.same.lt
  rw [Heaped, hlt]
  exact ⟨hheaps.waiting, hheaps.skipped⟩

end Scheduler

/-! ## Runs -/

namespace Engine

/-- The next input of a session leaves the queues heaps, and no skipped request stops. -/
def KeepsHeaps (cfg : SchedulerConfig) (e : Engine) : Event → Prop
  | .addRequest q _ => e.s.InputKeepsHeaps q
  | .updateFromOutput m _ => ∀ out ∈ e.inFlight.head?, e.s.Spares cfg out m
  | _ => True

instance (e : Engine) (ev : Event) : Decidable (e.KeepsHeaps cfg ev) :=
  match ev with
  | .addRequest q _ => inferInstanceAs (Decidable (e.s.InputKeepsHeaps q))
  | .updateFromOutput m _ =>
    inferInstanceAs (Decidable (∀ out ∈ e.inFlight.head?, e.s.Spares cfg out m))
  | .finishRequests _ _ _ | .schedule _ | .updateDraftTokenIds _ | .resetPrefixCache _
  | .resetEncoderCache | .setPauseState _ => isTrue trivial

theorem KeepsHeaps.spares {e : Engine} {ev : Event} (h : e.KeepsHeaps cfg ev) :
    e.Spares cfg ev := by
  cases ev with
  | updateFromOutput m a => exact h
  | _ => trivial

theorem step_heaped (hpolicy : cfg.policy = .priority) {e e' : Engine} {ev : Event}
    (h : e.s.Heaped) (hq : e.s.Queued) (hkeeps : e.KeepsHeaps cfg ev)
    (hstep : e.step cfg hasher ev = some e') : e'.s.Heaped := by
  cases step_acts hstep with
  | addRequest q a hs => exact h.addRequest hpolicy hq hkeeps hs
  | finishRequests ids status a hs => exact h.finishRequests hpolicy hs
  | updateFromOutput m a out hout hs => exact h.updateFromOutput hpolicy hq (hkeeps out hout) hs
  | moves _ hsame hmoves => exact h.of_moves hsame (hpolicy ▸ hmoves)

/-- **Priority order.** Whenever a queue is selected in a run in which the inputs of sessions leave
heaps, the request at its head comes first among all waiting requests. -/
theorem head_is_first (hpolicy : cfg.policy = .priority) {kv : KVCacheManager}
    {enc : EncoderCacheManager} {e : Engine}
    (h : Reach (step cfg hasher) (KeepsHeaps cfg) (init kv enc) e) {p : Pass}
    (hsel : e.s.SelectsAt cfg a p) : p.s.HeadIsFirst cfg := by
  have hinv : e.s.Heaped ∧ e.s.Queued := by
    refine h.invariant (fun e => e.s.Heaped ∧ e.s.Queued) ?_ ?_
    · exact ⟨⟨isHeap_nil _, isHeap_nil _⟩, Scheduler.queued_init kv enc⟩
    · rintro e ev e' ⟨hheap, hq⟩ hkeeps hstep
      exact ⟨step_heaped hpolicy hheap hq hkeeps hstep, step_queued hq hkeeps.spares hstep⟩
  exact hinv.1.selectsAt hpolicy hsel

/-! ## Two sessions -/

def orderConfig : SchedulerConfig where
  policy := .priority
  maxNumRunningReqs := 2
  maxNumScheduledTokens := 8
  maxModelLen := 16
  blockSize := 4

/-- An input of a session that asks for one token. -/
def sessionInput (id : RequestId) (arrivalTime : ℤ) : Request.EngineCoreRequest where
  requestId := id
  promptTokenIds := [1, 2]
  maxTokens := 1
  arrivalTime := arrivalTime
  resumable := true

/-- The sessions 0 and 1 come at the times 1 and 2, get their tokens and wait for their next inputs;
then an input for the session `id` comes at the time 10. -/
def twoSessions (id : RequestId) : List Event :=
  [.addRequest (sessionInput 0 1) {}, .addRequest (sessionInput 1 2) {}, .schedule {},
    .updateFromOutput { sampledTokenIds := fun _ => [7] } {}, .addRequest (sessionInput id 10) {}]

/-- The place where the next pass selects a queue for the first time. -/
def nextSelection (e : Engine) : Option Pass :=
  (e.s.runningPart orderConfig {}).bind fun p => p.recordLoras orderConfig

theorem selectsAt_of_nextSelection {e : Engine} {p : Pass} (h : e.nextSelection = some p)
    (hpre : p.preemptedReqs = []) (hpause : p.s.pauseState = .unpaused)
    (hadm : p.admitting orderConfig) : e.s.SelectsAt orderConfig {} p := by
  obtain ⟨p0, hp0, hp⟩ := Option.bind_eq_some_iff.mp h
  exact ⟨p0, p, hp0, hp, hpre, hpause, .here hadm⟩

/-- The first session stays at the head with its new arrival time, although the second one now
comes before it. -/
theorem arrival_breaks_order : ∃ e0 e p, startFull 8 16 = some e0 ∧
    run (step orderConfig fun _ => some []) e0 (twoSessions 0) = some e ∧
    e.s.SelectsAt orderConfig {} p ∧
    p.s.selectWaitingQueueForScheduling orderConfig = some .skipped ∧
    p.s.skippedWaiting = [0, 1] ∧ (p.s.req 1).Precedes (p.s.req 0) ∧
    ¬p.s.HeadIsFirst orderConfig := by
  obtain ⟨e0, he0, e, he, p, hp, hpre, hpause, hadm, hselect, hqueue, hprec⟩ :
      ∃ e0 ∈ startFull 8 16, ∃ e ∈ run (step orderConfig fun _ => some []) e0 (twoSessions 0),
        ∃ p ∈ e.nextSelection,
        p.preemptedReqs = [] ∧ p.s.pauseState = .unpaused ∧ p.admitting orderConfig ∧
        p.s.selectWaitingQueueForScheduling orderConfig = some .skipped ∧
        p.s.skippedWaiting = [0, 1] ∧ (p.s.req 1).Precedes (p.s.req 0) := by
    decide +kernel
  refine ⟨e0, e, p, he0, he, selectsAt_of_nextSelection hp hpre hpause hadm, hselect, hqueue,
    hprec, ?_⟩
  rintro ⟨name, v, hname, hpeek, hfirst⟩
  rw [hselect] at hname
  cases hname
  rw [Scheduler.queue, hqueue] at hpeek
  cases hpeek
  refine hfirst 1 ?_ hprec
  rw [hqueue]
  exact mem_append_right _ (by decide)

/-- A later arrival of the second session keeps the order. -/
theorem second_session_keeps_order : ∃ kv e p,
    Reach (step orderConfig fun _ => some []) (KeepsHeaps orderConfig) (init kv (.init false 0)) e ∧
    e.s.SelectsAt orderConfig {} p ∧ p.s.skippedWaiting = [0, 1] ∧
    p.s.HeadIsFirst orderConfig := by
  obtain ⟨e0, he0, e, he, p, hp, hpre, hpause, hadm, hqueue⟩ : ∃ e0 ∈ startFull 8 16,
      ∃ e ∈ run (guarded (KeepsHeaps orderConfig) (step orderConfig fun _ => some [])) e0
        (twoSessions 1),
        ∃ p ∈ e.nextSelection, p.preemptedReqs = [] ∧ p.s.pauseState = .unpaused ∧
        p.admitting orderConfig ∧ p.s.skippedWaiting = [0, 1] := by
    decide +kernel
  obtain ⟨kv, -, rfl⟩ := Option.map_eq_some_iff.mp he0
  have hreach := Reach.of_guarded_run .init he
  have hsel := selectsAt_of_nextSelection hp hpre hpause hadm
  exact ⟨kv, e, p, hreach, hsel, hqueue, head_is_first rfl hreach hsel⟩

end Engine

end Nvllm.Sched
