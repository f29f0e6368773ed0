import Nvllm.Sched.QueueMoves

/-! # Which requests are in the queues

`Queues.Ok` says that the running queue holds running requests and the waiting queues hold requests
that are neither running nor finished, each of them once. The moves of a pass keep it, and they
neither lose nor add a request.
-/

namespace Nvllm.Sched

open Nvllm.KVCache List

namespace Queues

/-- The requests that wait. -/
def inWaiting (q : Queues) : List Ref := q.waiting ++ q.skipped ++ q.step

def members (q : Queues) : List Ref := q.running ++ q.inWaiting

/-- Requests are in the queues that their statuses allow, and only once. -/
structure Ok (q : Queues) : Prop where
  running_nodup : q.running.Nodup
  running : ∀ v ∈ q.running, q.status v = .running
  waiting_nodup : q.inWaiting.Nodup
  waiting : ∀ v ∈ q.inWaiting, q.status v ≠ .running ∧ (q.status v).isFinished = false

variable {policy : SchedulingPolicy} {lt : Ref → Ref → Bool} {q q' : Queues} {v : Ref}

theorem Ok.not_mem_running (h : q.Ok) (hv : q.status v ≠ .running) : v ∉ q.running :=
  fun hmem => hv (h.running v hmem)

theorem Ok.not_mem_waiting (h : q.Ok) (hv : q.status v = .running) : v ∉ q.inWaiting :=
  fun hmem => (h.waiting v hmem).1 hv

theorem Ok.live (h : q.Ok) (hv : v ∈ q.members) : (q.status v).isFinished = false := by
  rcases mem_append.mp hv with hv | hv
  · rw [h.running v hv]
    rfl
  · exact (h.waiting v hv).2

/-- Only the contents count. -/
theorem Ok.of_perm (h : q.Ok) (hstatus : q'.status = q.status) (hrun : q'.running.Perm q.running)
    (hwait : q'.inWaiting.Perm q.inWaiting) : q'.Ok where
  running_nodup := hrun.nodup_iff.mpr h.running_nodup
  running v hv := by
    rw [hstatus]
    exact h.running v (hrun.mem_iff.mp hv)
  waiting_nodup := hwait.nodup_iff.mpr h.waiting_nodup
  waiting v hv := by
    rw [hstatus]
    exact h.waiting v (hwait.mem_iff.mp hv)

/-- The status of a request that is not running changes, but not to running or finished. -/
theorem Ok.setStatus (h : q.Ok) {status : RequestStatus} (hv : v ∉ q.running)
    (hstatus : status ≠ .running ∧ status.isFinished = false) : (q.setStatus v status).Ok where
  running_nodup := h.running_nodup
  running w hw := by
    have hne : w ≠ v := fun heq => hv (heq ▸ hw)
    exact (Function.update_of_ne hne ..).trans (h.running w hw)
  waiting_nodup := h.waiting_nodup
  waiting w hw := by
    show Function.update q.status v status w ≠ _ ∧
      (Function.update q.status v status w).isFinished = false
    by_cases hne : w = v
    · rw [hne, Function.update_self]
      exact hstatus
    · rw [Function.update_of_ne hne]
      exact h.waiting w hw

/-- A request that waits is taken from the running ones. -/
theorem Ok.runToWait (h : q.Ok) {rest : List Ref} (hrun : q.running.Perm (v :: rest))
    (hq : q'.running = rest) (hwait : q'.inWaiting.Perm (v :: q.inWaiting))
    (status : RequestStatus) (hstatus : status ≠ .running ∧ status.isFinished = false)
    (hs : q'.status = Function.update q.status v status) : q'.Ok := by
  obtain ⟨hv, hnd⟩ := nodup_cons.mp (hrun.nodup_iff.mp h.running_nodup)
  have hold := h.running v (hrun.mem_iff.mpr mem_cons_self)
  refine ⟨hq ▸ hnd, fun w hw => ?_,
    hwait.nodup_iff.mpr (nodup_cons.mpr ⟨h.not_mem_waiting hold, h.waiting_nodup⟩),
    fun w hw => ?_⟩
  · rw [hq] at hw
    have hne : w ≠ v := fun heq => hv (heq ▸ hw)
    rw [hs, Function.update_of_ne hne]
    exact h.running w (hrun.mem_iff.mpr (mem_cons_of_mem v hw))
  · rw [hs]
    by_cases hne : w = v
    · rw [hne, Function.update_self]
      exact hstatus
    · rw [Function.update_of_ne hne]
      exact h.waiting w ((mem_cons.mp (hwait.mem_iff.mp hw)).resolve_left hne)

/-- A waiting request becomes a running one. -/
theorem Ok.waitToRun (h : q.Ok) (hwait : q.inWaiting.Perm (v :: q'.inWaiting))
    (hrun : q'.running = q.running ++ [v])
    (hs : q'.status = Function.update q.status v .running) : q'.Ok := by
  obtain ⟨hv, hnd⟩ := nodup_cons.mp (hwait.nodup_iff.mp h.waiting_nodup)
  have hold := h.waiting v (hwait.mem_iff.mpr mem_cons_self)
  refine ⟨?_, fun w hw => ?_, hnd, fun w hw => ?_⟩
  · rw [hrun]
    exact (perm_append_singleton v _).nodup_iff.mpr
      (nodup_cons.mpr ⟨h.not_mem_running hold.1, h.running_nodup⟩)
  · rw [hs]
    by_cases hne : w = v
    · rw [hne, Function.update_self]
    · rw [Function.update_of_ne hne]
      rw [hrun] at hw
      rcases mem_append.mp hw with hw | hw
      · exact h.running w hw
      · exact absurd (mem_singleton.mp hw) hne
  · have hne : w ≠ v := fun heq => hv (heq ▸ hw)
    rw [hs, Function.update_of_ne hne]
    exact h.waiting w (hwait.mem_iff.mpr (mem_cons_of_mem v hw))

/-- Requests leave the queues. -/
theorem Ok.of_subperm (h : q.Ok) (hstatus : ∀ v ∈ q'.members, q'.status v = q.status v)
    (hrun : q'.running.Sublist q.running) (hwait : q'.inWaiting.Subperm q.inWaiting) : q'.Ok where
  running_nodup := h.running_nodup.sublist hrun
  running v hv := by
    rw [hstatus v (mem_append_left _ hv)]
    exact h.running v (hrun.subset hv)
  waiting_nodup := by
    obtain ⟨l, hperm, hsub⟩ := hwait
    exact hperm.nodup_iff.mp (h.waiting_nodup.sublist hsub)
  waiting v hv := by
    rw [hstatus v (mem_append_right _ hv)]
    exact h.waiting v (hwait.subset hv)

/-- A request that is in no queue starts to wait. -/
theorem Ok.enqueue (h : q.Ok) (hv : v ∉ q.members) (hrun : q'.running = q.running)
    (hwait : q'.inWaiting.Perm (v :: q.inWaiting)) (hothers : ∀ w, w ≠ v → q'.status w = q.status w)
    (hstatus : q'.status v ≠ .running ∧ (q'.status v).isFinished = false) : q'.Ok where
  running_nodup := hrun ▸ h.running_nodup
  running w hw := by
    rw [hrun] at hw
    have hne : w ≠ v := fun heq => hv (heq ▸ mem_append_left _ hw)
    rw [hothers w hne]
    exact h.running w hw
  waiting_nodup := by
    refine hwait.nodup_iff.mpr (nodup_cons.mpr ⟨?_, h.waiting_nodup⟩)
    exact fun hmem => hv (mem_append_right _ hmem)
  waiting w hw := by
    by_cases hne : w = v
    · rw [hne]
      exact hstatus
    · rw [hothers w hne]
      exact h.waiting w ((mem_cons.mp (hwait.mem_iff.mp hw)).resolve_left hne)

/-- The queues without a request. -/
def without (q : Queues) (v : Ref) : Queues :=
  { q with
    running := q.running.filter (· ≠ v)
    waiting := q.waiting.filter (· ≠ v)
    skipped := q.skipped.filter (· ≠ v)
    step := q.step.filter (· ≠ v) }

theorem inWaiting_without (q : Queues) (v : Ref) :
    (q.without v).inWaiting = q.inWaiting.filter (· ≠ v) := by
  simp only [without, inWaiting, filter_append]

theorem members_without (q : Queues) (v : Ref) :
    (q.without v).members = q.members.filter (· ≠ v) := by
  simp only [members, inWaiting_without, filter_append]
  rfl

theorem mem_without {w : Ref} : w ∈ (q.without v).members ↔ w ∈ q.members ∧ w ≠ v := by
  rw [members_without, mem_filter, decide_eq_true_eq]

/-- A request leaves the queues, or leaves them and waits again. -/
theorem Ok.touched (h : q.Ok) (hothers : ∀ w, w ≠ v → q'.status w = q.status w)
    (hrun : q'.running = (q.without v).running) (hwait : q'.inWaiting.Perm (q.without v).inWaiting ∨
      q'.inWaiting.Perm (v :: (q.without v).inWaiting) ∧
        q'.status v ≠ .running ∧ (q'.status v).isFinished = false) : q'.Ok := by
  -- the queues without `v`, with the new statuses
  set q0 : Queues := { q.without v with status := q'.status }
  have hok : q0.Ok := by
    refine h.of_subperm (fun w hw => hothers w (mem_without.mp hw).2) filter_sublist ?_
    have hwaiting : q0.inWaiting = q.inWaiting.filter (· ≠ v) := inWaiting_without q v
    rw [hwaiting]
    exact filter_sublist.subperm
  rcases hwait with hp | ⟨hp, hstatus⟩
  · exact hok.of_perm rfl (hrun ▸ Perm.refl _) hp
  · refine hok.enqueue (v := v) (fun hmem => ?_) hrun hp (fun _ _ => rfl) hstatus
    exact (mem_without.mp hmem).2 rfl

/-- The waiting requests after the head of a queue is taken. -/
theorem perm_of_pop {name : Scheduler.QueueName} {rest : List Ref}
    (h : RequestQueue.popRequest policy lt (q.get name) = some (v, rest)) :
    q.inWaiting.Perm (v :: (q.set name rest).inWaiting) := by
  have hperm := RequestQueue.popRequest_perm policy lt h
  cases name with
  | waiting => exact (hperm.append_right q.skipped).append_right q.step
  | skipped =>
    calc (q.waiting ++ q.skipped ++ q.step).Perm (q.waiting ++ (v :: rest) ++ q.step) :=
          (hperm.append_left q.waiting).append_right q.step
      Perm _ (v :: (q.waiting ++ rest ++ q.step)) := by
          rw [append_assoc, cons_append, append_assoc]
          exact perm_middle

/-- The head of a queue joins those skipped in this pass. -/
theorem perm_of_skip {name : Scheduler.QueueName} {rest : List Ref}
    (h : RequestQueue.popRequest policy lt (q.get name) = some (v, rest)) :
    (Queues.inWaiting { q.set name rest with
      step := RequestQueue.prependRequest policy lt v q.step }).Perm q.inWaiting := by
  refine Perm.trans ?_ (perm_of_pop h).symm
  have hstep := RequestQueue.prependRequest_perm policy lt v q.step
  cases name <;> exact (hstep.append_left _).trans perm_middle

/-! ## Moves -/

theorem Move.ok (hm : Move policy lt q q') (h : q.Ok) : q'.Ok := by
  cases hm with
  | @preempt v rest hperm hsub hrun =>
    refine h.runToWait hperm rfl ?_ .preempted ⟨by decide, rfl⟩ rfl
    exact ((RequestQueue.prependRequest_perm policy lt v q.waiting).append_right _).append_right _
  | @promote name v status hpeek hblocked hinput hstatus =>
    refine h.setStatus (h.not_mem_running ?_) ?_
    · intro hrun
      rw [hrun] at hblocked
      cases hblocked
    · rcases hstatus with rfl | rfl <;> exact ⟨by decide, rfl⟩
  | @skip name v rest hpop =>
    exact h.of_perm (by cases name <;> rfl) (by cases name <;> exact Perm.refl _)
      (perm_of_skip hpop)
  | @load name v rest hpop hfree =>
    have hmem : v ∈ q.inWaiting := (perm_of_pop hpop).mem_iff.mpr mem_cons_self
    have hskip : Ok { q.set name rest with
        step := RequestQueue.prependRequest policy lt v q.step } :=
      h.of_perm (by cases name <;> rfl) (by cases name <;> exact Perm.refl _)
        (perm_of_skip hpop)
    refine hskip.setStatus ?_ ⟨by decide, rfl⟩
    have hnot := h.not_mem_running (h.waiting v hmem).1
    cases name <;> exact hnot
  | @enterRunning name v rest hpop hstatus =>
    refine h.waitToRun (v := v) ?_ rfl (by cases name <;> rfl)
    refine (perm_of_pop hpop).trans ?_
    cases name <;> exact Perm.refl _
  | requeue =>
    refine h.of_perm rfl (Perm.refl _) ?_
    show (q.waiting ++ RequestQueue.prependRequests policy lt q.step q.skipped ++ []).Perm
      (q.waiting ++ q.skipped ++ q.step)
    rw [append_nil, append_assoc]
    apply Perm.append_left
    exact (RequestQueue.prependRequests_perm policy lt q.step q.skipped).trans
      perm_append_comm

/-- A move neither loses nor adds a request. -/
theorem Move.members_perm (hm : Move policy lt q q') : q'.members.Perm q.members := by
  cases hm with
  | @preempt v rest hperm hsub hrun =>
    have hwait : (RequestQueue.prependRequest policy lt v q.waiting ++ q.skipped ++ q.step).Perm
        (v :: q.inWaiting) :=
      ((RequestQueue.prependRequest_perm policy lt v q.waiting).append_right _).append_right _
    calc (rest ++ (RequestQueue.prependRequest policy lt v q.waiting ++ q.skipped ++ q.step)).Perm
          (rest ++ v :: q.inWaiting) := hwait.append_left rest
      Perm _ (v :: rest ++ q.inWaiting) := perm_middle
      Perm _ (q.running ++ q.inWaiting) := hperm.symm.append_right _
  | promote name hpeek hblocked hinput hstatus => exact Perm.refl _
  | @skip name v rest hpop | @load name v rest hpop hfree =>
    cases name <;> exact (perm_of_skip hpop).append_left q.running
  | @enterRunning name v rest hpop hstatus =>
    have hwait := perm_of_pop hpop
    calc ((q.running ++ [v]) ++ (q.set name rest).inWaiting).Perm
          (q.running ++ (v :: (q.set name rest).inWaiting)) := by
          rw [append_assoc]
          exact Perm.refl _
      Perm _ (q.running ++ q.inWaiting) := hwait.symm.append_left _
  | requeue =>
    apply Perm.append_left
    show (q.waiting ++ RequestQueue.prependRequests policy lt q.step q.skipped ++ []).Perm
      (q.waiting ++ q.skipped ++ q.step)
    rw [append_nil, append_assoc]
    apply Perm.append_left
    exact (RequestQueue.prependRequests_perm policy lt q.step q.skipped).trans
      perm_append_comm

theorem Moves.ok (hm : Moves policy lt q q') (h : q.Ok) : q'.Ok := by
  induction hm with
  | refl => exact h
  | tail _ hstep ih => exact hstep.ok ih

theorem Moves.members_perm (hm : Moves policy lt q q') : q'.members.Perm q.members := by
  induction hm with
  | refl => exact Perm.refl _
  | tail _ hstep ih => exact hstep.members_perm.trans ih

/-- At most one request gets another status. It was live before, and neither before nor after does
it wait for the next input of its session. -/
theorem Move.status_cases (hm : Move policy lt q q') : q'.status = q.status ∨
    ∃ v status, q'.status = Function.update q.status v status ∧ status.isFinished = false ∧
      status ≠ .waitingForStreamingReq ∧ q.status v ≠ .waitingForStreamingReq ∧
      (q.Ok → (q.status v).isFinished = false) := by
  have hhead : ∀ {name : Scheduler.QueueName} {v : Ref} {rest : List Ref},
      RequestQueue.popRequest policy lt (q.get name) = some (v, rest) → q.Ok →
      (q.status v).isFinished = false := fun hpop h =>
    (h.waiting _ ((perm_of_pop hpop).mem_iff.mpr mem_cons_self)).2
  cases hm with
  | @preempt v rest hperm hsub hrun =>
    exact .inr ⟨v, .preempted, rfl, rfl, by decide, by rw [hrun]; decide,
      fun _ => by rw [hrun]; rfl⟩
  | @promote name v status hpeek hblocked hinput hstatus =>
    refine .inr ⟨v, status, rfl, ?_, ?_, hinput, fun _ => ?_⟩
    · rcases hstatus with rfl | rfl <;> rfl
    · rcases hstatus with rfl | rfl <;> decide
    · cases hst : q.status v <;> rw [hst] at hblocked <;> first | rfl | cases hblocked
  | @skip name v rest hpop => cases name <;> exact .inl rfl
  | @load name v rest hpop hfree =>
    have hne : q.status v ≠ .waitingForStreamingReq := fun heq => by
      rw [heq] at hfree
      cases hfree
    cases name <;> exact .inr ⟨v, .waitingForRemoteKvs, rfl, rfl, by decide, hne, hhead hpop⟩
  | @enterRunning name v rest hpop hstatus =>
    have hne : q.status v ≠ .waitingForStreamingReq := by
      rcases hstatus with heq | heq <;> rw [heq] <;> decide
    cases name <;> exact .inr ⟨v, .running, rfl, rfl, by decide, hne, hhead hpop⟩
  | requeue => exact .inl rfl

/-- A move neither finishes a request nor revives one. -/
theorem Move.isFinished (hm : Move policy lt q q') (h : q.Ok) (w : Ref) :
    (q'.status w).isFinished = (q.status w).isFinished := by
  rcases hm.status_cases with heq | ⟨v, status, heq, hnew, -, -, hold⟩ <;> rw [heq]
  by_cases hw : w = v
  · rw [hw, Function.update_self, hold h, hnew]
  · rw [Function.update_of_ne hw]

theorem Moves.isFinished (hm : Moves policy lt q q') (h : q.Ok) (w : Ref) :
    (q'.status w).isFinished = (q.status w).isFinished := by
  induction hm with
  | refl => rfl
  | tail hprev hstep ih => rw [hstep.isFinished (Moves.ok hprev h), ih]

/-- A pass does not touch sessions that wait for their next input. -/
theorem Move.streaming (hm : Move policy lt q q') (w : Ref) :
    q'.status w = .waitingForStreamingReq ↔ q.status w = .waitingForStreamingReq := by
  rcases hm.status_cases with heq | ⟨v, status, heq, -, hnew, hold, -⟩ <;> rw [heq]
  by_cases hw : w = v
  · rw [hw, Function.update_self]
    exact iff_of_false hnew hold
  · rw [Function.update_of_ne hw]

theorem Moves.streaming (hm : Moves policy lt q q') (w : Ref) :
    q'.status w = .waitingForStreamingReq ↔ q.status w = .waitingForStreamingReq := by
  induction hm with
  | refl => exact .rfl
  | tail _ hstep ih => exact (hstep.streaming w).trans ih

end Queues

end Nvllm.Sched
