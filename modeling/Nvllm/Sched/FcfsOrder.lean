import Nvllm.Sched.LoraLimit

/-! # First come, first served

With the FCFS policy the waiting requests form one line, `skipped_waiting` followed by `waiting`.
Every turn of the loop over the waiting requests looks at the head of the line. It stops there, or
it takes the head away: the request is admitted, or it joins those skipped in the pass. These are
collected in reverse, and `prepend_requests` reverses them again, so that in the end they stand
before the rest of the line in their old order.
-/

namespace Nvllm.Sched

open Nvllm.Run List Option

namespace Queues

/-- The waiting requests in the order in which FCFS looks at them. -/
def line (q : Queues) : List Ref := q.skipped ++ q.waiting

variable {lt : Ref → Ref → Bool} {name : Scheduler.QueueName} {q q' q1 : Queues} {v : Ref}
  {rest seen popped : List Ref}

/-- The head of the selected queue is the head of the line. -/
theorem line_eq_cons (hname : name = .waiting → q.skipped = []) (hcons : q.get name = v :: rest) :
    q.line = v :: (q.set name rest).line := by
  cases name with
  | skipped => exact congrArg (· ++ q.waiting) hcons
  | waiting =>
    show q.skipped ++ q.waiting = v :: (q.skipped ++ rest)
    rw [hname rfl]
    exact hcons

theorem line_of_pop (hname : name = .waiting → q.skipped = [])
    (hpop : RequestQueue.popRequest .fcfs lt (q.get name) = some (v, rest)) :
    q.line = v :: (q.set name rest).line := by
  refine line_eq_cons hname ?_
  cases hget : q.get name <;> rw [hget] at hpop <;> cases hpop
  rfl

/-- From `q` to `q'` the requests `popped` leave the front of the line, of which `seen` is examined;
they are skipped or become running requests. -/
structure Served (q q' : Queues) (seen popped : List Ref) : Prop where
  line : q.line = popped ++ q'.line
  seen_prefix : seen <+: q.line
  popped_prefix : popped <+: seen
  skipped : ∃ kept : List Ref, q'.step = kept.reverse ++ q.step ∧ kept.Sublist popped
  admitted : ∃ admitted, q'.running = q.running ++ admitted ∧ admitted ⊆ popped

theorem Served.stay (h : seen <+: q.line) : Served q q seen [] :=
  ⟨rfl, h, nil_prefix, ⟨[], rfl, .slnil⟩, ⟨[], (append_nil _).symm, Subset.refl _⟩⟩

theorem HeadMove.eq_of_false (h : HeadMove .fcfs lt name v q false q') : q' = q := by
  cases h
  rfl

theorem HeadMove.served (hname : name = .waiting → q.skipped = [])
    (h : HeadMove .fcfs lt name v q true q1) (hserved : Served q1 q' seen popped) :
    Served q q' (v :: seen) (v :: popped) := by
  -- the head leaves the line and is skipped or admitted
  obtain ⟨hline, hcase⟩ : q.line = v :: q1.line ∧
      (q1.step = v :: q.step ∧ q1.running = q.running ∨
        q1.step = q.step ∧ q1.running = q.running ++ [v]) := by
    cases h with
    | skip hpop | load hpop _ =>
      have hline := line_of_pop hname hpop
      cases name <;> exact ⟨hline, .inl ⟨rfl, rfl⟩⟩
    | enterRunning hpop _ =>
      have hline := line_of_pop hname hpop
      cases name <;> exact ⟨hline, .inr ⟨rfl, rfl⟩⟩
  obtain ⟨kept, hkept, hsub⟩ := hserved.skipped
  obtain ⟨admitted, hadm, hpopped⟩ := hserved.admitted
  refine ⟨hline.trans (congrArg (v :: ·) hserved.line), ?_,
    (prefix_cons_inj v).mpr hserved.popped_prefix, ?_, ?_⟩
  · rw [hline]
    exact (prefix_cons_inj v).mpr hserved.seen_prefix
  · rcases hcase with ⟨hstep, -⟩ | ⟨hstep, -⟩
    · refine ⟨v :: kept, ?_, hsub.cons_cons v⟩
      rw [hkept, hstep, reverse_cons, append_assoc]
      rfl
    · exact ⟨kept, hstep ▸ hkept, hsub.cons v⟩
  · have hpopped' : admitted ⊆ v :: popped := Subset.trans hpopped (subset_cons_self v _)
    rcases hcase with ⟨-, hrun⟩ | ⟨-, hrun⟩
    · exact ⟨admitted, hrun ▸ hadm, hpopped'⟩
    · refine ⟨v :: admitted, ?_, cons_subset.mpr ⟨mem_cons_self, hpopped'⟩⟩
      rw [hadm, hrun, append_assoc]
      rfl

end Queues

/-! ## The loop -/

namespace Pass

variable {cfg : SchedulerConfig} {a : Answers} {p p' p1 : Pass} {goOn : Bool} {fuel : ℕ}

variable (cfg) in
/-- The request that a turn looks at. -/
def head (p : Pass) : Option Ref :=
  (p.s.selectWaitingQueueForScheduling cfg).bind fun name =>
    RequestQueue.peekRequest (p.s.queue name)

variable (cfg a) in
/-- The requests that the loop over the waiting requests looks at. -/
def examinedLoop : ℕ → Pass → List Ref
  | 0, _ => []
  | fuel + 1, p =>
    if p.admitting cfg then
      (p.head cfg).toList ++ match p.waitingTurn cfg a with
        | some (true, p) => p.examinedLoop fuel
        | _ => []
    else []

variable (cfg a) in
/-- Those that the second part of the pass looks at. -/
def examined (p : Pass) : List Ref :=
  if p.preemptedReqs = [] ∧ p.s.pauseState = .unpaused then
    p.examinedLoop cfg a (p.s.waiting.length + p.s.skippedWaiting.length)
  else []

theorem selected_fcfs {s : Scheduler} {name : Scheduler.QueueName} (hpolicy : cfg.policy = .fcfs)
    (h : s.selectWaitingQueueForScheduling cfg = some name) :
    name = .waiting → s.skippedWaiting = [] := by
  rintro rfl
  unfold Scheduler.selectWaitingQueueForScheduling at h
  rw [hpolicy] at h
  cases hskip : s.skippedWaiting with
  | nil => rfl
  | cons w rest => cases hwait : s.waiting <;> rw [hskip, hwait] at h <;> cases h

theorem waitingLoop_served (hpolicy : cfg.policy = .fcfs)
    (h : p.waitingLoop cfg a fuel = some p') :
    ∃ popped, p.queues.Served p'.queues (p.examinedLoop cfg a fuel) popped := by
  induction fuel generalizing p with
  | zero =>
    cases h
    exact ⟨[], .stay nil_prefix⟩
  | succ fuel ih =>
    unfold waitingLoop at h
    unfold examinedLoop
    split at h
    · rename_i hadm
      obtain ⟨⟨goOn, p2⟩, hone, h⟩ := bind_eq_some_iff.mp h
      obtain ⟨name, v, p1, hsel, hpeek, hturn, -, hq⟩ := (waitingTurn_cases hone).turns
      have hhead : p.head cfg = some v := bind_eq_some_iff.mpr ⟨name, hsel, hpeek⟩
      rw [if_pos hadm, hhead, hone]
      -- a promotion changes a status only
      have hsame : ∃ status, p1.queues = { p.queues with status } := by
        rcases hq with hq | ⟨status, hq, -⟩
        · exact ⟨_, hq⟩
        · exact ⟨_, hq⟩
      obtain ⟨status, hsame⟩ := hsame
      have hmove := hturn.move
      rw [hpolicy, hsame] at hmove
      have hname := selected_fcfs hpolicy hsel
      cases goOn with
      | true =>
        obtain ⟨popped, hserved⟩ := ih h
        have hone := hmove.served hname hserved
        exact ⟨v :: popped, { hone with }⟩
      | false =>
        cases h
        obtain ⟨rest, hcons⟩ := head?_eq_some_iff.mp hpeek
        have hline : p.queues.line = v :: _ := Queues.line_eq_cons hname hcons
        have hstay := Queues.Served.stay (hline ▸ ⟨_, rfl⟩ : [v] <+: p.queues.line)
        rw [hmove.eq_of_false]
        exact ⟨[], { hstay with }⟩
    · rename_i hadm
      cases h
      rw [if_neg hadm]
      exact ⟨[], .stay nil_prefix⟩

theorem waitingPart_served (hpolicy : cfg.policy = .fcfs) (hstep : p.stepSkippedWaiting = [])
    (h : p.waitingPart cfg a = some p') :
    p'.queues.line.Sublist p.queues.line ∧ p.examined cfg a <+: p.queues.line ∧
      ∃ admitted, p'.s.running = p.s.running ++ admitted ∧ admitted ⊆ p.examined cfg a := by
  unfold waitingPart at h
  unfold examined
  split at h
  · obtain ⟨p1, hloop, h⟩ := bind_eq_some_iff.mp h
    cases h
    obtain ⟨popped, hserved⟩ := waitingLoop_served hpolicy hloop
    obtain ⟨kept, hkept, hsub⟩ := hserved.skipped
    obtain ⟨admitted, hadm, hpopped⟩ := hserved.admitted
    rw [if_pos ‹_›]
    refine ⟨?_, hserved.seen_prefix, admitted, hadm,
      Subset.trans hpopped hserved.popped_prefix.subset⟩
    -- the skipped requests return in their old order
    have hline : (p1.requeueSkipped cfg).queues.line = kept ++ p1.queues.line := by
      replace hkept : p1.stepSkippedWaiting = kept.reverse ++ p.stepSkippedWaiting := hkept
      show RequestQueue.prependRequests cfg.policy _ p1.stepSkippedWaiting _ ++ _ = _
      rw [hkept, hstep, hpolicy, append_nil]
      show kept.reverse.reverse ++ p1.s.skippedWaiting ++ p1.s.waiting = _
      rw [reverse_reverse, append_assoc]
      rfl
    rw [hline, hserved.line]
    exact hsub.append (.refl _)
  · cases h
    rw [if_neg ‹_›]
    exact ⟨.refl _, nil_prefix, [], (append_nil _).symm, Subset.refl _⟩

/-- Without a preemption the first part of the pass leaves the queues as they are. -/
theorem runningPart_queues {s : Scheduler} (h : s.runningPart cfg a = some p)
    (hnil : p.preemptedReqs = []) :
    p.queues.line = (s.queues []).line ∧ p.s.running = s.running := by
  refine runningPart_invariant (fun p => p.preemptedReqs = [] →
      p.queues.line = (s.queues []).line ∧ p.s.running = s.running)
    (fun p v goOn p' _ hp hturn hnil => ?_) h (fun _ => ⟨rfl, rfl⟩) hnil
  cases hturn with
  | capped _ => exact hp hnil
  | noTokens t _ _ _ => exact hp hnil
  | preempted t p1 _ _ _ halloc => exact absurd hnil (halloc.preemptedReqs.1 rfl)
  | scheduled t bs p1 p' _ _ _ halloc hs =>
    simp only [scheduleRunning, bind, bind_eq_some_iff] at hs
    obtain ⟨enc, -, hs⟩ := hs
    cases hs
    obtain ⟨hnil', kv, rfl⟩ := halloc.preemptedReqs.2 hnil
    exact hp hnil'

end Pass

/-! ## The pass -/

namespace Scheduler

variable (cfg : SchedulerConfig) (a : Answers)

/-- The waiting requests in the order in which FCFS looks at them. -/
def line (s : Scheduler) : List Ref := s.skippedWaiting ++ s.waiting

/-- The waiting requests that `schedule` looks at. -/
def examined (s : Scheduler) : List Ref :=
  match (s.runningPart cfg a).bind (Pass.recordLoras cfg) with
  | some p => p.examined cfg a
  | none => []

/-- Those who still wait stand in their old order, and everybody who was admitted, that is appended
to `running`, stood ahead of all who were not examined. -/
structure ServesInOrder (s s' : Scheduler) : Prop where
  sublist : s'.line.Sublist s.line
  ahead : ∃ admitted, s'.running = s.running ++ admitted ∧ ∀ v ∈ admitted, ∀ (i : ℕ) (w : Ref),
    s.line[i]? = some w → w ∉ s.examined cfg a → ∃ j < i, s.line[j]? = some v

variable {cfg a} {s s' : Scheduler} {out : SchedulerOutput}

theorem ahead_of_prefix {seen l : List Ref} {v w : Ref} {i : ℕ} (h : seen <+: l) (hv : v ∈ seen)
    (hi : l[i]? = some w) (hw : w ∉ seen) : ∃ j < i, l[j]? = some v := by
  obtain ⟨rest, rfl⟩ := h
  obtain ⟨j, hj⟩ := mem_iff_getElem?.mp hv
  have hlt : j < seen.length := (List.getElem?_eq_some_iff.mp hj).1
  have hle : seen.length ≤ i := by
    by_contra hlt'
    rw [getElem?_append_left (not_le.mp hlt')] at hi
    exact hw (mem_of_getElem? hi)
  exact ⟨j, by omega, (getElem?_append_left hlt).trans hj⟩

/-- **FCFS order is kept**, in a pass without a preemption. -/
theorem fcfs_order_kept (hpolicy : cfg.policy = .fcfs) (h : s.schedule cfg a = some (out, s'))
    (hpreempted : ∀ p ∈ s.runningPart cfg a, p.preemptedReqs = []) : ServesInOrder cfg a s s' := by
  rw [schedule_eq] at h
  obtain ⟨p, hpass, hfin⟩ := bind_eq_some_iff.mp h
  simp only [pass, bind, bind_eq_some_iff] at hpass
  obtain ⟨p1, hrun, p2, hloras, hwait⟩ := hpass
  obtain ⟨hline1, hrun1⟩ := Pass.runningPart_queues hrun (hpreempted p1 hrun)
  have hexamined : s.examined cfg a = p2.examined cfg a := by
    rw [examined, hrun, bind_some, hloras]
  obtain ⟨loras, rfl⟩ := Pass.recordLoras_cases hloras
  obtain ⟨hsub, hseen, admitted, hadm, hsubset⟩ :=
    Pass.waitingPart_served (p := { p1 with scheduledLoras := loras }) hpolicy
      (Pass.runningPart_runs hrun).step hwait
  replace hline1 : p1.queues.line = s.line := hline1
  have hq := (finishPass_spec hfin).2 []
  have hline' : s'.line = p.queues.line := congrArg (fun q => q.skipped ++ q.waiting) hq
  have hrun' : s'.running = p.s.running := congrArg Queues.running hq
  refine ⟨hline' ▸ hline1 ▸ hsub, admitted, ?_, fun v hv i w hi hw => ?_⟩
  · rw [hrun', hadm, ← hrun1]
  · rw [hexamined] at hw
    exact ahead_of_prefix (hline1 ▸ hseen) (hsubset hv) hi hw

/-- Three requests; only one adapter can be used at a time. -/
def threeAdapters : List Event :=
  [.addRequest (Engine.loraInput 1 1) {}, .addRequest (Engine.loraInput 2 2) {},
    .addRequest (Engine.loraInput 3 1) {}]

/-- The adapter of the second request has to wait; the first and the third request are admitted. -/
theorem skipped_adapter_keeps_place : ∃ e0 ∈ Engine.startFull 16 16,
    ∃ e ∈ run (Engine.step Engine.loraConfig fun _ => some []) e0 threeAdapters,
      ∃ x ∈ e.s.schedule Engine.loraConfig {}, e.s.line = [0, 1, 2] ∧ x.2.line = [1] ∧
        ServesInOrder Engine.loraConfig {} e.s x.2 := by
  obtain ⟨e0, he0, e, he, x, hx, hbefore, hafter, hnone⟩ : ∃ e0 ∈ Engine.startFull 16 16,
      ∃ e ∈ run (Engine.step Engine.loraConfig fun _ => some []) e0 threeAdapters,
        ∃ x ∈ e.s.schedule Engine.loraConfig {}, e.s.line = [0, 1, 2] ∧ x.2.line = [1] ∧
          ∀ p ∈ e.s.runningPart Engine.loraConfig {}, p.preemptedReqs = [] := by
    decide +kernel
  exact ⟨e0, he0, e, he, x, hx, hbefore, hafter, fcfs_order_kept rfl hx hnone⟩

end Scheduler

end Nvllm.Sched
