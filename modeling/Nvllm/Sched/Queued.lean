import Nvllm.Sched.Orderly

/-! # The queues of a run

`Queued` says that the queues of a scheduler are in order (`Queues.Ok`) and that the requests in
them are registered under their ids. Every method of the scheduler keeps it, with one exception: a
request that stops while it is in the queue of the skipped requests is not removed from there.
`Spares` rules this out for an output: no such request stops with it.
-/

namespace Nvllm.Sched

open Nvllm.KVCache Nvllm.Run List

namespace Scheduler

/-- The queues `q` are in order and hold requests of `s` that are registered. -/
structure QueuedAs (s : Scheduler) (q : Queues) : Prop where
  ok : q.Ok
  status : q.status = fun v => (s.req v).status
  registered : ∀ v ∈ q.members, s.requests.get? (s.req v).requestId = some v
  known : s.Known
  bounded : ∀ id v, s.requests.get? id = some v → v < s.nextRef

def Queued (s : Scheduler) : Prop := s.QueuedAs (s.queues [])

variable {cfg : SchedulerConfig} {hasher : Request → Option (List Bytes)} {a : Answers}
  {s s' : Scheduler} {q q' : Queues} {v : Ref}

theorem Queued.orderly (h : s.Queued) : s.Orderly where
  known := h.known
  bounded v hv := by
    rcases has_iff.mp hv with hv | ⟨id, hv⟩
    · exact h.bounded _ v (h.registered v (mem_running_or_waiting.mpr hv))
    · exact h.bounded id v hv
  nodup := h.ok.running_nodup
  running := h.ok.running
  registered v hv _ := h.registered v (mem_running_or_waiting.mpr hv)

theorem Orderly.queued (h : s.Orderly) (hok : (s.queues []).Ok) : s.Queued where
  ok := hok
  status := rfl
  registered v hv := h.registered v (mem_running_or_waiting.mp hv) (hok.live hv)
  known := h.known
  bounded id v hv := h.bounded v (.inr (.inr (.inr ⟨id, hv⟩)))

theorem queued_init (kv : KVCacheManager) (enc : EncoderCacheManager) : (init kv enc).Queued :=
  (orderly_init kv enc).queued ⟨nodup_nil, fun _ h => absurd h not_mem_nil,
    nodup_nil, fun _ h => absurd h not_mem_nil⟩

theorem Queued.of_moves {policy : SchedulingPolicy} {lt : Ref → Ref → Bool} (h : s.Queued)
    (hsame : SameRequests s s') (hm : Queues.Moves policy lt (s.queues []) (s'.queues [])) :
    s'.Queued where
  ok := hm.ok h.ok
  status := rfl
  registered v hv := by
    rw [hsame.requests, hsame.field Request.requestId fun _ => rfl]
    exact h.registered v (hm.members_perm.mem_iff.mp hv)
  known := (h.orderly.toNumbered.of_moves hsame hm).known
  bounded id v hv :=
    (h.orderly.toNumbered.of_moves hsame hm).bounded v (has_iff.mpr (.inr ⟨id, hv⟩))

theorem Queued.of_sameQueues (h : s.Queued) (hsame : SameQueues s s') : s'.Queued :=
  (h.orderly.of_sameQueues hsame).queued (hsame.queues [] ▸ h.ok)

/-! ## Outputs -/

/-- The request `v` stops with the output for `id`. -/
def StopsAt (cfg : SchedulerConfig) (s : Scheduler) (m : ModelRunnerOutput) (id : RequestId)
    (v : Ref) : Prop :=
  (s.req v).StopsWith cfg (m.sampledTokenIds id) (m.poolerOutput id)

instance (s : Scheduler) (m : ModelRunnerOutput) (id : RequestId) (v : Ref) :
    Decidable (s.StopsAt cfg m id v) := inferInstanceAs (Decidable (Request.StopsWith ..))

/-- No request in the queue of the skipped ones stops with the output. -/
def Spares (cfg : SchedulerConfig) (s : Scheduler) (out : SchedulerOutput)
    (m : ModelRunnerOutput) : Prop :=
  ∀ id ∈ out.numScheduledTokens.keys, ∀ v ∈ s.skippedWaiting, s.requests.get? id = some v →
    ¬s.StopsAt cfg m id v

instance (s : Scheduler) (out : SchedulerOutput) (m : ModelRunnerOutput) :
    Decidable (s.Spares cfg out m) := inferInstanceAs (Decidable (∀ id ∈ _, ∀ v ∈ _, _ → ¬_))

section

variable {out : SchedulerOutput} {m : ModelRunnerOutput} {failed : List RequestId}
  {id : RequestId} {z z' : Stops} {r : Request}

/-- Whether a request stops does not depend on its counters. -/
theorem stopsWith_congr {r r' : Request} {generated : List ℤ} {pooler : Bool}
    (hfixed : r'.fixed = r.fixed)
    (hdiscard : r'.discardLatestAsyncTokens = r.discardLatestAsyncTokens) :
    r'.StopsWith cfg generated pooler ↔ r.StopsWith cfg generated pooler := by
  have hsame : ∀ r : Request, { r.fixed with
      discardLatestAsyncTokens := r.discardLatestAsyncTokens }.StopsWith cfg generated pooler ↔
        r.StopsWith cfg generated pooler := fun _ => Iff.rfl
  rw [← hsame, hfixed, hdiscard, hsame]

theorem SameQueues.stopsAt_iff (h : SameQueues s s') :
    s'.StopsAt cfg m id v ↔ s.StopsAt cfg m id v :=
  stopsWith_congr (congrFun h.fixed v) (h.discards v)

theorem Takes.stopsAt (h : Takes cfg hasher out m id s v true r) : s.StopsAt cfg m id v := by
  refine (stopsWith_congr ?_ ?_).mp (Request.takeOutput_stopsWith h.taken) <;>
    unfold Request.rejectDrafts <;> split <;> rfl

/-- The queues without the requests that stopped. -/
def Stops.left (z : Stops) : Queues where
  status v := (z.s.req v).status
  running := z.s.running.filter (· ∉ z.stoppedRunningReqs)
  waiting := z.s.waiting.filter (· ∉ z.stoppedPreemptedReqs)
  skipped := z.s.skippedWaiting
  step := []

/-- Where a request is after it stopped. -/
inductive Lands (v : Ref) (s s' : Scheduler) : Prop
  | gone : (s'.req v).isFinished = true →
      s'.numWaitingForStreamingInput = s.numWaitingForStreamingInput → s'.waiting = s.waiting →
      s'.skippedWaiting = s.skippedWaiting → Lands v s s'
  | waiting : (s.req v).resumable = true →
      ((s.req v).streamingQueue.getD []).head?.join.isSome = true →
      s'.requests = s.requests → (s'.req v).status = .waiting →
      s'.numWaitingForStreamingInput = s.numWaitingForStreamingInput -
        (if (s.req v).status = .waitingForStreamingReq then 1 else 0) →
      s'.waiting.Perm (v :: s.waiting) → s'.skippedWaiting = s.skippedWaiting → Lands v s s'
  | skipped : s'.requests = s.requests → (s'.req v).status = .waitingForStreamingReq →
      s'.numWaitingForStreamingInput = s.numWaitingForStreamingInput + 1 →
      s'.waiting = s.waiting → s'.skippedWaiting.Perm (v :: s.skippedWaiting) → Lands v s s'

theorem StopOutcome.lands (h : StopOutcome cfg hasher s v s') : Lands v s s' := by
  cases h with
  | finished streamingQueue requests hfin hreq hagree =>
    refine .gone ?_ hagree.numWaitingForStreamingInput hagree.waiting hagree.skippedWaiting
    rw [hagree.req, req_modify_self]
    exact hfin
  | continued update queue r hres hqueue hr hagree =>
    have hen := enqueues_of_agrees hagree
    have hst : r.status = .waiting := (Request.updateAsSession_continues hr).status
    have hq := hen.perm
    have hreq := hen.req
    rw [req_modify_self, hst] at hq
    rcases hq with ⟨hb, -⟩ | ⟨-, hskip, hwait⟩
    · cases hb
    · refine .waiting hres (by rw [hqueue]; rfl) hen.requests ?_
        hen.numWaitingForStreamingInput hwait hskip
      rw [hreq, req_modify_self, hst]
  | idle _ _ hagree =>
    have hen := enqueues_of_agrees hagree
    have hq := hen.perm
    have hreq := hen.req
    rw [req_modify_self] at hq
    rcases hq with ⟨-, hwait, hskip⟩ | ⟨hb, -⟩
    · refine .skipped hen.requests ?_ hen.numWaitingForStreamingInput hwait hskip
      rw [hreq, req_modify_self]
      rfl
    · cases hb

theorem filter_insert (l : List Ref) (stopped : List Ref) (v : Ref) :
    l.filter (· ∉ stopped.insert v) = (l.filter (· ∉ stopped)).filter (· ≠ v) := by
  rw [filter_filter]
  apply filter_congr
  simp [mem_insert_iff]

theorem filter_ne_self {l : List Ref} (h : v ∉ l) : l.filter (· ≠ v) = l := by
  refine filter_eq_self.mpr fun w hw => ?_
  exact decide_eq_true fun heq => h (heq ▸ hw)

/-- A turn keeps the queues in order if it stops no skipped request. -/
theorem Turn.left_ok (h : Turn cfg hasher out m failed id z z') (hq : z.left.Ok)
    (hspares : ∀ v, z.s.requests.get? id = some v → v ∈ z.s.skippedWaiting →
      ¬z.s.StopsAt cfg m id v) : z'.left.Ok := by
  cases h with
  | ignored _ => exact hq
  | goesOn v r s hf htakes hagree =>
    have hstatus := htakes.status hagree
    have hleft : Stops.left { z with s } = z.left := by
      simp only [Stops.left, hstatus, hagree.running, hagree.waiting, hagree.skippedWaiting]
      rfl
    rw [hleft]
    exact hq
  | stops v r s1 s hf htakes hagree hstop =>
    have hskip : v ∉ z.s.skippedWaiting := fun hmem =>
      hspares v htakes.request hmem htakes.stopsAt
    have ht := htakes.stop_onlyTouches hagree hstop
    generalize hz' : (if (z.s.req v).status = .running then _ else _ : Stops) = z'
    -- `v` leaves the queue where it was
    obtain ⟨hs, hrunning, hwaiting⟩ : z'.s = s ∧ z'.left.running = (z.left.without v).running ∧
        z.s.waiting.filter (· ∉ z'.stoppedPreemptedReqs) = z.left.waiting.filter (· ≠ v) := by
      rw [← hz']
      by_cases hrun : (z.s.req v).status = .running
      · rw [if_pos hrun]
        have hnot : v ∉ z.left.waiting := fun hmem =>
          hq.not_mem_waiting hrun (mem_append_left _ (mem_append_left _ hmem))
        refine ⟨rfl, ?_, (filter_ne_self hnot).symm⟩
        show s.running.filter _ = _
        rw [ht.running, filter_insert]
        rfl
      · rw [if_neg hrun]
        refine ⟨rfl, ?_, filter_insert ..⟩
        have hnot : v ∉ z.left.running := hq.not_mem_running hrun
        show s.running.filter _ = z.left.running.filter _
        rw [ht.running, filter_ne_self hnot]
        rfl
    have hwithout : (z.left.without v).inWaiting =
        z.s.waiting.filter (· ∉ z'.stoppedPreemptedReqs) ++ z.s.skippedWaiting := by
      show z.left.waiting.filter _ ++ z.s.skippedWaiting.filter _ ++ [] = _
      rw [hwaiting, filter_ne_self hskip, append_nil]
    have hinWaiting : z'.left.inWaiting =
        s.waiting.filter (· ∉ z'.stoppedPreemptedReqs) ++ s.skippedWaiting := by
      rw [← hs]
      exact append_nil _
    refine hq.touched (v := v) (fun w hw => ?_) hrunning ?_
    · show (z'.s.req w).status = (z.s.req w).status
      rw [hs, ht.req w hw]
    rw [hwithout, hinWaiting]
    show _ ∨ _ ∧ (z'.s.req v).status ≠ .running ∧ (z'.s.req v).status.isFinished = false
    rw [hs]
    rcases hstop.lands with ⟨-, -, hw, hs⟩ | ⟨-, -, -, hst, -, hw, hs⟩ | ⟨-, hst, -, hw, hs⟩ <;>
      rw [hagree.waiting] at hw <;> rw [hagree.skippedWaiting] at hs
    · rw [hw, hs]
      exact .inl (Perm.refl _)
    · have hfilter := hw.filter (· ∉ z'.stoppedPreemptedReqs)
      rw [hs]
      by_cases hmem : v ∈ z'.stoppedPreemptedReqs
      · rw [filter_cons_of_neg (by simpa using hmem)] at hfilter
        exact .inl (hfilter.append_right _)
      · rw [filter_cons_of_pos (by simpa using hmem)] at hfilter
        exact .inr ⟨hfilter.append_right _, by rw [hst]; exact ⟨by decide, rfl⟩⟩
    · rw [hw]
      exact .inr ⟨(hs.append_left _).trans perm_middle, by rw [hst]; exact ⟨by decide, rfl⟩⟩

/-- The stopped requests have left the queues in the end. -/
theorem removeStopped_ok (hq : z.left.Ok) (hnodup : z.s.running.Nodup) :
    ((removeStopped cfg z).queues []).Ok := by
  have hrun : removeAll z.s.running z.stoppedRunningReqs = z.left.running :=
    removeAll_eq_filter hnodup _
  unfold removeStopped
  split
  · rename_i hnone
    have hleft : z.left.waiting = z.s.waiting := by
      show z.s.waiting.filter (· ∉ z.stoppedPreemptedReqs) = _
      rw [hnone]
      simp
    refine hq.of_perm rfl (hrun ▸ Perm.refl _) ?_
    exact Perm.of_eq (by rw [Queues.inWaiting, Queues.inWaiting, hleft]; rfl)
  · have hperm := RequestQueue.removeRequests_perm cfg.policy z.s.lt z.stoppedPreemptedReqs
      z.s.waiting
    exact hq.of_perm rfl (hrun ▸ Perm.refl _)
      ((hperm.append_right z.s.skippedWaiting).append_right [])

theorem Spares.of_sameQueues (h : s.Spares cfg out m) (hsame : SameQueues s s') :
    s'.Spares cfg out m := by
  intro id hid v hv hreg
  have hskip : s'.skippedWaiting = s.skippedWaiting := congrArg Queues.skipped (hsame.queues [])
  rw [hskip] at hv
  rw [hsame.requests] at hreg
  rw [hsame.stopsAt_iff]
  exact h id hid v hv hreg

/-- No skipped request stops in a turn of the loop over the output. -/
theorem Spares.at_turn {s0 : Scheduler} (h : s0.Spares cfg out m)
    (hid : id ∈ out.numScheduledTokens.keys) (hun : Untouched s0 id z) :
    ∀ v, z.s.requests.get? id = some v → v ∈ z.s.skippedWaiting → ¬z.s.StopsAt cfg m id v := by
  intro v hv hskip
  rw [hun.requests] at hv
  rw [StopsAt, hun.req v hv]
  exact h id hid v ((hun.skippedWaiting v hv).mp hskip) hv

theorem left_start (s : Scheduler) : Stops.left { s } = s.queues [] := by
  simp [Stops.left, queues]

end

/-! ## Finished requests -/

/-- Finished requests are not in the queues, so they can be forgotten. -/
theorem Queued.of_forgets (h : s.Queued) (hf : Forgets s s') : s'.Queued := by
  refine (h.orderly.of_forgets hf).queued (h.ok.of_perm ?_ (.of_eq hf.running) (.of_eq ?_))
  · exact funext fun v => congrArg Request.status (congrFun hf.req v)
  · rw [Queues.inWaiting, Queues.inWaiting, queues, queues, hf.waiting, hf.skippedWaiting]

/-- Withdrawn requests leave the queues, and the others stay. -/
theorem Withdraws.perm {vs : List Ref} (hw : Withdraws cfg vs s s') (h : s.Queued) :
    (s'.queues []).running = (s.queues []).running.filter (· ∉ vs) ∧
      (s'.queues []).inWaiting.Perm ((s.queues []).inWaiting.filter (· ∉ vs)) := by
  have hdrop : ∀ (p : Ref → Bool) (l : List Ref), (∀ v ∈ l, p v = true) →
      l.filter (· ∉ vs.filter p) = l.filter (· ∉ vs) := by
    intro p l hl
    refine filter_congr fun v hv => ?_
    simp [hl v hv]
  constructor
  · show s'.running = s.running.filter _
    have hnodup : s.running.Nodup := h.ok.running_nodup
    rw [hw.running, removeAll_eq_filter hnodup]
    exact hdrop _ _ fun v hv => decide_eq_true (h.ok.running v hv)
  · rw [← hdrop (fun v => (s.req v).status ≠ .running) _ fun v hv =>
      decide_eq_true (h.ok.waiting v hv).1]
    show (s'.waiting ++ s'.skippedWaiting ++ []).Perm
      ((s.waiting ++ s.skippedWaiting ++ []).filter _)
    rw [append_nil, append_nil]
    obtain ⟨others, rfl, ⟨hnone, hwait, hskip⟩ | ⟨hwait, hskip⟩⟩ := hw.waiting
    · rw [hnone, hwait, hskip]
      simp
    · rw [hwait, hskip, filter_append]
      exact (RequestQueue.removeRequests_perm ..).append (RequestQueue.removeRequests_perm ..)

theorem Queued.finishRequests (h : s.Queued) {ids : Option (List RequestId)}
    {finishedStatus : RequestStatus} (hf : s.finishRequests cfg a ids finishedStatus = some s') :
    s'.Queued := by
  obtain ⟨-, vs, s1, hvs, hw, hfin⟩ := finishRequests_cases hf
  obtain ⟨hrun, hwait⟩ := hw.perm h
  have hrun' : (s'.queues []).running = (s.queues []).running.filter (· ∉ vs) :=
    hfin.running.trans hrun
  have hwait' : (s'.queues []).inWaiting.Perm ((s.queues []).inWaiting.filter (· ∉ vs)) := by
    rw [Queues.inWaiting, queues, hfin.waiting, hfin.skippedWaiting]
    exact hwait
  refine (h.orderly.finishRequests hf).queued (h.ok.of_subperm (fun v hv => ?_)
    (hrun' ▸ filter_sublist) ⟨_, hwait'.symm, filter_sublist⟩)
  have hnot : v ∉ vs := by
    rw [Queues.members, mem_append, hrun', hwait'.mem_iff] at hv
    rcases hv with hv | hv <;> exact of_decide_eq_true (mem_filter.mp hv).2
  show (s'.req v).status = (s.req v).status
  rw [hfin.others v hnot, hw.req]

/-! ## The methods -/

theorem Queued.updateFromOutput (h : s.Queued) {out : SchedulerOutput} {m : ModelRunnerOutput}
    (hspares : s.Spares cfg out m) (hs : s.updateFromOutput cfg hasher a out m = some s') :
    s'.Queued := by
  refine (h.orderly.updateFromOutput_invariant Queued (·.left.Ok) hs (fun s1 hsame => ?_)
    ?_ ?_ ?_).2
  · refine ⟨left_start s1 ▸ (h.of_sameQueues hsame).ok,
      fun failed id n z z' hmem hun hz hturn => ?_⟩
    exact hturn.left_ok hz ((hspares.of_sameQueues hsame).at_turn (mem_map_of_mem hmem) hun)
  · exact fun z hz hnodup ho => ho.queued (removeStopped_ok hz hnodup)
  · exact fun s s' ids status _ h hf => h.finishRequests hf
  · exact fun s s' _ h hf => h.of_forgets hf

theorem Queued.addNewRequest (h : s.Queued) {r : Request}
    (hnew : s.requests.get? r.requestId = none)
    (hstatus : r.status = .waiting ∨ r.status = .waitingForStructuredOutputGrammar) :
    (s.addNewRequest cfg r).Queued := by
  obtain ⟨r', hadds⟩ := addNewRequest_adds cfg s r
  set s' := s.addNewRequest cfg r
  have hst : r'.status ≠ .running ∧ r'.status.isFinished = false := by
    rw [hadds.status]
    rcases hstatus with hst | hst <;> rw [hst] <;> exact ⟨by decide, rfl⟩
  -- the reference is fresh
  have hfresh : s.nextRef ∉ (s.queues []).members := fun hmem =>
    absurd (h.bounded _ _ (h.registered _ hmem)) (Nat.lt_irrefl _)
  have hwait : (s'.queues []).inWaiting.Perm (s.nextRef :: (s.queues []).inWaiting) := by
    show (s'.waiting ++ s'.skippedWaiting ++ []).Perm
      (s.nextRef :: (s.waiting ++ s.skippedWaiting ++ []))
    rw [append_nil, append_nil]
    exact hadds.waiting_perm
  refine (h.orderly.addNewRequest hnew).queued (h.ok.enqueue hfresh hadds.running hwait ?_ ?_)
  · exact fun w hw => congrArg Request.status (hadds.others w hw)
  · show (s'.req s.nextRef).status ≠ _ ∧ (s'.req s.nextRef).status.isFinished = false
    rw [hadds.self]
    exact hst

theorem Queued.addRequest (h : s.Queued) {q : Request.EngineCoreRequest}
    (hs : s.addRequest cfg hasher a q = some s') : s'.Queued := by
  have ho := h.orderly.addRequest hs
  obtain ⟨r, harrives, hadds⟩ := addRequest_cases hs
  cases hadds with
  | new hnew => exact h.addNewRequest hnew harrives.status
  | queued v queue hv hstatus hqueue =>
    have hq := queues_modify_same s v
      (Request.withStreamingQueue (some (queue ++ [r.toStreamingUpdate]))) [] rfl
    exact ho.queued (hq ▸ h.ok)
  | continued v update r' hv hstatus hupdate hr' =>
    have hcont := Request.updateAsSession_continues hr'
    set s1 : Scheduler :=
      { s with numWaitingForStreamingInput := s.numWaitingForStreamingInput - 1 }
    have hq : (s1.modify v fun _ => r').queues [] = (s.queues []).setStatus v .waiting := by
      rw [← hcont.status]
      exact queues_modify s1 v (fun _ => r') []
    refine ho.queued ?_
    rw [hq]
    refine h.ok.setStatus (h.ok.not_mem_running fun hrun => ?_) ⟨by decide, rfl⟩
    have hrun' : (s.req v).status = .running := hrun
    rw [hstatus] at hrun'
    cases hrun'
  | closed v s' hv hstatus hfin => exact h.finishRequests hfin

end Scheduler

/-! ## Runs -/

namespace Engine

variable {cfg : SchedulerConfig} {hasher : Request → Option (List Bytes)}

/-- No skipped request stops with the output that an event brings. -/
def Spares (cfg : SchedulerConfig) (e : Engine) : Event → Prop
  | .updateFromOutput m _ => ∀ out ∈ e.inFlight.head?, e.s.Spares cfg out m
  | _ => True

instance (e : Engine) (ev : Event) : Decidable (e.Spares cfg ev) :=
  match ev with
  | .updateFromOutput m _ =>
    inferInstanceAs (Decidable (∀ out ∈ e.inFlight.head?, e.s.Spares cfg out m))
  | .addRequest _ _ | .finishRequests _ _ _ | .schedule _ | .updateDraftTokenIds _
  | .resetPrefixCache _ | .resetEncoderCache | .setPauseState _ => isTrue trivial

/-- One of three calls, or requests move between the queues. -/
inductive Acts (cfg : SchedulerConfig) (hasher : Request → Option (List Bytes)) (e : Engine)
    (s : Scheduler) : Event → Prop
  | addRequest (q : Request.EngineCoreRequest) (a : Answers) :
      e.s.addRequest cfg hasher a q = some s → Acts cfg hasher e s (.addRequest q a)
  | finishRequests (ids : Option (List RequestId)) (status : RequestStatus) (a : Answers) :
      e.s.finishRequests cfg a ids status = some s →
      Acts cfg hasher e s (.finishRequests ids status a)
  | updateFromOutput (m : ModelRunnerOutput) (a : Answers) (out : SchedulerOutput) :
      out ∈ e.inFlight.head? → e.s.updateFromOutput cfg hasher a out m = some s →
      Acts cfg hasher e s (.updateFromOutput m a)
  | moves (ev : Event) : e.s.SameRequests s →
      Queues.Moves cfg.policy e.s.lt (e.s.queues []) (s.queues []) → Acts cfg hasher e s ev

theorem step_acts {e e' : Engine} {ev : Event} (hstep : e.step cfg hasher ev = some e') :
    Acts cfg hasher e e'.s ev := by
  cases step_cases hstep with
  | addRequest q a s hs => exact .addRequest q a hs
  | finishRequests ids status a s hs => exact .finishRequests ids status a hs
  | schedule a out s hs =>
    obtain ⟨hsame, hmoves⟩ := Scheduler.schedule_moves hs
    exact .moves _ hsame hmoves
  | updateFromOutput m a out rest s hf hs => exact .updateFromOutput m a out (by rw [hf]; rfl) hs
  | updateDraftTokenIds drafts =>
    have hsame := Scheduler.updateDraftTokenIds_recounts drafts e.s
    exact .moves _ hsame.toSameRequests (by rw [hsame.queues])
  | resetPrefixCache b s hs =>
    obtain ⟨⟨hsame, -⟩, hmoves⟩ := Scheduler.resetPrefixCache_moves hs
    exact .moves _ hsame hmoves
  | resetEncoderCache | setPauseState p => exact .moves _ ⟨rfl, rfl, rfl, rfl⟩ .refl

theorem step_queued {e e' : Engine} {ev : Event} (h : e.s.Queued) (hspares : e.Spares cfg ev)
    (hstep : e.step cfg hasher ev = some e') : e'.s.Queued := by
  cases step_acts hstep with
  | addRequest q a hs => exact h.addRequest hs
  | finishRequests ids status a hs => exact h.finishRequests hs
  | updateFromOutput m a out hout hs => exact h.updateFromOutput (hspares out hout) hs
  | moves _ hsame hmoves => exact h.of_moves hsame hmoves

end Engine

end Nvllm.Sched
