import Mathlib.Data.Finset.Card
import Nvllm.Sched.Queued

/-! # No request is lost

`Settled` says that every live request is in the queues exactly once, in `running` if and only if it
is running, that no finished request is there, and that the counter of the sessions that wait for
their next input is right. Besides `Queued` this needs that every live request is in some queue and
that the counter agrees with the statuses (`Kept`).

An output can break both. A session that stops while it waits in the queue of preempted requests,
and whose next input is there already, is entered in that queue and removed from it at once
(`stopped_session_is_lost`). A request that stops in the queue of the skipped requests stays there.
`Settles` rules these out, and then no request is lost (`settled_of_settles`).
-/

namespace Nvllm.Sched

open Nvllm.KVCache Nvllm.Run List

variable {cfg : SchedulerConfig} {hasher : Request → Option (List Bytes)} {a : Answers}

namespace Scheduler

variable {s s' : Scheduler} {q q' : Queues} {v : Ref}

/-! ## Sessions that wait for their next input -/

/-- The sessions that wait for their next input. -/
def streaming (s : Scheduler) : Finset Ref :=
  (s.requests.values.filter fun v => (s.req v).status = .waitingForStreamingReq).toFinset

theorem mem_values : v ∈ s.requests.values ↔ ∃ id, s.requests.get? id = some v := by
  constructor
  · intro hv
    obtain ⟨e, he, rfl⟩ := mem_map.mp hv
    exact ⟨e.1, Dict.get?_of_mem he⟩
  · rintro ⟨id, hv⟩
    exact mem_map.mpr ⟨(id, v), Dict.mem_of_get? hv, rfl⟩

theorem mem_streaming : v ∈ s.streaming ↔
    (∃ id, s.requests.get? id = some v) ∧ (s.req v).status = .waitingForStreamingReq := by
  rw [streaming, mem_toFinset, mem_filter, mem_values, decide_eq_true_eq]

theorem Known.values_nodup (hk : s.Known) : s.requests.values.Nodup := by
  refine List.Nodup.map_on ?_ (List.Nodup.of_map _ s.requests.nodup)
  intro e he e' he' heq
  have hid := hk e.1 e.2 (Dict.get?_of_mem he)
  rw [heq, hk e'.1 e'.2 (Dict.get?_of_mem he')] at hid
  exact Prod.ext hid.symm heq

theorem card_streaming (hk : s.Known) : s.streaming.card =
    s.requests.values.countP fun v => (s.req v).status = .waitingForStreamingReq := by
  rw [streaming, toFinset_card_of_nodup (hk.values_nodup.filter _), countP_eq_length_filter]

/-- A request that waits for its next input stays registered. -/
theorem Retains.mem_streaming (h : Retains s s')
    (hst : (s'.req v).status = .waitingForStreamingReq ↔
      (s.req v).status = .waitingForStreamingReq) :
    v ∈ s'.streaming ↔ v ∈ s.streaming := by
  rw [Scheduler.mem_streaming, Scheduler.mem_streaming, ← hst]
  refine and_congr_left fun hwaits => exists_congr fun id =>
    ⟨h.requests id v, fun hv => h.keeps id v hv ?_⟩
  rw [Request.isFinished, hwaits]
  rfl

/-- At most one request begins to wait. -/
theorem card_streaming_of_ne (hothers : ∀ w, w ≠ v → (w ∈ s'.streaming ↔ w ∈ s.streaming))
    (hv : v ∉ s.streaming) :
    (s'.streaming.card : ℤ) = s.streaming.card + if v ∈ s'.streaming then 1 else 0 := by
  have herase : s'.streaming.erase v = s.streaming := by
    ext w
    rw [Finset.mem_erase]
    by_cases hw : w = v
    · rw [hw]
      exact iff_of_false (fun h => h.1 rfl) hv
    · rw [and_iff_right hw, hothers w hw]
  rw [← herase]
  split
  · rename_i hmem
    have hcard := Finset.card_erase_add_one hmem
    omega
  · rename_i hmem
    rw [Finset.erase_eq_of_notMem hmem, add_zero]

/-! ## The invariant -/

/-- All live requests are in the queues, and the counter is right. -/
structure KeptAs (s : Scheduler) (q : Queues) : Prop where
  all : ∀ id v, s.requests.get? id = some v → (s.req v).isFinished = false → v ∈ q.members
  counted : s.numWaitingForStreamingInput = s.streaming.card

def Kept (s : Scheduler) : Prop := s.KeptAs (s.queues [])

theorem KeptAs.congr (h : s.KeptAs q)
    (hget : ∀ id v, s'.requests.get? id = some v → s.requests.get? id = some v)
    (hfin : ∀ v, (s'.req v).isFinished = (s.req v).isFinished)
    (hmem : ∀ v ∈ q.members, v ∈ q'.members) (hset : ∀ v, v ∈ s'.streaming ↔ v ∈ s.streaming)
    (hnum : s'.numWaitingForStreamingInput = s.numWaitingForStreamingInput) : s'.KeptAs q' where
  all id v hv hlive := hmem v (h.all id v (hget id v hv) ((hfin v).symm.trans hlive))
  counted := by
    rw [hnum, h.counted, Finset.ext hset]

theorem Kept.of_moves {policy : SchedulingPolicy} {lt : Ref → Ref → Bool} (h : s.Kept)
    (hq : s.Queued) (hsame : SameRequests s s')
    (hm : Queues.Moves policy lt (s.queues []) (s'.queues [])) : s'.Kept := by
  refine h.congr (fun id v hv => hsame.requests ▸ hv) (hm.isFinished hq.ok)
    (fun v hv => hm.members_perm.mem_iff.mpr hv) (fun v => ?_) hsame.numWaitingForStreamingInput
  rw [mem_streaming, mem_streaming, hsame.requests]
  exact and_congr_right fun _ => hm.streaming v

theorem Kept.of_sameQueues (h : s.Kept) (hq : s.Queued) (hsame : SameQueues s s') : s'.Kept := by
  have hm : Queues.Moves .fcfs s.lt (s.queues []) (s'.queues []) := by
    rw [hsame.queues]
  exact h.of_moves hq hsame.toSameRequests hm

theorem Kept.of_forgets (h : s.Kept) (hf : Forgets s s') : s'.Kept := by
  refine h.congr hf.requests (fun v => by rw [hf.req]) (fun v hv => ?_)
    (fun v => hf.retains.mem_streaming (by rw [hf.req])) hf.numWaitingForStreamingInput
  rwa [mem_running_or_waiting, hf.running, hf.waiting, hf.skippedWaiting,
    ← mem_running_or_waiting]

/-! ## Outputs -/

section

variable {out : SchedulerOutput} {m : ModelRunnerOutput} {failed : List RequestId}
  {id : RequestId} {z z' : Stops}

/-- A request can stop: it is running or waits in the queue of preempted requests, and there it has
no input that follows. -/
def CanStop (s : Scheduler) (v : Ref) : Prop :=
  v ∉ s.skippedWaiting ∧ (s.req v).status.isBlocked = false ∧
    ((s.req v).status = .running ∨ (s.req v).resumable = false ∨
      ((s.req v).streamingQueue.getD []).head?.join = none)

instance (s : Scheduler) (v : Ref) : Decidable (s.CanStop v) :=
  inferInstanceAs (Decidable (_ ∧ _ ∧ _))

variable {w : Ref}

theorem Stops.mem_left : w ∈ z.left.members ↔
    (w ∈ z.s.running ∧ w ∉ z.stoppedRunningReqs) ∨
      (w ∈ z.s.waiting ∧ w ∉ z.stoppedPreemptedReqs) ∨ w ∈ z.s.skippedWaiting := by
  show w ∈ z.s.running.filter _ ++ (z.s.waiting.filter _ ++ z.s.skippedWaiting ++ []) ↔ _
  rw [append_nil, mem_append, mem_append, mem_filter, mem_filter,
    decide_eq_true_eq, decide_eq_true_eq]

/-- The other requests stay where they are. -/
theorem Turn.Touches.mem_left (ht : Turn.Touches v z z') (hw : w ≠ v) :
    w ∈ z'.left.members ↔ w ∈ z.left.members := by
  rw [Stops.mem_left, Stops.mem_left, ht.onlyTouches.running, ht.onlyTouches.waiting w hw,
    ht.onlyTouches.skippedWaiting w hw, ht.stoppedRunningReqs w hw, ht.stoppedPreemptedReqs w hw]

/-- The counter after a request stopped that did not wait for an input before. -/
theorem Lands.counted {s0 s1 : Scheduler} (h : Lands v s1 s)
    (hothers : ∀ w, w ≠ v → (w ∈ s.streaming ↔ w ∈ s0.streaming)) (hold : v ∉ s0.streaming)
    (hv : s1.requests.get? id = some v) (hfin : (s1.req v).isFinished = true)
    (hnum : s1.numWaitingForStreamingInput = s0.streaming.card) :
    s.numWaitingForStreamingInput = s.streaming.card := by
  have hcard := card_streaming_of_ne hothers hold
  have hnot : (s.req v).status ≠ .waitingForStreamingReq → v ∉ s.streaming := fun hne hmem =>
    hne (mem_streaming.mp hmem).2
  have hlive : ∀ {r : Request}, r.isFinished = true → r.status ≠ .waitingForStreamingReq := by
    intro r hfin hst
    rw [Request.isFinished, hst] at hfin
    cases hfin
  cases h with
  | gone hgone hn hw hsk =>
    rw [if_neg (hnot (hlive hgone))] at hcard
    rw [hn, hnum, hcard, add_zero]
  | waiting hres hpending hreq hst hn hw hsk =>
    rw [if_neg (hlive hfin), sub_zero] at hn
    rw [if_neg (hnot (by rw [hst]; decide))] at hcard
    rw [hn, hnum, hcard, add_zero]
  | skipped hreq hst hn hw hsk =>
    rw [if_pos (mem_streaming.mpr ⟨⟨id, hreq ▸ hv⟩, hst⟩)] at hcard
    rw [hn, hnum, hcard]

/-- A request that goes on stays where it is. -/
theorem Takes.kept {r : Request} (h : Takes cfg hasher out m id z.s v false r)
    (hagree : Agrees (z.s.modify v fun _ => r) s) (hkept : z.s.KeptAs z.left) :
    KeptAs s (Stops.left { z with s }) := by
  have hstatus := h.status hagree
  refine hkept.congr (fun id v hv => hagree.requests ▸ hv)
    (fun v => congrArg RequestStatus.isFinished (hstatus v)) (fun w hmem => ?_) (fun w => ?_)
    hagree.numWaitingForStreamingInput
  · rw [Stops.mem_left] at hmem ⊢
    rw [hagree.running, hagree.waiting, hagree.skippedWaiting]
    exact hmem
  · rw [mem_streaming, mem_streaming, hstatus, hagree.requests]
    rfl

/-- A request that may stop is in a queue afterwards, or finished. -/
theorem Takes.mem_left {r : Request} {s1 : Scheduler} (h : Takes cfg hasher out m id z.s v true r)
    (hr : s1.req v = r) (hcan : z.s.CanStop v) (hlands : Lands v s1 s)
    (hstopped : v ∉ z.stoppedPreemptedReqs) (hlive : (s.req v).isFinished = false)
    (hz : z' = if (z.s.req v).status = .running then
        { z with s, stoppedRunningReqs := z.stoppedRunningReqs.insert v }
      else { z with s, stoppedPreemptedReqs := z.stoppedPreemptedReqs.insert v }) :
    v ∈ z'.left.members := by
  obtain ⟨-, -, hnext⟩ := hcan
  rw [Stops.mem_left]
  cases hlands with
  | gone hgone hn hw hsk =>
    rw [hgone] at hlive
    cases hlive
  | waiting hres hpending hreq hst hn hw hsk =>
    -- the next input is there, so the request was running
    have hrun : (z.s.req v).status = .running := by
      rw [hr, h.field Request.resumable fun _ => rfl] at hres
      rw [hr, h.field Request.streamingQueue fun _ => rfl] at hpending
      rcases hnext with hrun | hnot | hnone
      · exact hrun
      · rw [hres] at hnot
        cases hnot
      · rw [hnone] at hpending
        cases hpending
    rw [hz, if_pos hrun]
    exact .inr (.inl ⟨hw.mem_iff.mpr mem_cons_self, hstopped⟩)
  | skipped hreq hst hn hw hsk =>
    have hmem : v ∈ s.skippedWaiting := hsk.mem_iff.mpr mem_cons_self
    rw [hz]
    split <;> exact .inr (.inr hmem)

theorem Turn.kept (h : Turn cfg hasher out m failed id z z') (hk : z.s.Known)
    (hkept : z.s.KeptAs z.left)
    (hstopped : ∀ v, z.s.requests.get? id = some v → v ∉ z.stoppedPreemptedReqs)
    (hcan : ∀ v, z.s.requests.get? id = some v → (z.s.req v).isFinished = false →
      z.s.StopsAt cfg m id v → z.s.CanStop v) :
    z'.s.KeptAs z'.left := by
  have htouches := h.touches
  have hret := h.retains hk
  cases h with
  | ignored _ => exact hkept
  | goesOn v r s hf htakes hagree => exact htakes.kept hagree hkept
  | stops v r s1 s hf htakes hagree hstop =>
    have hv := htakes.request
    have hmay := hcan v hv htakes.live htakes.stopsAt
    obtain ⟨appended, htokens⟩ := htakes.tokens
    have hr : s1.req v = r := by rw [hagree.req, req_modify_self]
    have honly := htakes.stop_onlyTouches hagree hstop
    generalize hz' : (if (z.s.req v).status = .running then _ else _ : Stops) = z'
      at htouches hret ⊢
    have hs : z'.s = s := by
      rw [← hz']
      split <;> rfl
    -- `v` did not wait for an input before
    have hold : v ∉ z.s.streaming := by
      rw [mem_streaming]
      rintro ⟨-, hst⟩
      have hfree := hmay.2.1
      rw [hst] at hfree
      cases hfree
    rw [hs] at hret
    refine ⟨fun id' w hw hlive => ?_, ?_⟩
    · rw [hs] at hw hlive
      by_cases hne : w = v
      · rw [hne] at hlive ⊢
        exact htakes.mem_left hr hmay hstop.lands (hstopped v hv) hlive hz'.symm
      · rw [honly.req w hne] at hlive
        have hmem := hkept.all id' w (hret.requests id' w hw) hlive
        rcases htouches with heq | ⟨u, hu, ht⟩
        · rwa [heq]
        · rw [hv] at hu
          cases hu
          exact (ht.mem_left hne).mpr hmem
    · rw [hs]
      exact hstop.lands.counted (fun w hw => hret.mem_streaming (by rw [honly.req w hw])) hold
        (hagree.requests ▸ hv) (hr ▸ htokens.stops rfl)
        (hagree.numWaitingForStreamingInput.trans hkept.counted)

theorem removeStopped_kept (hnodup : z.s.running.Nodup)
    (hk : z.s.KeptAs z.left) : (removeStopped cfg z).Kept := by
  have hmem : ∀ w ∈ z.left.members, w ∈ ((removeStopped cfg z).queues []).members := by
    intro w hw
    rw [mem_running_or_waiting]
    rw [Stops.mem_left] at hw
    unfold removeStopped
    have hrun : w ∈ z.s.running ∧ w ∉ z.stoppedRunningReqs →
        w ∈ removeAll z.s.running z.stoppedRunningReqs := by
      intro hw
      rw [removeAll_eq_filter hnodup]
      exact mem_filter.mpr ⟨hw.1, decide_eq_true hw.2⟩
    split
    · rcases hw with hw | hw | hw
      · exact .inl (hrun hw)
      · exact .inr (.inl hw.1)
      · exact .inr (.inr hw)
    · rcases hw with hw | hw | hw
      · exact .inl (hrun hw)
      · refine .inr (.inl ?_)
        rw [(RequestQueue.removeRequests_perm ..).mem_iff]
        exact mem_filter.mpr ⟨hw.1, decide_eq_true hw.2⟩
      · exact .inr (.inr hw)
  have hsame : (removeStopped cfg z).req = z.s.req ∧
      (removeStopped cfg z).requests = z.s.requests ∧
      (removeStopped cfg z).numWaitingForStreamingInput = z.s.numWaitingForStreamingInput := by
    unfold removeStopped
    split <;> exact ⟨rfl, rfl, rfl⟩
  obtain ⟨hreq, hrequests, hnum⟩ := hsame
  refine hk.congr (fun id v hv => hrequests ▸ hv) (fun v => by rw [hreq]) hmem (fun v => ?_) hnum
  rw [mem_streaming, mem_streaming, hreq, hrequests]

end

/-! ## Finished requests -/

theorem validRequests_nodup (hk : s.Known) {ids : List RequestId} (hids : ids.Nodup) :
    (s.validRequests ids).Nodup := by
  refine hids.filterMap fun id id' v hv hv' => ?_
  obtain ⟨w, hw, hsome⟩ := Option.bind_eq_some_iff.mp hv
  obtain ⟨w', hw', hsome'⟩ := Option.bind_eq_some_iff.mp hv'
  have hself : ∀ {u : Ref} {o : Option Ref}, (if (s.req u).isFinished then none else some u) = o →
      o = some v → u = v := by
    rintro u o rfl hu
    split at hu
    · cases hu
    · exact Option.some.inj hu
  rw [hself rfl hsome] at hw
  rw [hself rfl hsome'] at hw'
  rw [← hk id v hw, hk id' v hw']

/-- The sessions among the finished requests no longer wait. -/
theorem card_sdiff_streaming {vs : List Ref} (hnodup : vs.Nodup)
    (hreg : ∀ v ∈ vs, ∃ id, s.requests.get? id = some v) :
    ((s.streaming \ vs.toFinset).card : ℤ) = s.streaming.card -
      vs.countP fun v => (s.req v).status = .waitingForStreamingReq := by
  have hinter : s.streaming ∩ vs.toFinset =
      (vs.filter fun v => (s.req v).status = .waitingForStreamingReq).toFinset := by
    ext w
    rw [Finset.mem_inter, mem_streaming, mem_toFinset, mem_toFinset, mem_filter,
      decide_eq_true_eq]
    constructor
    · rintro ⟨⟨-, hst⟩, hw⟩
      exact ⟨hw, hst⟩
    · rintro ⟨hw, hst⟩
      exact ⟨⟨hreg w hw, hst⟩, hw⟩
  have hsplit := Finset.card_sdiff_add_card_inter s.streaming vs.toFinset
  rw [hinter, toFinset_card_of_nodup (hnodup.filter _), ← countP_eq_length_filter]
    at hsplit
  omega

theorem Kept.finishRequests (h : s.Kept) (hq : s.Queued) {ids : Option (List RequestId)}
    {finishedStatus : RequestStatus} (hf : s.finishRequests cfg a ids finishedStatus = some s') :
    s'.Kept := by
  obtain ⟨hfinished, vs, s1, hvs, hw, hfin⟩ := finishRequests_cases hf
  have hnodup : vs.Nodup := by
    rw [hvs]
    refine validRequests_nodup hq.known ?_
    cases ids with
    | none => exact s.requests.nodup
    | some ids => exact nodup_dedup ids
  have hreg : ∀ v ∈ vs, ∃ id, s.requests.get? id = some v := by
    intro v hv
    rw [hvs] at hv
    obtain ⟨id, -, hid, -⟩ := mem_validRequests hv
    exact ⟨id, hid⟩
  have hret := finishRequests_retains hq.known hf
  have hold : ∀ v ∉ vs, s'.req v = s.req v := by
    intro v hv
    rw [hfin.others v hv, hw.req]
  have hnew : ∀ v ∈ vs, (s'.req v).status = finishedStatus := by
    intro v hv
    rw [hfin.finished v hv]
  refine ⟨fun id v hv hlive => ?_, ?_⟩
  · have hnot : v ∉ vs := by
      intro hmem
      rw [Request.isFinished, hnew v hmem, hfinished] at hlive
      cases hlive
    rw [hold v hnot] at hlive
    have hmem : v ∈ (s1.queues []).members := by
      have hold := h.all id v (hret.requests id v hv) hlive
      obtain ⟨hrun, hwait⟩ := hw.perm hq
      rw [Queues.members, mem_append, hrun, hwait.mem_iff]
      exact (mem_append.mp hold).imp (mem_filter.mpr ⟨·, decide_eq_true hnot⟩)
        (mem_filter.mpr ⟨·, decide_eq_true hnot⟩)
    rw [mem_running_or_waiting] at hmem ⊢
    rwa [hfin.running, hfin.waiting, hfin.skippedWaiting]
  · have hset : s'.streaming = s.streaming \ vs.toFinset := by
      ext w
      rw [Finset.mem_sdiff, mem_toFinset]
      by_cases hmem : w ∈ vs
      · refine iff_of_false (fun hst => ?_) fun hst => hst.2 hmem
        rw [mem_streaming, hnew w hmem] at hst
        rw [hst.2] at hfinished
        cases hfinished
      · rw [and_iff_left hmem]
        exact hret.mem_streaming (by rw [hold w hmem])
    rw [hset, card_sdiff_streaming hnodup hreg, hfin.numWaitingForStreamingInput,
      hw.numWaitingForStreamingInput, h.counted]

/-! ## The methods -/

/-- The requests that stop with an output can stop. -/
def OutputSettles (cfg : SchedulerConfig) (s : Scheduler) (out : SchedulerOutput)
    (m : ModelRunnerOutput) : Prop :=
  ∀ id ∈ out.numScheduledTokens.keys, ∀ v ∈ s.requests.get? id, (s.req v).isFinished = false →
    s.StopsAt cfg m id v → s.CanStop v

instance (s : Scheduler) (out : SchedulerOutput) (m : ModelRunnerOutput) :
    Decidable (s.OutputSettles cfg out m) :=
  inferInstanceAs (Decidable (∀ id ∈ _, ∀ v ∈ _, _ → _ → CanStop ..))

variable {m : ModelRunnerOutput} {out : SchedulerOutput}

theorem OutputSettles.spares (h : s.OutputSettles cfg out m) (hq : s.Queued) :
    s.Spares cfg out m := by
  intro id hid v hv hreg hstops
  have hmem : v ∈ (s.queues []).inWaiting :=
    mem_append_left _ (mem_append_right _ hv)
  exact (h id hid v hreg (hq.ok.waiting v hmem).2 hstops).1 hv

theorem OutputSettles.of_sameQueues (h : s.OutputSettles cfg out m)
    (hsame : SameQueues s s') : s'.OutputSettles cfg out m := by
  intro id hid v hv hlive hstops
  have hstatus : (s'.req v).status = (s.req v).status :=
    congrFun (congrArg Queues.status (hsame.queues [])) v
  have hskip : s'.skippedWaiting = s.skippedWaiting := congrArg Queues.skipped (hsame.queues [])
  rw [hsame.requests] at hv
  rw [Request.isFinished, hstatus] at hlive
  rw [CanStop, hskip, hstatus, hsame.field Request.resumable (fun _ => rfl) v,
    hsame.field Request.streamingQueue (fun _ => rfl) v]
  exact h id hid v hv hlive (hsame.stopsAt_iff.mp hstops)

theorem Kept.updateFromOutput (h : s.Kept) (hq : s.Queued) (hsettles : s.OutputSettles cfg out m)
    (hs : s.updateFromOutput cfg hasher a out m = some s') : s'.Kept := by
  refine (hq.orderly.updateFromOutput_invariant (fun s => s.Queued ∧ s.Kept)
    (fun z => z.left.Ok ∧ z.s.KeptAs z.left) hs (fun s1 hsame => ?_) ?_ ?_ ?_).2.2
  · have hq1 := hq.of_sameQueues hsame
    have hsettles1 := hsettles.of_sameQueues hsame
    refine ⟨left_start s1 ▸ ⟨hq1.ok, h.of_sameQueues hq hsame⟩, ?_⟩
    rintro failed id n z z' hmem hun ⟨hqz, hz⟩ hturn
    have hid := mem_map_of_mem (f := Prod.fst) hmem
    refine ⟨hturn.left_ok hqz ((hsettles1.spares hq1).at_turn hid hun),
      hturn.kept hun.known hz (fun v hv => ?_) fun v hv hlive hstops => ?_⟩
    · rw [hun.requests] at hv
      exact (hun.stopped v hv).2
    · rw [hun.requests] at hv
      rw [hun.req v hv] at hlive
      rw [StopsAt, hun.req v hv] at hstops
      rw [CanStop, hun.skippedWaiting v hv, hun.req v hv]
      exact hsettles1 id hid v hv hlive hstops
  · exact fun z hz hnodup ho =>
      ⟨ho.queued (removeStopped_ok hz.1 hnodup), removeStopped_kept hnodup hz.2⟩
  · exact fun s s' ids status _ h hf => ⟨h.1.finishRequests hf, h.2.finishRequests h.1 hf⟩
  · exact fun s s' _ h hf => ⟨h.1.of_forgets hf, h.2.of_forgets hf⟩

theorem Kept.addNewRequest (h : s.Kept) (hq : s.Queued) {r : Request}
    (hnew : s.requests.get? r.requestId = none)
    (hstatus : r.status = .waiting ∨ r.status = .waitingForStructuredOutputGrammar) :
    (s.addNewRequest cfg r).Kept := by
  obtain ⟨r', hadds⟩ := addNewRequest_adds cfg s r
  set s' := s.addNewRequest cfg r
  have hne : ∀ id w, s.requests.get? id = some w → w ≠ s.nextRef := fun id w hw =>
    Nat.ne_of_lt (hq.bounded id w hw)
  have hmem : ∀ w, w = s.nextRef ∨ w ∈ (s.queues []).members → w ∈ (s'.queues []).members := by
    intro w hw
    rw [mem_running_or_waiting, ← mem_append, hadds.running, hadds.waiting_perm.mem_iff,
      mem_cons, mem_append]
    rw [mem_running_or_waiting] at hw
    tauto
  refine ⟨fun id w hw hlive => ?_, ?_⟩
  · rw [hadds.requests, Dict.get?_set] at hw
    split at hw
    · cases hw
      exact hmem _ (.inl rfl)
    · rw [hadds.others w (hne id w hw)] at hlive
      exact hmem w (.inr (h.all id w hw hlive))
  · rw [hadds.numWaitingForStreamingInput, h.counted]
    refine congrArg (fun t : Finset Ref => (t.card : ℤ)) (Finset.ext fun w => ?_)
    rw [mem_streaming, mem_streaming, hadds.requests]
    constructor
    · rintro ⟨⟨id, hw⟩, hst⟩
      rw [hadds.others w (hne id w hw)]
      refine ⟨⟨id, ?_⟩, hst⟩
      rw [Dict.get?_set_of_ne]
      · exact hw
      · intro heq
        rw [heq, hnew] at hw
        cases hw
    · rintro ⟨⟨id, hw⟩, hst⟩
      rw [Dict.get?_set] at hw
      split at hw
      · cases hw
        rw [hadds.self, hadds.status] at hst
        rw [hst] at hstatus
        rcases hstatus with hcon | hcon <;> cases hcon
      · rw [hadds.others w (hne id w hw)] at hst
        exact ⟨⟨id, hw⟩, hst⟩

theorem Kept.addRequest (h : s.Kept) (hq : s.Queued) {q : Request.EngineCoreRequest}
    (hs : s.addRequest cfg hasher a q = some s') : s'.Kept := by
  obtain ⟨r, harrives, hadds⟩ := addRequest_cases hs
  cases hadds with
  | new hnew => exact h.addNewRequest hq hnew harrives.status
  | queued v queue hv hstatus hqueue =>
    set f := Request.withStreamingQueue (some (queue ++ [r.toStreamingUpdate]))
    have hst : ∀ w, ((s.modify v f).req w).status = (s.req w).status :=
      congrFun (congrArg Queues.status (queues_modify_same s v f [] rfl))
    refine h.congr (fun _ _ hw => hw) (fun w => congrArg RequestStatus.isFinished (hst w))
      (fun _ hw => hw) (fun w => ?_) rfl
    rw [mem_streaming, mem_streaming, hst]
    rfl
  | continued v update r' hv hstatus hupdate hr' =>
    have hcont := Request.updateAsSession_continues hr'
    set s1 : Scheduler :=
      { s with numWaitingForStreamingInput := s.numWaitingForStreamingInput - 1 }
    have hself : ((s1.modify v fun _ => r').req v).status = .waiting := by
      rw [req_modify_self]
      exact hcont.status
    have hothers : ∀ w, w ≠ v → (s1.modify v fun _ => r').req w = s.req w := fun w hw =>
      req_modify_of_ne s1 _ hw
    refine ⟨fun id w hw hlive => ?_, ?_⟩
    · by_cases hne : w = v
      · have hold : (s.req v).isFinished = false := by
          rw [Request.isFinished, hstatus]
          rfl
        rw [hne]
        exact h.all _ v hv hold
      · rw [hothers w hne] at hlive
        exact h.all id w hw hlive
    · have hmem : v ∈ s.streaming := mem_streaming.mpr ⟨⟨_, hv⟩, hstatus⟩
      have hcard : (s.streaming.card : ℤ) = _ := card_streaming_of_ne (v := v)
        (s := s1.modify v fun _ => r')
        (fun w hne => by rw [mem_streaming, mem_streaming, hothers w hne]; rfl)
        fun hmem => by rw [mem_streaming, hself] at hmem; cases hmem.2
      rw [if_pos hmem] at hcard
      show s.numWaitingForStreamingInput - 1 = _
      rw [h.counted, hcard, add_sub_cancel_right]
  | closed v s' hv hstatus hfin => exact h.finishRequests hq hfin

/-! ## The property -/

/-- Every live request is in the queues exactly once and in `running` if and only if it is running;
no finished request is there; the counter of waiting sessions is right. -/
structure Settled (s : Scheduler) : Prop where
  once : ∀ id v, s.requests.get? id = some v → (s.req v).isFinished = false →
    (s.running ++ s.waiting ++ s.skippedWaiting).count v = 1
  running : ∀ id v, s.requests.get? id = some v → (s.req v).isFinished = false →
    (v ∈ s.running ↔ (s.req v).status = .running)
  live : ∀ v ∈ s.running ++ s.waiting ++ s.skippedWaiting, (s.req v).isFinished = false
  counted : s.numWaitingForStreamingInput =
    s.requests.values.countP fun v => (s.req v).status = .waitingForStreamingReq

theorem members_eq : (s.queues []).members = s.running ++ s.waiting ++ s.skippedWaiting := by
  show s.running ++ (s.waiting ++ s.skippedWaiting ++ []) = _
  rw [append_nil, append_assoc]

theorem settled_of_kept (h : s.Kept) (hq : s.Queued) : s.Settled := by
  have hnodup : (s.queues []).members.Nodup := by
    refine List.Nodup.append hq.ok.running_nodup hq.ok.waiting_nodup fun v hrun hwait => ?_
    exact (hq.ok.waiting v hwait).1 (hq.ok.running v hrun)
  rw [members_eq] at hnodup
  refine ⟨fun id v hv hlive => ?_, fun id v hv hlive => ?_, fun v hv => ?_, ?_⟩
  · have hmem := h.all id v hv hlive
    rw [members_eq] at hmem
    exact count_eq_one_of_mem hnodup hmem
  · refine ⟨hq.ok.running v, fun hst => ?_⟩
    rcases mem_append.mp (h.all id v hv hlive) with hrun | hwait
    · exact hrun
    · exact absurd hst (hq.ok.waiting v hwait).1
  · rw [← members_eq] at hv
    rcases mem_append.mp hv with hrun | hwait
    · have hst : (s.req v).status = .running := hq.ok.running v hrun
      rw [Request.isFinished, hst]
      rfl
    · exact (hq.ok.waiting v hwait).2
  · rw [h.counted, card_streaming hq.known]

end Scheduler

/-! ## Runs -/

namespace Engine

/-- The requests that stop with the output can stop. -/
def Settles (cfg : SchedulerConfig) (e : Engine) : Event → Prop
  | .updateFromOutput m _ => ∀ out ∈ e.inFlight.head?, e.s.OutputSettles cfg out m
  | _ => True

instance (e : Engine) (ev : Event) : Decidable (e.Settles cfg ev) :=
  match ev with
  | .updateFromOutput m _ =>
    inferInstanceAs (Decidable (∀ out ∈ e.inFlight.head?, e.s.OutputSettles cfg out m))
  | .addRequest _ _ | .finishRequests _ _ _ | .schedule _ | .updateDraftTokenIds _
  | .resetPrefixCache _ | .resetEncoderCache | .setPauseState _ => isTrue trivial

theorem Settles.spares {e : Engine} {ev : Event} (h : e.Settles cfg ev) (hq : e.s.Queued) :
    e.Spares cfg ev := by
  cases ev with
  | updateFromOutput m a => exact fun out hout => (h out hout).spares hq
  | _ => trivial

theorem step_kept {e e' : Engine} {ev : Event} (h : e.s.Kept) (hq : e.s.Queued)
    (hsettles : e.Settles cfg ev) (hstep : e.step cfg hasher ev = some e') : e'.s.Kept := by
  cases step_acts hstep with
  | addRequest q a hs => exact h.addRequest hq hs
  | finishRequests ids status a hs => exact h.finishRequests hq hs
  | updateFromOutput m a out hout hs => exact h.updateFromOutput hq (hsettles out hout) hs
  | moves _ hsame hmoves => exact h.of_moves hq hsame hmoves

/-- **No request is lost.** In every state of a run in which every request that stops with an output
can stop, the queues and the counter are right. -/
theorem settled_of_settles {kv : KVCacheManager} {enc : EncoderCacheManager} {e : Engine}
    (h : Reach (step cfg hasher) (Settles cfg) (init kv enc) e) : e.s.Settled := by
  have hinv : e.s.Kept ∧ e.s.Queued := by
    refine h.invariant (fun e => e.s.Kept ∧ e.s.Queued) ?_ ?_
    · refine ⟨⟨fun _ _ hv => ?_, rfl⟩, Scheduler.queued_init kv enc⟩
      cases hv
    · rintro e ev e' ⟨hkept, hq⟩ hsettles hstep
      exact ⟨step_kept hkept hq hsettles hstep, step_queued hq (hsettles.spares hq) hstep⟩
  exact Scheduler.settled_of_kept hinv.1 hinv.2

/-! ## A session that stops while it is preempted -/

def lostConfig : SchedulerConfig where
  maxNumRunningReqs := 2
  maxNumScheduledTokens := 8
  maxModelLen := 16
  blockSize := 4

/-- An input of a session that asks for one token. -/
def lostInput : Request.EngineCoreRequest where
  requestId := 0
  promptTokenIds := [1, 2]
  maxTokens := 1
  resumable := true

/-- The session is scheduled, its next input comes, it is preempted, and then its token arrives. -/
def lostEvents : List Event :=
  [.addRequest lostInput {}, .schedule {}, .addRequest lostInput {}, .resetPrefixCache true,
    .updateFromOutput { sampledTokenIds := fun _ => [7] } {}]

/-- The session is live and in no queue. -/
theorem stopped_session_is_lost : ∃ e0 e, startFull 8 16 = some e0 ∧
    run (step lostConfig fun _ => some []) e0 lostEvents = some e ∧
    e.s.requests.get? 0 = some 0 ∧ (e.s.req 0).status = .waiting ∧
    e.s.running ++ e.s.waiting ++ e.s.skippedWaiting = [] ∧ ¬e.s.Settled := by
  obtain ⟨e0, he0, e, he, hget, hst, hnone⟩ : ∃ e0 ∈ startFull 8 16,
      ∃ e ∈ run (step lostConfig fun _ => some []) e0 lostEvents, e.s.requests.get? 0 = some 0 ∧
        (e.s.req 0).status = .waiting ∧
        e.s.running ++ e.s.waiting ++ e.s.skippedWaiting = [] := by
    decide +kernel
  refine ⟨e0, e, he0, he, hget, hst, hnone, fun hsettled => ?_⟩
  have honce := hsettled.once 0 0 hget (by rw [Request.isFinished, hst]; rfl)
  rw [hnone] at honce
  cases honce

/-- Two preempted requests get a token. A session without a next input stops and waits for it, and
the other request goes on in the waiting queue. -/
theorem preempted_session_settles : ∃ kv e,
    Reach (step lostConfig fun _ => some []) (Settles lostConfig) (init kv (.init false 0)) e ∧
    e.s.skippedWaiting = [0] ∧ e.s.waiting = [1] ∧ (e.s.req 1).outputTokenIds = [7] ∧
    e.s.Settled := by
  obtain ⟨e0, he0, e, he, hskipped, hwaiting, htokens⟩ : ∃ e0 ∈ startFull 8 16,
      ∃ e ∈ run (guarded (Settles lostConfig) (step lostConfig fun _ => some [])) e0
        [.addRequest lostInput {}, .addRequest { requestId := 1, promptTokenIds := [3] } {},
          .schedule {}, .resetPrefixCache true,
          .updateFromOutput { sampledTokenIds := fun _ => [7] } {}],
        e.s.skippedWaiting = [0] ∧ e.s.waiting = [1] ∧ (e.s.req 1).outputTokenIds = [7] := by
    decide +kernel
  obtain ⟨kv, -, rfl⟩ := Option.map_eq_some_iff.mp he0
  have hreach := Reach.of_guarded_run .init he
  exact ⟨kv, e, hreach, hskipped, hwaiting, htokens, settled_of_settles hreach⟩

end Engine

end Nvllm.Sched
