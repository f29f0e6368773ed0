import Nvllm.Sched.Engine
import Nvllm.Sched.QueueInv
import Nvllm.Sched.UpdateCases

/-! # The registered requests of a run

Two facts about the calls between the passes that hold in all runs. No request starts to run and
none gets another id or adapter (`Narrows`). And the running requests are in order, while the
waiting queues may hold requests that are finished or occur twice (`Orderly`): `Queued` of the
module on queues says more, but sessions that stop while they are skipped break it.
-/

namespace Nvllm.Sched

open Nvllm.KVCache Nvllm.Run List

/-- The adapter of a request. -/
def Request.lora (r : Request) : Option ℕ :=
  r.loraRequest.bind fun l => if 0 < l.loraIntId then some l.loraIntId else none

namespace Scheduler

variable {cfg : SchedulerConfig} {hasher : Request → Option (List Bytes)} {a : Answers}
  {s s' s'' : Scheduler} {v : Ref}

/-! ## Between the passes -/

/-- The request is in a queue or registered. -/
def Has (s : Scheduler) (v : Ref) : Prop :=
  v ∈ s.running ∨ v ∈ s.waiting ∨ v ∈ s.skippedWaiting ∨ ∃ id, s.requests.get? id = some v

def InQueue (s : Scheduler) (v : Ref) : Prop :=
  v ∈ s.running ∨ v ∈ s.waiting ∨ v ∈ s.skippedWaiting

theorem has_iff : s.Has v ↔ s.InQueue v ∨ ∃ id, s.requests.get? id = some v := by
  rw [Has, InQueue, or_assoc, or_assoc]

theorem InQueue.has (h : s.InQueue v) : s.Has v := has_iff.mpr (.inl h)

theorem mem_running_or_waiting : v ∈ (s.queues []).members ↔
    v ∈ s.running ∨ v ∈ s.waiting ∨ v ∈ s.skippedWaiting := by
  show v ∈ s.running ++ (s.waiting ++ s.skippedWaiting ++ []) ↔ _
  rw [append_nil, mem_append, mem_append]

/-- A request of the queues after a pass was in one before it. -/
theorem InQueue.of_moves {policy : SchedulingPolicy} {lt : Ref → Ref → Bool}
    (h : Queues.Moves policy lt (s.queues []) (s'.queues [])) (hv : s'.InQueue v) : s.InQueue v :=
  mem_running_or_waiting.mp (h.members_perm.mem_iff.mp (mem_running_or_waiting.mpr hv))

/-- No request starts to run. -/
structure Narrows (s s' : Scheduler) : Prop extends Retains s s' where
  lora : ∀ v, (s'.req v).lora = (s.req v).lora
  running : s'.running ⊆ s.running
  waiting : ∀ v, v ∈ s'.waiting ∨ v ∈ s'.skippedWaiting → s.Has v

theorem Narrows.has (h : Narrows s s') (hv : s'.Has v) : s.Has v := by
  rcases hv with hv | hv | hv | ⟨id, hv⟩
  · exact .inl (h.running hv)
  · exact h.waiting v (.inl hv)
  · exact h.waiting v (.inr hv)
  · exact .inr (.inr (.inr ⟨id, h.requests id v hv⟩))

theorem has_of_waiting (h : v ∈ s.waiting ∨ v ∈ s.skippedWaiting) : s.Has v :=
  .inr (h.imp_right .inl)

theorem Narrows.refl (s : Scheduler) : Narrows s s :=
  ⟨.refl s, fun _ => rfl, Subset.refl _, fun _ => has_of_waiting⟩

theorem Narrows.trans (h : Narrows s s') (h' : Narrows s' s'') : Narrows s s'' where
  toRetains := h.toRetains.trans h'.toRetains
  lora v := (h'.lora v).trans (h.lora v)
  running := Subset.trans h'.running h.running
  waiting v hv := h.has (h'.waiting v hv)

theorem SameQueues.status (h : SameQueues s s') (v : Ref) : (s'.req v).status = (s.req v).status :=
  congrFun (congrArg Queues.status (h.queues [])) v

theorem Narrows.of_sameQueues (h : SameQueues s s') : Narrows s s' where
  requestId := h.toSameRequests.field Request.requestId fun _ => rfl
  live v hv := by rwa [Request.isFinished, h.status] at hv
  requests id v hv := by rwa [h.toSameRequests.requests] at hv
  keeps id v hv _ := by rwa [h.toSameRequests.requests]
  nextRef := h.toSameRequests.nextRef
  lora := h.toSameRequests.field Request.lora fun _ => rfl
  running := by
    have hrun : s'.running = s.running := congrArg Queues.running (h.queues [])
    rw [hrun]
    exact Subset.refl _
  waiting v hv := by
    have hwait : s'.waiting = s.waiting := congrArg Queues.waiting (h.queues [])
    have hskip : s'.skippedWaiting = s.skippedWaiting := congrArg Queues.skipped (h.queues [])
    rw [hwait, hskip] at hv
    exact has_of_waiting hv

theorem StopOutcome.lora (h : StopOutcome cfg hasher s v s') :
    (s'.req v).lora = (s.req v).lora := by
  cases h with
  | finished streamingQueue requests _ _ hagree =>
    rw [hagree.req, req_modify_self]
    rfl
  | continued update queue r _ _ hr hagree =>
    rw [(enqueues_of_agrees hagree).req, req_modify_self, Request.lora,
      (Request.updateAsSession_continues hr).loraRequest]
    rfl
  | idle _ _ hagree =>
    rw [(enqueues_of_agrees hagree).req, req_modify_self]
    rfl

section

variable {out : SchedulerOutput} {m : ModelRunnerOutput} {failed : List RequestId}
  {id : RequestId} {z z' : Stops}

theorem Turn.lora (h : Turn cfg hasher out m failed id z z') (w : Ref) :
    (z'.s.req w).lora = (z.s.req w).lora := by
  have htakes : ∀ v r s stopped, Takes cfg hasher out m id z.s v stopped r →
      Agrees (z.s.modify v fun _ => r) s → (s.req w).lora = (z.s.req w).lora := by
    intro v r s stopped htakes hagree
    rw [hagree.req]
    exact field_modify Request.lora (htakes.field Request.lora fun _ => rfl) w
  cases h with
  | ignored _ => rfl
  | goesOn v r s _ ht hagree => exact htakes v r s false ht hagree
  | stops v r s1 s _ ht hagree hstop =>
    have hboth : (s.req w).lora = (z.s.req w).lora :=
      (hstop.onlyTouches.field Request.lora hstop.lora w).trans (htakes v r s1 true ht hagree)
    split <;> exact hboth

theorem Turn.narrows (h : Turn cfg hasher out m failed id z z') (hk : z.s.Known) :
    Narrows z.s z'.s := by
  refine ⟨h.retains hk, h.lora, ?_, fun w hw => ?_⟩ <;>
    rcases h.touches with rfl | ⟨v, hv, ⟨ht, -, -⟩⟩
  · exact Subset.refl _
  · rw [ht.running]
    exact Subset.refl _
  · exact has_of_waiting hw
  · by_cases hne : w = v
    · exact .inr (.inr (.inr ⟨id, hne ▸ hv⟩))
    · exact has_of_waiting (hw.imp (ht.waiting w hne).mp (ht.skippedWaiting w hne).mp)

theorem removeAll_subset (lst items : List Ref) : removeAll lst items ⊆ lst := by
  unfold removeAll
  split
  · exact Subset.refl _
  · exact erase_subset
  · exact filter_sublist.subset

theorem removeRequests_subset (policy : SchedulingPolicy) (lt : Ref → Ref → Bool)
    (xs q : List Ref) : RequestQueue.removeRequests policy lt xs q ⊆ q := fun _ hv =>
  mem_of_mem_filter ((RequestQueue.removeRequests_perm policy lt xs q).mem_iff.mp hv)

theorem removeStopped_narrows (cfg : SchedulerConfig) (z : Stops) :
    Narrows z.s (removeStopped cfg z) := by
  unfold removeStopped
  split
  · exact { Narrows.refl z.s with running := removeAll_subset _ _ }
  · refine { Narrows.refl z.s with running := removeAll_subset _ _, waiting := fun v hv => ?_ }
    exact has_of_waiting (hv.imp_left (removeRequests_subset _ _ _ _ ·))

/-- **The loop over an output**, with the running requests that it leaves in their list. -/
theorem updateLoop_narrows {es : List (RequestId × ℤ)} (hk : z.s.Known)
    (h : updateLoop cfg hasher a out m failed es z = some z') :
    Narrows z.s z'.s ∧ z'.s.running = z.s.running := by
  induction es generalizing z with
  | nil =>
    cases h
    exact ⟨.refl _, rfl⟩
  | cons e es ih =>
    obtain ⟨z1, hturn, h⟩ := Option.bind_eq_some_iff.mp h
    have hcase := updateTurn_cases hturn
    have hone := hcase.narrows hk
    obtain ⟨hrest, hrun⟩ := ih (hone.known hk) h
    refine ⟨hone.trans hrest, hrun.trans ?_⟩
    rcases hcase.touches with rfl | ⟨v, -, ht⟩
    · rfl
    · exact ht.onlyTouches.running

end

theorem finishRequests_narrows {ids : Option (List RequestId)} {finishedStatus : RequestStatus}
    (hk : s.Known) (h : s.finishRequests cfg a ids finishedStatus = some s') : Narrows s s' := by
  refine { finishRequests_retains hk h with lora := fun v => ?_, running := ?_, waiting := ?_ } <;>
    obtain ⟨-, vs, s1, -, hw, hfin⟩ := finishRequests_cases h
  · by_cases hv : v ∈ vs
    · rw [hfin.finished v hv, hw.req]
      rfl
    · rw [hfin.others v hv, hw.req]
  · rw [hfin.running, hw.running]
    exact removeAll_subset _ _
  · intro v hv
    rw [hfin.waiting, hfin.skippedWaiting] at hv
    obtain ⟨others, -, ⟨-, hwait, hskip⟩ | ⟨hwait, hskip⟩⟩ := hw.waiting <;>
      rw [hwait, hskip] at hv
    · exact has_of_waiting hv
    · exact has_of_waiting (hv.imp (removeRequests_subset _ _ _ _ ·)
        (removeRequests_subset _ _ _ _ ·))

theorem Narrows.of_forgets (h : Forgets s s') : Narrows s s' where
  toRetains := h.retains
  lora v := by rw [h.req]
  running := by
    rw [h.running]
    exact Subset.refl _
  waiting v hv := by
    rw [h.waiting, h.skippedWaiting] at hv
    exact has_of_waiting hv

theorem updateFromOutput_narrows {out : SchedulerOutput} {m : ModelRunnerOutput} (hk : s.Known)
    (h : s.updateFromOutput cfg hasher a out m = some s') : Narrows s s' := by
  obtain ⟨failed, s1, z, s2, ⟨hsame, -⟩, hloop, hfinish, h⟩ := updateFromOutput_cases h
  have h1 := Narrows.of_sameQueues hsame
  have hloop' : Narrows s (removeStopped cfg z) :=
    (h1.trans (updateLoop_narrows (h1.known hk) hloop).1).trans (removeStopped_narrows cfg z)
  have h2 : Narrows s s2 := by
    rcases hfinish with rfl | hfinish
    · exact hloop'
    · exact hloop'.trans (finishRequests_narrows (hloop'.known hk) hfinish)
  exact h2.trans (.of_forgets (updateFromKvXferFinished_forgets (h2.known hk) h))

theorem preemptAll_running {vs : List Ref} (hrun : s.running = vs.reverse)
    (h : preemptAll cfg vs s = some s') :
    s'.running = [] ∧ ∀ w, (s'.req w).isFinished = false → (s.req w).isFinished = false := by
  induction vs generalizing s with
  | nil =>
    cases h
    exact ⟨hrun, fun _ => id⟩
  | cons v vs ih =>
    obtain ⟨s1, hs1, h⟩ := Option.bind_eq_some_iff.mp h
    have hrun1 : s1.running = vs.reverse := Pass.preemptRequest_running hs1
    obtain ⟨hnil, hlive⟩ := ih (s := s1.modify v _) hrun1 h
    refine ⟨hnil, fun w hw => ?_⟩
    by_cases hwv : w = v
    · have hstatus : (s.req v).status = .running := (Pass.preemptRequest_eq_some hs1).1
      rw [hwv, Request.isFinished, hstatus]
      rfl
    · have hw1 := hlive w hw
      rw [req_modify_of_ne _ _ hwv, (Pass.preemptRequest_req hs1).2 w hwv] at hw1
      exact hw1

variable {resetRunningRequests : Bool}

theorem resetPrefixCache_narrows
    (h : s.resetPrefixCache cfg resetRunningRequests = some s') : Narrows s s' := by
  obtain ⟨⟨hsame, -⟩, hmoves⟩ := resetPrefixCache_moves h
  have hreset : s'.running ⊆ s.running ∧
      ∀ v, (s'.req v).isFinished = false → (s.req v).isFinished = false := by
    unfold resetPrefixCache at h
    split at h
    · obtain ⟨s1, hs1, h⟩ := Option.bind_eq_some_iff.mp h
      dsimp only at h
      split at h
      · cases h
        obtain ⟨hnil, hlive⟩ := preemptAll_running (reverse_reverse _).symm hs1
        refine ⟨?_, hlive⟩
        rw [hnil]
        exact nil_subset _
      · cases h
    · cases h
      exact ⟨Subset.refl _, fun _ => id⟩
  refine ⟨⟨hsame.field Request.requestId fun _ => rfl, hreset.2, fun id v hv => ?_,
    fun id v hv _ => ?_, hsame.nextRef⟩, hsame.field Request.lora fun _ => rfl, hreset.1,
    fun v hv => ?_⟩
  · rwa [hsame.requests] at hv
  · rwa [hsame.requests]
  · exact (InQueue.of_moves hmoves (.inr hv)).has

theorem Narrows.modify {v : Ref} {f : Request → Request}
    (hlora : (f (s.req v)).lora = (s.req v).lora)
    (hid : (f (s.req v)).requestId = (s.req v).requestId)
    (hlive : (f (s.req v)).isFinished = (s.req v).isFinished) : Narrows s (s.modify v f) where
  requestId := field_modify Request.requestId hid
  live w hw := by rwa [field_modify Request.isFinished hlive] at hw
  requests _ _ h := h
  keeps _ _ h _ := h
  nextRef := rfl
  lora := field_modify Request.lora hlora
  running := Subset.refl _
  waiting := (Narrows.refl s).waiting

/-! ## Order -/

/-- Requests are registered under their ids, and references are given out in order. -/
structure Numbered (s : Scheduler) : Prop where
  known : s.Known
  bounded : ∀ v, s.Has v → v < s.nextRef

theorem numbered_init (kv : KVCacheManager) (enc : EncoderCacheManager) :
    (init kv enc).Numbered where
  known _ _ h := by cases h
  bounded v hv := by rcases hv with hv | hv | hv | ⟨id, hv⟩ <;> cases hv

theorem Numbered.narrowed (h : s.Numbered) (hn : Narrows s s') : s'.Numbered where
  known := hn.known h.known
  bounded v hv := by
    rw [hn.nextRef]
    exact h.bounded v (hn.has hv)

theorem Numbered.of_moves {policy : SchedulingPolicy} {lt : Ref → Ref → Bool} (h : s.Numbered)
    (hsame : SameRequests s s') (hm : Queues.Moves policy lt (s.queues []) (s'.queues [])) :
    s'.Numbered where
  known id v hv := by
    rw [hsame.requests] at hv
    rw [hsame.field Request.requestId fun _ => rfl]
    exact h.known id v hv
  bounded v hv := by
    rw [hsame.nextRef]
    refine h.bounded v (has_iff.mpr ((has_iff.mp hv).imp (InQueue.of_moves hm) ?_))
    rw [hsame.requests]
    exact id

theorem AddsNew.waiting_or {r r' : Request} (h : AddsNew cfg r r' s s')
    (hv : v ∈ s'.waiting ∨ v ∈ s'.skippedWaiting) :
    v = s.nextRef ∨ v ∈ s.waiting ∨ v ∈ s.skippedWaiting := by
  have hmem := h.waiting_perm.mem_iff.mp (mem_append.mpr hv)
  rwa [mem_cons, mem_append] at hmem

theorem Numbered.addNewRequest (h : s.Numbered) (r : Request) :
    (s.addNewRequest cfg r).Numbered := by
  obtain ⟨r', hadds⟩ := addNewRequest_adds cfg s r
  refine ⟨fun id v hv => ?_, fun v hv => ?_⟩
  · rw [hadds.requests, Dict.get?_set] at hv
    split at hv
    · rename_i heq
      cases hv
      rw [hadds.self, hadds.requestId, heq]
    · rw [hadds.others v (Nat.ne_of_lt (h.bounded v (.inr (.inr (.inr ⟨id, hv⟩)))))]
      exact h.known id v hv
  · rw [hadds.nextRef]
    have hcase : v = s.nextRef ∨ s.Has v := by
      rcases hv with hv | hv | hv | ⟨id, hv⟩
      · rw [hadds.running] at hv
        exact .inr (.inl hv)
      · exact (hadds.waiting_or (.inl hv)).imp_right has_of_waiting
      · exact (hadds.waiting_or (.inr hv)).imp_right has_of_waiting
      · rw [hadds.requests, Dict.get?_set] at hv
        split at hv
        · cases hv
          exact .inl rfl
        · exact .inr (.inr (.inr (.inr ⟨id, hv⟩)))
    rcases hcase with rfl | hhas
    · exact Nat.lt_succ_self _
    · exact Nat.lt_succ_of_lt (h.bounded v hhas)

/-- The running requests are in order, and requests in a queue are registered or finished. -/
structure Orderly (s : Scheduler) : Prop extends Numbered s where
  nodup : s.running.Nodup
  running : ∀ v ∈ s.running, (s.req v).status = .running
  registered : ∀ v, s.InQueue v → (s.req v).isFinished = false →
    s.requests.get? (s.req v).requestId = some v

theorem orderly_init (kv : KVCacheManager) (enc : EncoderCacheManager) : (init kv enc).Orderly where
  toNumbered := numbered_init kv enc
  nodup := nodup_nil
  running _ h := absurd h not_mem_nil
  registered v hv := by rcases hv with hv | hv | hv <;> cases hv

theorem Orderly.isFinished_running (h : s.Orderly) (hv : v ∈ s.running) :
    (s.req v).isFinished = false := by
  rw [Request.isFinished, h.running v hv]
  rfl

theorem Orderly.get?_of_has (h : s.Orderly) (hv : s.Has v) (hlive : (s.req v).isFinished = false) :
    s.requests.get? (s.req v).requestId = some v := by
  rcases has_iff.mp hv with hv | ⟨id, hv⟩
  · exact h.registered v hv hlive
  · rw [h.known id v hv]
    exact hv

/-- Between the passes only the list of the running requests is in question. -/
theorem Orderly.narrowed (h : s.Orderly) (hn : Narrows s s') (hnodup : s'.running.Nodup)
    (hrunning : ∀ v ∈ s'.running, (s'.req v).status = .running) : s'.Orderly where
  toNumbered := h.toNumbered.narrowed hn
  nodup := hnodup
  running := hrunning
  registered v hv hlive := by
    rw [hn.requestId]
    exact hn.keeps _ v (h.get?_of_has (hn.has hv.has) (hn.live v hlive)) hlive

theorem Orderly.of_sameQueues (h : s.Orderly) (hsame : SameQueues s s') : s'.Orderly := by
  have hrun : s'.running = s.running := congrArg Queues.running (hsame.queues [])
  refine h.narrowed (.of_sameQueues hsame) (hrun ▸ h.nodup) fun v hv => ?_
  rw [hsame.status]
  exact h.running v (hrun ▸ hv)

/-! ### Outputs -/

section

variable {out : SchedulerOutput} {m : ModelRunnerOutput} {failed : List RequestId}
  {id : RequestId} {z z' : Stops}

/-- In the loop over the outputs a request that stopped may still be in `running`. -/
def Stops.Running (z : Stops) : Prop :=
  ∀ v ∈ z.s.running, v ∉ z.stoppedRunningReqs → (z.s.req v).status = .running

theorem Turn.running (h : Turn cfg hasher out m failed id z z') (hz : z.Running) : z'.Running := by
  cases h with
  | ignored _ => exact hz
  | goesOn v r s _ htakes hagree =>
    intro w hw hnot
    rw [htakes.status hagree]
    exact hz w (hagree.running ▸ hw) hnot
  | stops v r s1 s _ htakes hagree hstop =>
    have ht := htakes.stop_onlyTouches hagree hstop
    have hothers : ∀ w ∈ s.running, w ≠ v → w ∉ z.stoppedRunningReqs →
        (s.req w).status = .running := by
      intro w hw hwv hnot
      rw [ht.req w hwv]
      exact hz w (ht.running ▸ hw) hnot
    split <;> intro w hw hnot
    · rw [mem_insert_iff, not_or] at hnot
      exact hothers w hw hnot.1 hnot.2
    · -- `v` is not among the running requests that did not stop
      rename_i hst
      refine hothers w hw (fun hwv => ?_) hnot
      rw [hwv] at hw hnot
      exact hst (hz v (ht.running ▸ hw) hnot)

theorem updateLoop_running {es : List (RequestId × ℤ)} (hz : z.Running)
    (h : updateLoop cfg hasher a out m failed es z = some z') : z'.Running := by
  induction es generalizing z with
  | nil =>
    cases h
    exact hz
  | cons e es ih =>
    obtain ⟨z1, hturn, h⟩ := Option.bind_eq_some_iff.mp h
    exact ih ((updateTurn_cases hturn).running hz) h

/-- In the end the stopped requests are no longer running. -/
theorem removeStopped_running (hnodup : z.s.running.Nodup) (cfg : SchedulerConfig) :
    (removeStopped cfg z).running = z.s.running.filter (· ∉ z.stoppedRunningReqs) := by
  rw [← removeAll_eq_filter hnodup]
  unfold removeStopped
  split <;> rfl

theorem removeStopped_req (z : Stops) (cfg : SchedulerConfig) :
    (removeStopped cfg z).req = z.s.req := by
  unfold removeStopped
  split <;> rfl

theorem Orderly.updateLoop (h : s.Orderly) {es : List (RequestId × ℤ)}
    (hloop : updateLoop cfg hasher a out m failed es { s } = some z) :
    (removeStopped cfg z).Orderly := by
  obtain ⟨hn, hrun⟩ := updateLoop_narrows h.known hloop
  have hz : z.Running := updateLoop_running (fun v hv _ => h.running v hv) hloop
  have hnodup : z.s.running.Nodup := hrun ▸ h.nodup
  refine h.narrowed (hn.trans (removeStopped_narrows cfg z)) ?_ fun v hv => ?_
  · rw [removeStopped_running hnodup]
    exact hnodup.filter _
  · rw [removeStopped_running hnodup, mem_filter] at hv
    rw [removeStopped_req]
    exact hz v hv.1 (of_decide_eq_true hv.2)

end

/-! ### Finished requests -/

theorem Orderly.finishRequests (h : s.Orderly) {ids : Option (List RequestId)}
    {finishedStatus : RequestStatus} (hf : s.finishRequests cfg a ids finishedStatus = some s') :
    s'.Orderly := by
  have hn := finishRequests_narrows h.known hf
  obtain ⟨hfinished, vs, s1, hvs, hw, hfin⟩ := finishRequests_cases hf
  have hrun : s'.running = s.running.filter
      (· ∉ vs.filter fun v => (s.req v).status = .running) := by
    rw [hfin.running, hw.running]
    exact removeAll_eq_filter h.nodup _
  refine h.narrowed hn ?_ fun v hv => ?_
  · rw [hrun]
    exact h.nodup.filter _
  · rw [hrun] at hv
    obtain ⟨hv, hrem⟩ := mem_filter.mp hv
    have hnot : v ∉ vs := by
      intro hmem
      simp [hmem, h.running v hv] at hrem
    rw [hfin.others v hnot, hw.req]
    exact h.running v hv

theorem Orderly.of_forgets (h : s.Orderly) (hf : Forgets s s') : s'.Orderly := by
  refine h.narrowed (.of_forgets hf) (hf.running ▸ h.nodup) fun v hv => ?_
  rw [hf.req]
  exact h.running v (hf.running ▸ hv)

/-- **The rule for `update_from_output`**, with an invariant of the loop over the output. -/
theorem Orderly.updateFromOutput_invariant {out : SchedulerOutput} {m : ModelRunnerOutput}
    (Inv : Scheduler → Prop) (InvLoop : Stops → Prop) (h : s.Orderly)
    (hs : s.updateFromOutput cfg hasher a out m = some s')
    (hloop : ∀ s1, SameQueues s s1 → InvLoop { s := s1 } ∧ ∀ failed id n z z',
      (id, n) ∈ out.numScheduledTokens.entries → Untouched s1 id z → InvLoop z →
      Turn cfg hasher out m failed id z z' → InvLoop z')
    (hremove : ∀ z, InvLoop z → z.s.running.Nodup → (removeStopped cfg z).Orderly →
      Inv (removeStopped cfg z))
    (hfinish : ∀ s s' ids status, s.Orderly → Inv s →
      s.finishRequests cfg a ids status = some s' → Inv s')
    (hforgets : ∀ s s', s.Orderly → Inv s → Forgets s s' → Inv s') : s'.Orderly ∧ Inv s' := by
  obtain ⟨failed, s1, z, s2, ⟨hsame, -⟩, hrun, hend, hs⟩ := updateFromOutput_cases hs
  have h1 := h.of_sameQueues hsame
  have hremoved := h1.updateLoop hrun
  have hinv : Inv (removeStopped cfg z) := by
    obtain ⟨hstart, hturn⟩ := hloop s1 hsame
    have hz : InvLoop z := updateLoop_invariant InvLoop h1.known out.numScheduledTokens.nodup hstart
      (hturn failed) hrun
    exact hremove z hz ((updateLoop_narrows h1.known hrun).2 ▸ h1.nodup) hremoved
  have h2 : s2.Orderly ∧ Inv s2 := by
    rcases hend with rfl | hend
    · exact ⟨hremoved, hinv⟩
    · exact ⟨hremoved.finishRequests hend, hfinish _ s2 _ _ hremoved hinv hend⟩
  have hf := updateFromKvXferFinished_forgets h2.1.known hs
  exact ⟨h2.1.of_forgets hf, hforgets s2 s' h2.1 h2.2 hf⟩

theorem Orderly.updateFromOutput (h : s.Orderly) {out : SchedulerOutput} {m : ModelRunnerOutput}
    (hs : s.updateFromOutput cfg hasher a out m = some s') : s'.Orderly :=
  (h.updateFromOutput_invariant (fun _ => True) (fun _ => True) hs
    (fun _ _ => ⟨trivial, fun _ _ _ _ _ _ _ _ _ => trivial⟩) (fun _ _ _ _ => trivial)
    (fun _ _ _ _ _ _ _ => trivial) fun _ _ _ _ _ => trivial).1

/-! ### New requests -/

theorem Orderly.addNewRequest (h : s.Orderly) {r : Request}
    (hnew : s.requests.get? r.requestId = none) : (s.addNewRequest cfg r).Orderly := by
  obtain ⟨r', hadds⟩ := addNewRequest_adds cfg s r
  -- the reference is fresh
  have hfresh : ∀ v, s.Has v → v ≠ s.nextRef := fun v hv => Nat.ne_of_lt (h.bounded v hv)
  refine ⟨h.toNumbered.addNewRequest r, ?_, fun v hv => ?_, fun v hv hlive => ?_⟩
  · rw [hadds.running]
    exact h.nodup
  · rw [hadds.running] at hv
    rw [hadds.others v (hfresh v (.inl hv))]
    exact h.running v hv
  · rw [hadds.requests]
    by_cases hne : v = s.nextRef
    · rw [hne, hadds.self, hadds.requestId, Dict.get?_set_self]
    · have hold : s.InQueue v := by
        rcases hv with hv | hv
        · rw [hadds.running] at hv
          exact .inl hv
        · exact .inr ((hadds.waiting_or hv).resolve_left hne)
      rw [hadds.others v hne] at hlive ⊢
      have hreg := h.registered v hold hlive
      rw [Dict.get?_set_of_ne]
      · exact hreg
      · intro heq
        rw [heq, hnew] at hreg
        cases hreg

/-- An assignment to a registered request that is not running and does not finish it. -/
theorem Orderly.modify (h : s.Orderly) {f : Request → Request}
    (hlora : (f (s.req v)).lora = (s.req v).lora)
    (hid : (f (s.req v)).requestId = (s.req v).requestId)
    (hfin : (f (s.req v)).isFinished = (s.req v).isFinished)
    (hrun : (s.req v).status = .running → (f (s.req v)).status = .running) :
    (s.modify v f).Orderly := by
  refine h.narrowed (.modify hlora hid hfin) h.nodup fun w hw => ?_
  by_cases hwv : w = v
  · rw [hwv, req_modify_self]
    exact hrun (hwv ▸ h.running w hw)
  · rw [req_modify_of_ne _ _ hwv]
    exact h.running w hw

theorem Orderly.addRequest (h : s.Orderly) {q : Request.EngineCoreRequest}
    (hs : s.addRequest cfg hasher a q = some s') : s'.Orderly := by
  obtain ⟨r, -, hadds⟩ := addRequest_cases hs
  cases hadds with
  | new hnew => exact h.addNewRequest hnew
  | queued v queue _ _ _ => exact h.modify rfl rfl rfl id
  | continued v update r' _ hstatus _ hr' =>
    have hcont := Request.updateAsSession_continues hr'
    have hlora : r'.lora = (s.req v).lora := by
      rw [Request.lora, hcont.loraRequest]
      rfl
    have hfin : r'.isFinished = (s.req v).isFinished := by
      rw [Request.isFinished, hcont.status, Request.isFinished, hstatus]
      rfl
    have hmod : (s.modify v fun _ => r').Orderly := by
      refine h.modify hlora hcont.requestId hfin fun hrun => ?_
      rw [hstatus] at hrun
      cases hrun
    exact { hmod with }
  | closed v s' _ _ hfin => exact h.finishRequests hfin

/-! ### Resets -/

/-- What `reset_prefix_cache` does to the running requests. -/
def resetRequest (r : Request) : Request :=
  { r.preempted with numOutputPlaceholders := 0, discardLatestAsyncTokens := true }

theorem preemptAll_req {vs : List Ref} (hnodup : vs.Nodup) (h : preemptAll cfg vs s = some s') :
    (∀ v ∈ vs, (s.req v).status = .running ∧ s'.req v = resetRequest (s.req v)) ∧
      ∀ v, v ∉ vs → s'.req v = s.req v := by
  induction vs generalizing s with
  | nil =>
    cases h
    exact ⟨fun _ hv => absurd hv not_mem_nil, fun _ _ => rfl⟩
  | cons v vs ih =>
    obtain ⟨s1, hs1, h⟩ := Option.bind_eq_some_iff.mp h
    obtain ⟨hnot, hnodup'⟩ := nodup_cons.mp hnodup
    obtain ⟨hself, hothers⟩ := Pass.preemptRequest_req hs1
    obtain ⟨hrest, hkeep⟩ := ih hnodup' h
    have hone : ∀ w, w ≠ v → (s1.modify v fun r => { r with
        numOutputPlaceholders := 0, discardLatestAsyncTokens := true }).req w = s.req w :=
      fun w hw => (req_modify_of_ne s1 _ hw).trans (hothers w hw)
    refine ⟨fun w hw => ?_, fun w hw => ?_⟩
    · rcases mem_cons.mp hw with rfl | hw
      · refine ⟨(Pass.preemptRequest_eq_some hs1).1, ?_⟩
        rw [hkeep w hnot, req_modify_self, hself]
        rfl
      · have hne : w ≠ v := fun heq => hnot (heq ▸ hw)
        have hw' := hrest w hw
        rwa [hone w hne] at hw'
    · rw [mem_cons, not_or] at hw
      rw [hkeep w hw.2, hone w hw.1]

/-- The running requests are reset if this is asked for; the others stay. -/
theorem resetPrefixCache_req (h : s.Orderly)
    (hs : s.resetPrefixCache cfg resetRunningRequests = some s') :
    (resetRunningRequests = true ∧ s'.running = [] ∧
      (∀ v ∈ s.running, s'.req v = resetRequest (s.req v)) ∧
      ∀ v, v ∉ s.running → s'.req v = s.req v) ∨
    (resetRunningRequests = false ∧ s'.running = s.running ∧ s'.req = s.req) := by
  unfold resetPrefixCache at hs
  split at hs
  · rename_i htrue
    obtain ⟨s1, hs1, hs⟩ := Option.bind_eq_some_iff.mp hs
    dsimp only at hs
    split at hs
    · cases hs
      obtain ⟨hreset, hkeep⟩ := preemptAll_req (nodup_reverse.mpr h.nodup) hs1
      have hnil := (preemptAll_running (reverse_reverse _).symm hs1).1
      exact .inl ⟨htrue, hnil, fun v hv => (hreset v (mem_reverse.mpr hv)).2,
        fun v hv => hkeep v fun hmem => hv (mem_reverse.mp hmem)⟩
    · cases hs
  · rename_i hfalse
    cases hs
    exact .inr ⟨Bool.eq_false_of_not_eq_true hfalse, rfl, rfl⟩

theorem Orderly.resetPrefixCache (h : s.Orderly)
    (hs : s.resetPrefixCache cfg resetRunningRequests = some s') : s'.Orderly := by
  have hn := resetPrefixCache_narrows hs
  rcases resetPrefixCache_req h hs with ⟨-, hnil, -⟩ | ⟨-, hrun, hreq⟩
  · refine h.narrowed hn (hnil ▸ nodup_nil) fun v hv => ?_
    rw [hnil] at hv
    exact absurd hv not_mem_nil
  · refine h.narrowed hn (hrun ▸ h.nodup) fun v hv => ?_
    rw [hreq]
    exact h.running v (hrun ▸ hv)

end Scheduler

end Nvllm.Sched
