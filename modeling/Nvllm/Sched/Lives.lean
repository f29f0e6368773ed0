import Nvllm.Sched.Outcome

/-! # The life of one request

What an event of the engine does to a request that stays registered. Scheduler calls go through
loops over all requests; for one request they are one of a few transitions (`Lives`), because
registered requests have different ids and a step has one entry for each id. `step_lives` is the
inversion of a step of the engine for one request without KV connector; results about the counters
of a request need nothing else of the scheduler.
-/

namespace Nvllm.Sched

open Nvllm.KVCache List

/-- Nothing comes from a KV connector. -/
def ModelRunnerOutput.Local (m : ModelRunnerOutput) : Prop :=
  m.invalidBlockIds = [] ∧ m.finishedRecving = [] ∧ m.finishedSending = []

instance (m : ModelRunnerOutput) : Decidable m.Local := inferInstanceAs (Decidable (_ ∧ _))

def Event.Local : Event → Prop
  | .updateFromOutput m _ => m.Local
  | _ => True

instance (ev : Event) : Decidable ev.Local :=
  match ev with
  | .updateFromOutput m _ => inferInstanceAs (Decidable m.Local)
  | .addRequest _ _ | .finishRequests _ _ _ | .schedule _ | .updateDraftTokenIds _
  | .resetPrefixCache _ | .resetEncoderCache | .setPauseState _ => isTrue trivial

/-- A request takes the output of a step: whether it stops. -/
def Request.take (cfg : SchedulerConfig) (hasher : Request → Option (List Bytes))
    (out : SchedulerOutput) (m : ModelRunnerOutput) (r : Request) : Option (Bool × Request) :=
  let generated := m.sampledTokenIds r.requestId
  (r.rejectDrafts (out.scheduledSpecDecodeTokens.getD r.requestId []) generated).takeOutput
    cfg hasher generated (m.poolerOutput r.requestId)

/-- What `update_from_output` does to a request that stays registered. -/
inductive Receives (cfg : SchedulerConfig) (hasher : Request → Option (List Bytes))
    (out : SchedulerOutput) (m : ModelRunnerOutput) (r r' : Request) : Prop
  | absent : out.numScheduledTokens.get? r.requestId = none → r' = r →
      Receives cfg hasher out m r r'
  | goesOn (n : ℤ) : out.numScheduledTokens.get? r.requestId = some n →
      r.take cfg hasher out m = some (false, r') → Receives cfg hasher out m r r'
  | continued (n : ℤ) (r1 : Request) (update : StreamingUpdate)
      (queue : List (Option StreamingUpdate)) :
      out.numScheduledTokens.get? r.requestId = some n →
      r.take cfg hasher out m = some (true, r1) → r1.resumable = true →
      r1.streamingQueue = some (some update :: queue) →
      (r1.withStreamingQueue (some queue)).updateAsSession hasher update = some r' →
      Receives cfg hasher out m r r'
  | idle (n : ℤ) (r1 : Request) : out.numScheduledTokens.get? r.requestId = some n →
      r.take cfg hasher out m = some (true, r1) → r1.resumable = true →
      r1.streamingQueue.getD [] = [] → r' = r1.idle → Receives cfg hasher out m r r'

namespace Scheduler

variable {cfg : SchedulerConfig} {hasher : Request → Option (List Bytes)} {a : Answers}
  {s s' : Scheduler} {v : Ref} {out : SchedulerOutput} {m : ModelRunnerOutput}
  {failed : List RequestId} {id id' : RequestId} {z z' : Stops}

/-! ## Outputs -/

/-- Requests with other ids are not touched. -/
theorem Turn.apart (h : Turn cfg hasher out m failed id z z') (hk : z.s.Known) (hne : id' ≠ id) :
    z'.s.requests.get? id' = z.s.requests.get? id' ∧
      ∀ v, (z.s.req v).requestId = id' → z'.s.req v = z.s.req v := by
  rcases h.touches with rfl | ⟨w, hw, ht⟩
  · exact ⟨rfl, fun _ _ => rfl⟩
  · have hid := hk id w hw
    refine ⟨?_, fun v hv => ht.onlyTouches.req v ?_⟩
    · rcases ht.onlyTouches.requests with hreq | hreq <;> rw [hreq]
      rw [hid, Dict.get?_erase_of_ne _ hne]
    · rintro rfl
      exact hne (hv.symm.trans hid)

theorem updateLoop_apart {es : List (RequestId × ℤ)} (hk : z.s.Known)
    (hnot : id ∉ es.map Prod.fst) (h : updateLoop cfg hasher a out m failed es z = some z') :
    z'.s.requests.get? id = z.s.requests.get? id ∧
      ∀ v, (z.s.req v).requestId = id → z'.s.req v = z.s.req v := by
  induction es generalizing z with
  | nil =>
    cases h
    exact ⟨rfl, fun _ _ => rfl⟩
  | cons e es ih =>
    obtain ⟨z1, hturn, h⟩ := Option.bind_eq_some_iff.mp h
    rw [map_cons, mem_cons, not_or] at hnot
    have hcases := updateTurn_cases hturn
    obtain ⟨hget, hreq⟩ := hcases.apart hk hnot.1
    obtain ⟨hget', hreq'⟩ := ih (hcases.known hk) hnot.2 h
    refine ⟨hget'.trans hget, fun v hv => ?_⟩
    rw [hreq' v (by rw [hreq v hv]; exact hv), hreq v hv]

/-- The turn of a request that stays live. -/
theorem Turn.receives {n : ℤ} (hk : z.s.Known) (h : Turn cfg hasher out m [] id z z')
    (hn : out.numScheduledTokens.get? id = some n) (hv : z.s.requests.get? id = some v)
    (hlive : (z'.s.req v).isFinished = false) :
    (z.s.req v).isFinished = false ∧ Receives cfg hasher out m (z.s.req v) (z'.s.req v) := by
  have hid := hk id v hv
  cases h with
  | ignored hig =>
    rcases hig with hfail | hfin
    · cases hfail
    · rw [hfin v hv] at hlive
      cases hlive
  | goesOn w r s hf htakes hagree =>
    have hw : w = v := Option.some.inj (htakes.request.symm.trans hv)
    subst hw
    have hr : s.req w = r := by rw [hagree.req, req_modify_self]
    refine ⟨htakes.live, .goesOn n (by rw [hid]; exact hn) ?_⟩
    rw [Request.take, hid]
    rw [hr]
    exact htakes.taken
  | stops w r s1 s hf htakes hagree hstop =>
    have hw : w = v := Option.some.inj (htakes.request.symm.trans hv)
    subst hw
    have hr : s1.req w = r := by rw [hagree.req, req_modify_self]
    have htake : (z.s.req w).take cfg hasher out m = some (true, s1.req w) := by
      rw [Request.take, hid, hr]
      exact htakes.taken
    have hz : ∀ z2 z3 : Stops, z2.s = s → z3.s = s → ∀ c : Prop, ∀ [Decidable c],
        (if c then z2 else z3).s = s := by
      intro z2 z3 h2 h3 c _
      split
      · exact h2
      · exact h3
    rw [hz _ _ rfl rfl] at hlive ⊢
    have hn' : out.numScheduledTokens.get? (z.s.req w).requestId = some n := by
      rw [hid]
      exact hn
    cases hstop with
    | finished queue requests hfin _ hagree' =>
      rw [hagree'.req, req_modify_self] at hlive
      have hsame : ((s1.req w).withStreamingQueue queue).isFinished =
        (s1.req w).isFinished := rfl
      have hlive' : (s1.req w).isFinished = false := hsame.symm.trans hlive
      rw [hfin] at hlive'
      cases hlive'
    | continued update queue r' hres hqueue hup hagree' =>
      have hreq := (enqueues_of_agrees hagree').req
      refine ⟨htakes.live, .continued n (s1.req w) update queue hn' htake hres hqueue ?_⟩
      rw [hreq, req_modify_self]
      exact hup
    | idle hres hqueue hagree' =>
      have hreq := (enqueues_of_agrees hagree').req
      refine ⟨htakes.live, .idle n (s1.req w) hn' htake hres hqueue ?_⟩
      rw [hreq, req_modify_self]

theorem updateLoop_receives {es : List (RequestId × ℤ)} (hk : z.s.Known)
    (hnodup : (es.map Prod.fst).Nodup) (hes : ∀ e ∈ es, out.numScheduledTokens.get? e.1 = some e.2)
    (h : updateLoop cfg hasher a out m [] es z = some z') (hv : z.s.requests.get? id = some v)
    (hlive : (z'.s.req v).isFinished = false) :
    (id ∉ es.map Prod.fst ∧ z'.s.req v = z.s.req v) ∨
      ((z.s.req v).isFinished = false ∧ Receives cfg hasher out m (z.s.req v) (z'.s.req v)) := by
  induction es generalizing z with
  | nil =>
    cases h
    exact .inl ⟨not_mem_nil, rfl⟩
  | cons e es ih =>
    obtain ⟨id1, n⟩ := e
    obtain ⟨z1, hturn, hloop⟩ := Option.bind_eq_some_iff.mp h
    obtain ⟨hnot, hnodup⟩ := nodup_cons.mp hnodup
    have hcases := updateTurn_cases hturn
    by_cases heq : id = id1
    · -- the entry of the request; the rest does not touch it
      rw [← heq] at hnot hcases hes ⊢
      right
      have hid : (z1.s.req v).requestId = id := ((hcases.retains hk).requestId v).trans (hk id v hv)
      have hrest : z'.s.req v = z1.s.req v :=
        (updateLoop_apart (hcases.known hk) hnot hloop).2 v hid
      rw [hrest] at hlive ⊢
      exact hcases.receives hk (hes _ mem_cons_self) hv hlive
    · obtain ⟨hget, hreq⟩ := hcases.apart hk heq
      have hrest := ih (hcases.known hk) hnodup (fun e he => hes e (mem_cons_of_mem _ he)) hloop
        (hget.trans hv)
      rw [hreq v (hk id v hv)] at hrest
      rcases hrest with ⟨hni, hsame⟩ | hrec
      · exact .inl ⟨fun hmem => (mem_cons.mp hmem).elim heq hni, hsame⟩
      · exact .inr hrec

theorem updateFromOutput_receives (hk : s.Known) (hm : m.Local)
    (h : s.updateFromOutput cfg hasher a out m = some s') (hv : s.requests.get? id = some v)
    (hlive : (s'.req v).isFinished = false) :
    (s.req v).isFinished = false ∧ Receives cfg hasher out m (s.req v) (s'.req v) := by
  obtain ⟨hinvalid, hrecv, hsend⟩ := hm
  simp only [updateFromOutput, bind, hinvalid, if_true, Option.bind_some, Option.bind_eq_some_iff,
    ne_eq, not_true, false_and, if_false] at h
  obtain ⟨z, hloop, h⟩ := h
  rw [updateFromKvXferFinished, hrecv, hsend] at h
  cases h
  rw [removeStopped_req] at hlive ⊢
  have hes : ∀ e ∈ out.numScheduledTokens.entries,
      out.numScheduledTokens.get? e.1 = some e.2 := fun e he => Dict.get?_of_mem he
  rcases updateLoop_receives hk out.numScheduledTokens.nodup hes hloop hv hlive with
    ⟨hnot, hsame⟩ | hrec
  · rw [hsame] at hlive
    refine ⟨hlive, .absent ?_ hsame⟩
    rw [hk id v hv]
    exact Dict.lookup_eq_none hnot
  · exact hrec

/-! ## Calls between steps -/

theorem finishRequests_keeps {ids : Option (List RequestId)} {finishedStatus : RequestStatus}
    (h : s.finishRequests cfg a ids finishedStatus = some s')
    (hlive : (s'.req v).isFinished = false) : s'.req v = s.req v := by
  obtain ⟨hfin, vs, s1, -, hw, hf⟩ := finishRequests_cases h
  by_cases hv : v ∈ vs
  · rw [hf.finished v hv, Request.isFinished, hfin] at hlive
    cases hlive
  · rw [hf.others v hv, hw.req]

theorem updateDraftTokenIds_drafts (drafts : List (RequestId × List ℤ)) (s : Scheduler) (v : Ref) :
    ∃ l, (s.updateDraftTokenIds drafts).req v = { s.req v with specTokenIds := l } := by
  induction drafts generalizing s with
  | nil => exact ⟨(s.req v).specTokenIds, rfl⟩
  | cons e drafts ih =>
    -- one entry changes the drafts of at most one request
    have hone : ∀ s1 : Scheduler, (∃ l, s1.req v = { s.req v with specTokenIds := l }) →
        ∃ l, (s1.updateDraftTokenIds drafts).req v = { s.req v with specTokenIds := l } := by
      rintro s1 ⟨l, hl⟩
      obtain ⟨l', hl'⟩ := ih s1
      refine ⟨l', ?_⟩
      rw [hl', hl]
    apply hone
    split
    · exact ⟨(s.req v).specTokenIds, rfl⟩
    · rename_i w _
      by_cases hw : v = w
      · rw [hw, req_modify_self]
        split
        · exact ⟨_, rfl⟩
        · exact ⟨_, rfl⟩
      · rw [req_modify_of_ne s _ hw]
        exact ⟨(s.req v).specTokenIds, rfl⟩

end Scheduler

namespace Engine

open Scheduler

variable {cfg : SchedulerConfig} {hasher : Request → Option (List Bytes)} {e e' : Engine}
  {ev : Event} {v : Ref} {id : RequestId}

/-- What an event does to a request that stays registered. -/
inductive Lives (cfg : SchedulerConfig) (hasher : Request → Option (List Bytes)) (e e' : Engine)
    (r r' : Request) : Event → Prop
  | other (q : Request.EngineCoreRequest) (a : Answers) : r' = r →
      Lives cfg hasher e e' r r' (.addRequest q a)
  /-- an input for a session that is busy -/
  | queued (q : Request.EngineCoreRequest) (a : Answers) (queue : List (Option StreamingUpdate)) :
      r.requestId = q.requestId → r.status ≠ .waitingForStreamingReq →
      r' = r.withStreamingQueue (some queue) → Lives cfg hasher e e' r r' (.addRequest q a)
  /-- the next input of an idle session -/
  | continued (q : Request.EngineCoreRequest) (a : Answers) (update : StreamingUpdate) :
      r.requestId = q.requestId → r.status = .waitingForStreamingReq →
      update.promptTokenIds = q.promptTokenIds → q.resumable = true →
      r.updateAsSession hasher update = some r' → Lives cfg hasher e e' r r' (.addRequest q a)
  | spared (requestIds : Option (List RequestId)) (finishedStatus : RequestStatus) (a : Answers) :
      r' = r → Lives cfg hasher e e' r r' (.finishRequests requestIds finishedStatus a)
  | scheduled (a : Answers) (out : SchedulerOutput) : e'.inFlight = e.inFlight ++ [out] →
      e'.history = (out, e'.s) :: e.history → Deals cfg out r r' →
      Lives cfg hasher e e' r r' (.schedule a)
  | received (m : ModelRunnerOutput) (a : Answers) (out : SchedulerOutput)
      (rest : List SchedulerOutput) : e.inFlight = out :: rest → e'.inFlight = rest →
      e'.history = e.history → Receives cfg hasher out m r r' →
      Lives cfg hasher e e' r r' (.updateFromOutput m a)
  | drafts (drafts : List (RequestId × List ℤ)) (l : List ℤ) : r' = { r with specTokenIds := l } →
      Lives cfg hasher e e' r r' (.updateDraftTokenIds drafts)
  | unreset (b : Bool) : r' = r →
      Lives cfg hasher e e' r r' (.resetPrefixCache b)
  | reset : r.status = .running → r' = resetRequest r →
      Lives cfg hasher e e' r r' (.resetPrefixCache true)
  | encoder : r' = r → Lives cfg hasher e e' r r' .resetEncoderCache
  | paused (pauseState : PauseState) : r' = r →
      Lives cfg hasher e e' r r' (.setPauseState pauseState)

variable {r r' : Request} {out : SchedulerOutput} {m : ModelRunnerOutput}

/-- An output changes neither of the fields. -/
theorem take_kind {stopped : Bool} (h : r.take cfg hasher out m = some (stopped, r')) :
    r'.pooling = r.pooling ∧ r'.resumable = r.resumable := by
  obtain ⟨appended, htakes⟩ := Request.takeOutput_takesTokens h
  have hcore := htakes.core.trans (Request.rejectDrafts_core _ _ _)
  exact ⟨Request.field_of_core _ (fun _ => rfl) hcore,
    Request.field_of_core _ (fun _ => rfl) hcore⟩

theorem Lives.kind (h : Lives cfg hasher e e' r r' ev) :
    r'.pooling = r.pooling ∧ r'.resumable = r.resumable := by
  cases h with
  | other q a hr | spared ids status a hr | unreset b hr | encoder hr | paused p hr =>
    exact ⟨congrArg _ hr, congrArg _ hr⟩
  | queued q a queue _ _ hr | drafts drafts l hr | reset _ hr =>
    rw [hr]
    exact ⟨rfl, rfl⟩
  | continued q a update _ _ _ _ hr =>
    have hcont := Request.updateAsSession_continues hr
    exact ⟨hcont.pooling, hcont.resumable⟩
  | scheduled a out _ _ hdeals =>
    have hpool : r'.fixed.pooling = r.fixed.pooling := congrArg _ hdeals.fixed
    have hres : r'.fixed.resumable = r.fixed.resumable := congrArg _ hdeals.fixed
    exact ⟨hpool, hres⟩
  | received m a out rest _ _ _ hrec =>
    cases hrec with
    | absent _ hr => exact ⟨congrArg _ hr, congrArg _ hr⟩
    | goesOn n _ htake => exact take_kind htake
    | continued n r1 update queue _ htake _ _ hup =>
      have hcont := Request.updateAsSession_continues hup
      obtain ⟨hpool, hres⟩ := take_kind htake
      exact ⟨hcont.pooling.trans hpool, hcont.resumable.trans hres⟩
    | idle n r1 _ htake _ _ hr =>
      obtain ⟨hpool, hres⟩ := take_kind htake
      rw [hr]
      exact ⟨hpool, hres⟩

theorem addRequest_lives {q : Request.EngineCoreRequest} {a : Answers} {s : Scheduler}
    (ho : e.s.Orderly) (h : e.s.addRequest cfg hasher a q = some s)
    (hv : s.requests.get? id = some v) (hlive : (s.req v).isFinished = false) :
    (q.requestId = id ∧ v = e.s.nextRef ∧ e.s.requests.get? id = none ∧
      Request.Arrives q (s.req v)) ∨
    (e.s.requests.get? id = some v ∧ (e.s.req v).isFinished = false ∧
      Lives cfg hasher e { e with s } (e.s.req v) (s.req v) (.addRequest q a)) := by
  obtain ⟨r, harr, hadds⟩ := addRequest_cases h
  cases hadds with
  | new hnone =>
    obtain ⟨r', hadd⟩ := addNewRequest_adds cfg e.s r
    rw [hadd.requests, Dict.get?_set] at hv
    split at hv
    · rename_i heq
      cases hv
      refine .inl ⟨heq ▸ harr.requestId.symm, rfl, heq ▸ hnone, ?_⟩
      have hqueue := eq_nil_of_subset_nil (harr.streamingQueue ▸ hadd.streamingQueue)
      rw [hadd.self, hadd.request]
      exact { harr with streamingQueue := hqueue }
    · have hlt := ho.bounded v (.inr (.inr (.inr ⟨id, hv⟩)))
      have hreq := hadd.others v (Nat.ne_of_lt hlt)
      rw [hreq] at hlive ⊢
      exact .inr ⟨hv, hlive, .other q a rfl⟩
  | queued w queue hw hst hqueue =>
    refine .inr ⟨hv, ?_⟩
    by_cases hvw : v = w
    · subst hvw
      rw [req_modify_self] at hlive ⊢
      refine ⟨hlive, .queued q a _ ?_ hst rfl⟩
      rw [ho.known _ v hw, harr.requestId]
    · rw [req_modify_of_ne e.s _ hvw] at hlive ⊢
      exact ⟨hlive, .other q a rfl⟩
  | continued w update r' hw hst hup hr' =>
    refine .inr ⟨hv, ?_⟩
    by_cases hvw : v = w
    · subst hvw
      rw [req_modify_self] at hlive ⊢
      obtain ⟨hres, hprompt, -⟩ := Request.toStreamingUpdate_eq_some hup
      refine ⟨?_, .continued q a update ?_ hst (hprompt.trans harr.promptTokenIds)
        (harr.resumable ▸ hres) hr'⟩
      · rw [Request.isFinished, hst]
        rfl
      · rw [ho.known _ v hw, harr.requestId]
    · rw [req_modify_of_ne _ _ hvw] at hlive ⊢
      exact ⟨hlive, .other q a rfl⟩
  | closed w s' hw hst hfin =>
    have hkeep := finishRequests_keeps hfin hlive
    rw [hkeep] at hlive ⊢
    exact .inr ⟨(finishRequests_narrows ho.known hfin).requests id v hv, hlive, .other q a rfl⟩

/-- **The life of one request.** A live request that is registered after an event has just arrived,
or was registered before and takes part in the event. -/
theorem step_lives (ho : e.s.Orderly) (hconn : cfg.connector = false) (hlocal : ev.Local)
    (hstep : e.step cfg hasher ev = some e') (hv : e'.s.requests.get? id = some v)
    (hlive : (e'.s.req v).isFinished = false) :
    (∃ q a, ev = .addRequest q a ∧ q.requestId = id ∧ v = e.s.nextRef ∧
      e.s.requests.get? id = none ∧ Request.Arrives q (e'.s.req v)) ∨
    (e.s.requests.get? id = some v ∧ (e.s.req v).isFinished = false ∧
      Lives cfg hasher e e' (e.s.req v) (e'.s.req v) ev) := by
  cases step_cases hstep with
  | addRequest q a s hs =>
    rcases addRequest_lives ho hs hv hlive with hnew | hold
    · exact .inl ⟨q, a, rfl, hnew⟩
    · exact .inr hold
  | finishRequests ids status a s hs =>
    have hkeep := finishRequests_keeps hs hlive
    rw [hkeep] at hlive
    exact .inr ⟨(finishRequests_narrows ho.known hs).requests id v hv, hlive,
      .spared ids status a hkeep⟩
  | schedule a out s hs =>
    have hsched := schedule_schedules ho hconn hs
    have hv0 : e.s.requests.get? id = some v := hsched.same.requests ▸ hv
    have hreg : e.s.Registered v := by
      rw [Registered, ho.known id v hv0]
      exact hv0
    have hdeals := hsched.deals v hreg
    exact .inr ⟨hv0, hdeals.live hlive, .scheduled a out rfl rfl hdeals⟩
  | updateFromOutput m a out rest s hfl hs =>
    have hv0 := (updateFromOutput_narrows ho.known hs).requests id v hv
    obtain ⟨hlive0, hrec⟩ := updateFromOutput_receives ho.known hlocal hs hv0 hlive
    exact .inr ⟨hv0, hlive0, .received m a out rest hfl rfl rfl hrec⟩
  | updateDraftTokenIds drafts =>
    obtain ⟨l, hl⟩ := updateDraftTokenIds_drafts drafts e.s v
    have hsame := updateDraftTokenIds_recounts drafts e.s
    refine .inr ⟨hsame.requests ▸ hv, ?_, .drafts drafts l hl⟩
    rw [hl] at hlive
    exact hlive
  | resetPrefixCache b s hs =>
    have hv0 := (resetPrefixCache_narrows hs).requests id v hv
    rcases resetPrefixCache_req ho hs with ⟨rfl, -, hreset, hkeep⟩ | ⟨rfl, -, hreq⟩
    · by_cases hrun : v ∈ e.s.running
      · exact .inr ⟨hv0, ho.isFinished_running hrun, .reset (ho.running v hrun) (hreset v hrun)⟩
      · have hsame := hkeep v hrun
        rw [hsame] at hlive
        exact .inr ⟨hv0, hlive, .unreset true hsame⟩
    · rw [hreq] at hlive
      exact .inr ⟨hv0, hlive, .unreset false (congrFun hreq v)⟩
  | resetEncoderCache => exact .inr ⟨hv, hlive, .encoder rfl⟩
  | setPauseState p => exact .inr ⟨hv, hlive, .paused p rfl⟩

end Engine

end Nvllm.Sched
