import Nvllm.Sched.Queued

/-! # The length cap

A request in a queue should have fewer tokens than the model allows and less output than it asks for
(`Below`): otherwise it can get no further token, and it is never found to have stopped.
`check_stop` looks at both limits, but only after the minimum number of tokens, which nobody
compares with the length of the model (`min_tokens_pass_the_cap`). If it fits, and if the inputs of
streaming sessions fit, every request in a queue is below its limits (`below_of_fits`).
-/

namespace Nvllm.Sched

open Nvllm.KVCache Nvllm.Run List

variable {cfg : SchedulerConfig} {hasher : Request → Option (List Bytes)} {a : Answers}

/-! ## Requests -/

namespace Request

variable {L : ℕ} {r r' : Request}

/-- The request is below its limits. -/
def Below (L : ℕ) (r : Request) : Prop := r.numTokens < L ∧ r.numOutputTokens < r.maxTokens

/-- The request is below its limits and will be when it has its minimum number of tokens. -/
structure HasRoom (L : ℕ) (r : Request) : Prop where
  below : r.Below L
  minTokens : ∀ p ∈ r.samplingParams,
    p.minTokens ≤ r.maxTokens ∧ r.numTokens + (p.minTokens - r.numOutputTokens) ≤ L

/-- An input fits after `n` tokens, with the minimum number of tokens that it asks for. -/
def Fits (L maxTokens n : ℕ) (promptTokenIds : List ℤ) (params : Option SamplingParams) : Prop :=
  n + promptTokenIds.length < L ∧
    ∀ p ∈ params, p.minTokens ≤ maxTokens ∧ n + promptTokenIds.length + p.minTokens ≤ L

instance (L maxTokens n : ℕ) (promptTokenIds : List ℤ) (params : Option SamplingParams) :
    Decidable (Fits L maxTokens n promptTokenIds params) := inferInstanceAs (Decidable (_ ∧ _))

/-- The limits of a request depend on few fields. -/
theorem HasRoom.of_fields (h : r.HasRoom L) (hall : r'.allTokenIds = r.allTokenIds)
    (hout : r'.outputTokenIds = r.outputTokenIds) (hmax : r'.maxTokens = r.maxTokens)
    (hparams : r'.samplingParams = r.samplingParams) : r'.HasRoom L := by
  refine ⟨?_, fun p hp => ?_⟩
  · rw [Below, numTokens, numOutputTokens, hall, hout, hmax]
    exact h.below
  · rw [numTokens, numOutputTokens, hall, hout, hmax]
    exact h.minTokens p (hparams ▸ hp)

/-- `k` more tokens that stay below the limits. -/
theorem HasRoom.append (h : r.HasRoom L) (appended : List ℤ)
    (hall : r'.allTokenIds = r.allTokenIds ++ appended)
    (hout : r'.outputTokenIds = r.outputTokenIds ++ appended) (hmax : r'.maxTokens = r.maxTokens)
    (hparams : r'.samplingParams = r.samplingParams) (htokens : r.numTokens + appended.length < L)
    (houtput : r.numOutputTokens + appended.length < r.maxTokens) : r'.HasRoom L := by
  have hn : r'.numTokens = r.numTokens + appended.length := by
    rw [numTokens, hall, length_append, numTokens]
  have ho : r'.numOutputTokens = r.numOutputTokens + appended.length := by
    rw [numOutputTokens, hout, length_append, numOutputTokens]
  refine ⟨⟨hn ▸ htokens, ho ▸ hmax ▸ houtput⟩, fun p hp => ?_⟩
  obtain ⟨hle, hsum⟩ := h.minTokens p (hparams ▸ hp)
  omega

/-- A token that does not stop the request leaves it below its limits. -/
theorem HasRoom.appendToken (h : r.HasRoom L) {token : ℤ}
    (happend : r.appendOutputTokenId hasher token = some r') (hstop : r'.checkStop L = some none) :
    r'.HasRoom L := by
  obtain ⟨hun, -, hall, hout⟩ := appendOutputTokenId_spec happend
  have hcore := core_of_untokened hun
  have hmax : r'.maxTokens = r.maxTokens := field_of_core maxTokens (fun _ => rfl) hcore
  have hparams : r'.samplingParams = r.samplingParams :=
    field_of_core samplingParams (fun _ => rfl) hcore
  have hn : r'.numTokens = r.numTokens + 1 := by
    rw [numTokens, hall, length_append]
    rfl
  have ho : r'.numOutputTokens = r.numOutputTokens + 1 := by
    rw [numOutputTokens, hout, length_append]
    rfl
  unfold checkStop at hstop
  split at hstop
  · cases hstop
  obtain ⟨p, hp, hstop⟩ := Option.bind_eq_some_iff.mp hstop
  obtain ⟨hle, hsum⟩ := h.minTokens p (hparams ▸ hp)
  suffices hb : r'.numTokens < L ∧ r'.numOutputTokens < r'.maxTokens by
    refine h.append [token] hall hout hmax hparams ?_ ?_
    · rw [length_singleton, ← hn]
      exact hb.1
    · rw [length_singleton, ← ho, ← hmax]
      exact hb.2
  split at hstop
  · -- the minimum is not reached yet, and it fits
    omega
  · obtain ⟨last, -, hstop⟩ := Option.bind_eq_some_iff.mp hstop
    unfold stopStatus at hstop
    split at hstop
    · cases hstop
    · split at hstop
      · cases hstop
      · omega

theorem HasRoom.updateWithOutput (h : r.HasRoom L) {generated appended : List ℤ}
    (hup : r.updateWithOutput hasher L generated = some (appended, false, r')) : r'.HasRoom L := by
  induction generated generalizing r appended with
  | nil =>
    cases hup
    exact h
  | cons token generated ih =>
    simp only [Request.updateWithOutput, bind, Option.bind_eq_some_iff] at hup
    obtain ⟨r1, happend, stop, hstop, hup⟩ := hup
    cases stop with
    | some status => cases hup
    | none =>
      obtain ⟨⟨rest, st, r2⟩, hrest, hup⟩ := Option.bind_eq_some_iff.mp hup
      cases hup
      exact ih (h.appendToken happend hstop) hrest

theorem HasRoom.takeOutput (h : r.HasRoom cfg.maxModelLen) {generated : List ℤ} {pooler : Bool}
    (htake : r.takeOutput cfg hasher generated pooler = some (false, r')) :
    r'.HasRoom cfg.maxModelLen := by
  unfold Request.takeOutput at htake
  split at htake
  · split at htake
    · unfold takeAsync at htake
      split at htake
      · cases htake
        exact h.of_fields rfl rfl rfl rfl
      · obtain ⟨⟨appended, st, r1⟩, hup, htake⟩ := Option.bind_eq_some_iff.mp htake
        dsimp only at htake
        split at htake
        · cases htake
        · cases htake
          exact (h.updateWithOutput hup).of_fields rfl rfl rfl rfl
    · obtain ⟨⟨appended, st, r1⟩, hup, htake⟩ := Option.bind_eq_some_iff.mp htake
      cases htake
      exact h.updateWithOutput hup
  · split at htake
    · cases htake
    · cases htake
      exact h

theorem HasRoom.rejectDrafts (h : r.HasRoom L) (drafts generated : List ℤ) :
    (r.rejectDrafts drafts generated).HasRoom L := by
  obtain ⟨hall, hout⟩ := rejectDrafts_tokens drafts generated r
  have hcore := rejectDrafts_core drafts generated r
  exact h.of_fields hall hout (field_of_core maxTokens (fun _ => rfl) hcore)
    (field_of_core samplingParams (fun _ => rfl) hcore)

theorem Arrives.hasRoom {q : EngineCoreRequest} (h : Arrives q r)
    (hfits : Fits L (if q.pooling then 1 else q.maxTokens) 0 q.promptTokenIds q.samplingParams)
    (hmax : q.pooling = true ∨ 1 ≤ q.maxTokens) : r.HasRoom L := by
  have hn : r.numTokens = q.promptTokenIds.length := congrArg List.length h.allTokenIds
  have ho : r.numOutputTokens = 0 := congrArg List.length h.outputTokenIds
  refine ⟨⟨?_, ?_⟩, fun p hp => ?_⟩
  · rw [hn]
    simpa using hfits.1
  · rw [ho, h.maxTokens]
    split
    · exact Nat.one_pos
    · rename_i hpool
      exact hmax.resolve_left hpool
  · obtain ⟨hle, hsum⟩ := hfits.2 p (h.samplingParams ▸ hp)
    rw [hn, ho, h.maxTokens]
    exact ⟨hle, by omega⟩

/-- The next input of a session, which had at most `n` tokens. -/
theorem Continues.hasRoom {update : StreamingUpdate} {n : ℕ} (h : Continues update r r')
    (hn : r.numTokens ≤ n) (hmax : 0 < r.maxTokens)
    (hfits : Fits L r.maxTokens n update.promptTokenIds update.samplingParams) : r'.HasRoom L := by
  have hkept : r.keptTokens.length ≤ n := (length_take_le' ..).trans hn
  have hn' : r'.numTokens = r.keptTokens.length + update.promptTokenIds.length := by
    rw [numTokens, h.allTokenIds, length_append]
  have ho : r'.numOutputTokens = 0 := congrArg List.length h.outputTokenIds
  obtain ⟨htokens, hmin⟩ := hfits
  refine ⟨⟨by omega, by rw [ho, h.maxTokens]; exact hmax⟩, fun p hp => ?_⟩
  obtain ⟨hle, hsum⟩ := hmin p (h.samplingParams ▸ hp)
  rw [hn', ho, h.maxTokens]
  exact ⟨hle, by omega⟩

end Request

/-- If a session stops with these tokens, it is below its limits while it waits for an input, and
an input that came already fits. -/
def Request.SessionFits (L : ℕ) (generated : List ℤ) (r : Request) : Prop :=
  r.resumable = true →
    (r.streamingQueue.getD [] = [] →
      r.numTokens + generated.length < L ∧
        r.numOutputTokens + generated.length < r.maxTokens) ∧
    ∀ update ∈ (r.streamingQueue.getD []).head?.join,
      Fits L r.maxTokens (r.numTokens + generated.length) update.promptTokenIds
        update.samplingParams

instance (L : ℕ) (generated : List ℤ) (r : Request) : Decidable (r.SessionFits L generated) :=
  inferInstanceAs (Decidable (_ → (_ → _) ∧ ∀ update ∈ _, Request.Fits ..))

/-! ## The scheduler -/

namespace Scheduler

variable {L : ℕ} {s s' : Scheduler} {v : Ref}

/-- Every live request is below its limits. -/
def Roomy (L : ℕ) (s : Scheduler) : Prop :=
  ∀ id v, s.requests.get? id = some v → (s.req v).isFinished = false → (s.req v).HasRoom L

theorem Roomy.of_same (h : s.Roomy L) (hsame : SameRequests s s')
    (hlive : ∀ v, (s.req v).isFinished = true → (s'.req v).isFinished = true) : s'.Roomy L := by
  intro id v hv hfin
  rw [hsame.requests] at hv
  have hold : (s.req v).isFinished = false := by
    by_contra hcon
    rw [hlive v (by simpa using hcon)] at hfin
    cases hfin
  exact (h id v hv hold).of_fields (hsame.field Request.allTokenIds (fun _ => rfl) v)
    (hsame.field Request.outputTokenIds (fun _ => rfl) v)
    (hsame.field Request.maxTokens (fun _ => rfl) v)
    (hsame.field Request.samplingParams (fun _ => rfl) v)

theorem Roomy.of_sameQueues (h : s.Roomy L) (hsame : SameQueues s s') : s'.Roomy L := by
  refine h.of_same hsame.toSameRequests fun v hfin => ?_
  have hstatus : (s'.req v).status = (s.req v).status :=
    congrFun (congrArg Queues.status (hsame.queues [])) v
  rwa [Request.isFinished, hstatus]

/-- Only one request changes. -/
theorem Roomy.touched (h : s.Roomy L) (ht : OnlyTouches v s s')
    (hv : (s'.req v).isFinished = false → (s'.req v).HasRoom L) : s'.Roomy L := by
  intro id w hw hfin
  by_cases hne : w = v
  · rw [hne] at hfin ⊢
    exact hv hfin
  · rw [ht.req w hne] at hfin ⊢
    exact h id w (ht.get?_of_some hw) hfin

theorem Roomy.of_moves {policy : SchedulingPolicy} {lt : Ref → Ref → Bool} (h : s.Roomy L)
    (hq : s.Queued) (hsame : SameRequests s s')
    (hm : Queues.Moves policy lt (s.queues []) (s'.queues [])) : s'.Roomy L :=
  h.of_same hsame fun v hfin => (hm.isFinished hq.ok v).trans hfin

theorem Roomy.of_forgets (h : s.Roomy L) (hf : Forgets s s') : s'.Roomy L := by
  intro id v hv hfin
  rw [hf.req] at hfin ⊢
  exact h id v (hf.requests id v hv) hfin

theorem Roomy.finishRequests (h : s.Roomy L) {ids : Option (List RequestId)}
    {finishedStatus : RequestStatus} (hf : s.finishRequests cfg a ids finishedStatus = some s') :
    s'.Roomy L := by
  obtain ⟨hstatus, vs, s1, -, hw, hfin⟩ := finishRequests_cases hf
  intro id v hv hlive
  by_cases hvs : v ∈ vs
  · rw [hfin.finished v hvs, Request.isFinished, hstatus] at hlive
    cases hlive
  · rw [hfin.others v hvs, hw.req] at hlive ⊢
    exact h id v (hw.requests ▸ hfin.requests id v hv) hlive

section

variable {out : SchedulerOutput} {m : ModelRunnerOutput} {failed : List RequestId}
  {id : RequestId} {z z' : Stops}

/-- A request after it stopped, if it is still live. -/
theorem StopOutcome.hasRoom {r0 r : Request} {generated appended : List ℤ}
    (h : StopOutcome cfg hasher s v s') (hr : s.req v = r)
    (htake : Request.TakesTokens generated appended true r0 r) (hroom : r0.HasRoom L)
    (hfits : r0.SessionFits L generated) (hlive : (s'.req v).isFinished = false) :
    (s'.req v).HasRoom L := by
  have hcore := htake.core
  have hresume : r.resumable = r0.resumable :=
    Request.field_of_core Request.resumable (fun _ => rfl) hcore
  have hqueue : r.streamingQueue = r0.streamingQueue :=
    Request.field_of_core Request.streamingQueue (fun _ => rfl) hcore
  have hmax : r.maxTokens = r0.maxTokens :=
    Request.field_of_core Request.maxTokens (fun _ => rfl) hcore
  have hparams : r.samplingParams = r0.samplingParams :=
    Request.field_of_core Request.samplingParams (fun _ => rfl) hcore
  have hlen : appended.length ≤ generated.length := htake.initial.length_le
  cases h with
  | finished streamingQueue requests hfin _ hagree =>
    rw [hagree.req, req_modify_self] at hlive
    have hstatus : ((s.req v).withStreamingQueue streamingQueue).isFinished = true := hfin
    exact absurd (hstatus.symm.trans hlive) (by decide)
  | continued update queue r' hres hq hr' hagree =>
    have hcont := Request.updateAsSession_continues hr'
    have hreq : s'.req v = r' := by
      rw [(enqueues_of_agrees hagree).req, req_modify_self]
    rw [hr] at hres hq hcont
    have hfits := (hfits (hresume ▸ hres)).2 update (by rw [← hqueue, hq]; rfl)
    rw [hreq]
    refine hcont.hasRoom (n := r0.numTokens + generated.length) ?_ ?_ ?_
    · show r.allTokenIds.length ≤ _
      rw [htake.allTokenIds, length_append]
      exact Nat.add_le_add_left hlen _
    · show 0 < r.maxTokens
      rw [hmax]
      exact Nat.zero_lt_of_lt hroom.below.2
    · show Request.Fits L r.maxTokens _ _ _
      rw [hmax]
      exact hfits
  | idle hres hq hagree =>
    have hreq : s'.req v = r.idle := by
      rw [(enqueues_of_agrees hagree).req, req_modify_self, ← hr]
    rw [hr] at hres hq
    have hfits := (hfits (hresume ▸ hres)).1 (hqueue ▸ hq)
    rw [hreq]
    exact hroom.append _ htake.allTokenIds htake.outputTokenIds hmax hparams (by omega) (by omega)

theorem Turn.roomy (h : Turn cfg hasher out m failed id z z') (hroom : z.s.Roomy cfg.maxModelLen)
    (hfits : ∀ v, z.s.requests.get? id = some v → z.s.StopsAt cfg m id v →
      (z.s.req v).SessionFits cfg.maxModelLen (m.sampledTokenIds id)) :
    z'.s.Roomy cfg.maxModelLen := by
  cases h with
  | ignored _ => exact hroom
  | goesOn v r s hf htakes hagree =>
    refine hroom.touched (htakes.onlyTouches hagree) fun _ => ?_
    rw [hagree.req, req_modify_self]
    exact ((hroom id v htakes.request htakes.live).rejectDrafts _ _).takeOutput htakes.taken
  | stops v r s1 s hf htakes hagree hstop =>
    have ht := htakes.stop_onlyTouches hagree hstop
    obtain ⟨appended, htokens⟩ := htakes.tokens
    have hr : s1.req v = r := by rw [hagree.req, req_modify_self]
    have hv : (s.req v).isFinished = false → (s.req v).HasRoom cfg.maxModelLen :=
      hstop.hasRoom hr htokens (hroom id v htakes.request htakes.live)
        (hfits v htakes.request htakes.stopsAt)
    split <;> exact hroom.touched ht hv

/-- The sessions that stop with an output fit. -/
def SessionsFit (cfg : SchedulerConfig) (s : Scheduler) (out : SchedulerOutput)
    (m : ModelRunnerOutput) : Prop :=
  ∀ id ∈ out.numScheduledTokens.keys, ∀ v ∈ s.requests.get? id, s.StopsAt cfg m id v →
    (s.req v).SessionFits cfg.maxModelLen (m.sampledTokenIds id)

instance (s : Scheduler) (out : SchedulerOutput) (m : ModelRunnerOutput) :
    Decidable (s.SessionsFit cfg out m) :=
  inferInstanceAs (Decidable (∀ id ∈ _, ∀ v ∈ _, _ → Request.SessionFits ..))

theorem SessionsFit.of_sameQueues (h : s.SessionsFit cfg out m) (hsame : SameQueues s s') :
    s'.SessionsFit cfg out m := by
  intro id hid v hv hstops
  rw [hsame.requests] at hv
  have hfits := h id hid v hv (hsame.stopsAt_iff.mp hstops)
  unfold Request.SessionFits Request.numTokens Request.numOutputTokens at hfits ⊢
  rw [hsame.field Request.resumable (fun _ => rfl) v,
    hsame.field Request.streamingQueue (fun _ => rfl) v,
    hsame.field Request.allTokenIds (fun _ => rfl) v,
    hsame.field Request.outputTokenIds (fun _ => rfl) v,
    hsame.field Request.maxTokens (fun _ => rfl) v]
  exact hfits

theorem Roomy.updateFromOutput (h : s.Roomy cfg.maxModelLen) (hq : s.Queued)
    (hfits : s.SessionsFit cfg out m)
    (hs : s.updateFromOutput cfg hasher a out m = some s') : s'.Roomy cfg.maxModelLen := by
  refine (hq.orderly.updateFromOutput_invariant (Roomy cfg.maxModelLen)
    (fun z => z.s.Roomy cfg.maxModelLen) hs (fun s1 hsame => ?_) (fun z hz _ _ => ?_) ?_ ?_).2
  · refine ⟨h.of_sameQueues hsame, fun failed id n z z' hmem hun hz hturn => ?_⟩
    refine hturn.roomy hz fun v hv hstops => ?_
    rw [hun.requests] at hv
    rw [StopsAt, hun.req v hv] at hstops
    rw [hun.req v hv]
    exact hfits.of_sameQueues hsame id (mem_map_of_mem hmem) v hv hstops
  · unfold removeStopped
    split <;> exact hz
  · exact fun s s' ids status _ h hf => h.finishRequests hf
  · exact fun s s' _ h hf => h.of_forgets hf

end

/-- A new request, or the next input of a session, fits. -/
def InputFits (L : ℕ) (s : Scheduler) (q : Request.EngineCoreRequest) : Prop :=
  (s.requests.get? q.requestId = none →
    Request.Fits L (if q.pooling then 1 else q.maxTokens) 0 q.promptTokenIds q.samplingParams ∧
      (q.pooling = true ∨ 1 ≤ q.maxTokens)) ∧
  ∀ v ∈ s.requests.get? q.requestId, (s.req v).status = .waitingForStreamingReq →
    q.resumable = true →
    Request.Fits L (s.req v).maxTokens (s.req v).numTokens q.promptTokenIds q.samplingParams

instance (L : ℕ) (s : Scheduler) (q : Request.EngineCoreRequest) : Decidable (s.InputFits L q) :=
  inferInstanceAs (Decidable ((_ → Request.Fits .. ∧ _) ∧ ∀ v ∈ _, _ → _ → Request.Fits ..))

theorem Roomy.addNewRequest (h : s.Roomy L) (hq : s.Queued) {r : Request} (hr : r.HasRoom L) :
    (s.addNewRequest cfg r).Roomy L := by
  obtain ⟨r', hadds⟩ := addNewRequest_adds cfg s r
  intro id v hv hlive
  rw [hadds.requests, Dict.get?_set] at hv
  split at hv
  · cases hv
    rw [hadds.self, hadds.request]
    exact hr.of_fields rfl rfl rfl rfl
  · rw [hadds.others v (Nat.ne_of_lt (hq.bounded id v hv))] at hlive ⊢
    exact h id v hv hlive

theorem Roomy.addRequest (h : s.Roomy L) (hq : s.Queued) {q : Request.EngineCoreRequest}
    (hfits : s.InputFits L q) (hs : s.addRequest cfg hasher a q = some s') : s'.Roomy L := by
  obtain ⟨r, harrives, hadds⟩ := addRequest_cases hs
  rw [InputFits, ← harrives.requestId] at hfits
  cases hadds with
  | new hnew =>
    obtain ⟨hprompt, hmax⟩ := hfits.1 hnew
    exact h.addNewRequest hq (harrives.hasRoom hprompt hmax)
  | queued v queue hv hstatus hqueue =>
    refine h.touched (.of_agrees (.refl _) (.inl rfl) rfl) fun hlive => ?_
    rw [req_modify_self] at hlive ⊢
    exact (h _ v hv hlive).of_fields rfl rfl rfl rfl
  | continued v update r' hv hstatus hupdate hr' =>
    have hcont := Request.updateAsSession_continues hr'
    have hlive : (s.req v).isFinished = false := by
      rw [Request.isFinished, hstatus]
      rfl
    have hroom := h _ v hv hlive
    -- the update is the input that the client sent
    obtain ⟨hres, hprompt, -, hparams⟩ := Request.toStreamingUpdate_eq_some hupdate
    have hfits := hfits.2 v hv hstatus (harrives.resumable ▸ hres)
    rw [← harrives.promptTokenIds, ← harrives.samplingParams, ← hprompt, ← hparams] at hfits
    intro id w hw hlive
    by_cases hne : w = v
    · rw [hne, req_modify_self]
      exact hcont.hasRoom (Nat.le_refl _) (Nat.zero_lt_of_lt hroom.below.2) hfits
    · rw [req_modify_of_ne _ _ hne] at hlive ⊢
      exact h id w hw hlive
  | closed v s' hv hstatus hfin => exact h.finishRequests hfin

end Scheduler

/-! ## Runs -/

namespace Engine

/-- Inputs fit, sessions that stop fit, and no skipped request stops. -/
def Fits (cfg : SchedulerConfig) (e : Engine) : Event → Prop
  | .addRequest q _ => e.s.InputFits cfg.maxModelLen q
  | .updateFromOutput m _ => ∀ out ∈ e.inFlight.head?,
      e.s.Spares cfg out m ∧ e.s.SessionsFit cfg out m
  | _ => True

instance (e : Engine) (ev : Event) : Decidable (e.Fits cfg ev) :=
  match ev with
  | .addRequest q _ => inferInstanceAs (Decidable (e.s.InputFits cfg.maxModelLen q))
  | .updateFromOutput m _ => inferInstanceAs (Decidable (∀ out ∈ e.inFlight.head?,
      e.s.Spares cfg out m ∧ e.s.SessionsFit cfg out m))
  | .finishRequests _ _ _ | .schedule _ | .updateDraftTokenIds _ | .resetPrefixCache _
  | .resetEncoderCache | .setPauseState _ => isTrue trivial

theorem Fits.spares {e : Engine} {ev : Event} (h : e.Fits cfg ev) : e.Spares cfg ev := by
  cases ev with
  | updateFromOutput m a => exact fun out hout => (h out hout).1
  | _ => trivial

theorem step_roomy {e e' : Engine} {ev : Event} (hroom : e.s.Roomy cfg.maxModelLen)
    (hq : e.s.Queued) (hfits : e.Fits cfg ev) (hstep : e.step cfg hasher ev = some e') :
    e'.s.Roomy cfg.maxModelLen := by
  cases step_acts hstep with
  | addRequest q a hs => exact hroom.addRequest hq hfits hs
  | finishRequests ids status a hs => exact hroom.finishRequests hs
  | updateFromOutput m a out hout hs => exact hroom.updateFromOutput hq (hfits out hout).2 hs
  | moves _ hsame hmoves => exact hroom.of_moves hq hsame hmoves

/-- The requests in the queues are below their limits. -/
def AllBelow (cfg : SchedulerConfig) (e : Engine) : Prop :=
  ∀ v ∈ e.s.running ++ e.s.waiting ++ e.s.skippedWaiting, (e.s.req v).Below cfg.maxModelLen

instance (e : Engine) : Decidable (e.AllBelow cfg) :=
  inferInstanceAs (Decidable (∀ v ∈ _, _ ∧ _))

theorem allBelow_of_roomy {e : Engine} (hroom : e.s.Roomy cfg.maxModelLen) (hq : e.s.Queued) :
    e.AllBelow cfg := by
  intro v hv
  have hmem : v ∈ (e.s.queues []).members := by
    rw [Scheduler.mem_running_or_waiting]
    simpa only [mem_append, or_assoc] using hv
  refine (hroom _ v (hq.registered v hmem) ?_).below
  rcases mem_append.mp hmem with hrun | hwait
  · have hst : (e.s.req v).status = .running := hq.ok.running v hrun
    rw [Request.isFinished, hst]
    rfl
  · exact (hq.ok.waiting v hwait).2

/-- **The length cap.** In every state of a run in which inputs fit, every request in a queue is
below its limits. -/
theorem below_of_fits {kv : KVCacheManager} {enc : EncoderCacheManager} {e : Engine}
    (h : Reach (step cfg hasher) (Fits cfg) (init kv enc) e) : e.AllBelow cfg := by
  have hinv : e.s.Roomy cfg.maxModelLen ∧ e.s.Queued := by
    refine h.invariant (fun e => e.s.Roomy cfg.maxModelLen ∧ e.s.Queued) ?_ ?_
    · refine ⟨fun _ _ hv => ?_, Scheduler.queued_init kv enc⟩
      cases hv
    · rintro e ev e' ⟨hroom, hq⟩ hfits hstep
      exact ⟨step_roomy hroom hq hfits hstep, step_queued hq hfits.spares hstep⟩
  exact allBelow_of_roomy hinv.1 hinv.2

/-! ## A minimum beyond the cap -/

/-- What the sampling parameters and the input processor enforce: the minimum is compared with a
maximum that the client gave, not with one that is filled in. -/
def Accepted (L : ℕ) (q : Request.EngineCoreRequest) : Prop :=
  q.promptTokenIds.length < L ∧ 1 ≤ q.maxTokens ∧
    ∀ p ∈ q.samplingParams, p.minTokens ≤ q.maxTokens ∨
      q.maxTokens = L - q.promptTokenIds.length

instance (L : ℕ) (q : Request.EngineCoreRequest) : Decidable (Accepted L q) :=
  inferInstanceAs (Decidable (_ ∧ _ ∧ ∀ p ∈ _, _ ∨ _))

/-- A model of length 4. -/
def shortConfig : SchedulerConfig where
  maxNumRunningReqs := 1
  maxNumScheduledTokens := 8
  maxModelLen := 4
  blockSize := 4

/-- Two prompt tokens and the given limits of the output. -/
def twoTokens (minTokens maxTokens : ℕ) : Request.EngineCoreRequest where
  requestId := 0
  promptTokenIds := [1, 2]
  samplingParams := some { minTokens }
  maxTokens := maxTokens

/-- The request comes in and two tokens are sampled for it. -/
def twoSteps (q : Request.EngineCoreRequest) : List Event :=
  [.addRequest q {}, .schedule {}, .updateFromOutput { sampledTokenIds := fun _ => [7] } {},
    .schedule {}, .updateFromOutput { sampledTokenIds := fun _ => [8] } {}]

/-- With a minimum of ten tokens the request goes on running when it has as many tokens as the
model allows. -/
theorem min_tokens_pass_the_cap : Accepted 4 (twoTokens 10 10) ∧ ∃ e0 e,
    startFull 4 4 = some e0 ∧
    run (step shortConfig fun _ => some []) e0 (twoSteps (twoTokens 10 10)) = some e ∧
    e.s.running = [0] ∧ (e.s.req 0).numTokens = 4 ∧ ¬e.AllBelow shortConfig := by
  refine ⟨by decide, ?_⟩
  obtain ⟨e0, he0, e, he, hprop⟩ : ∃ e0 ∈ startFull 4 4,
      ∃ e ∈ run (step shortConfig fun _ => some []) e0 (twoSteps (twoTokens 10 10)),
        e.s.running = [0] ∧ (e.s.req 0).numTokens = 4 ∧ ¬e.AllBelow shortConfig := by
    decide +kernel
  exact ⟨e0, e, he0, he, hprop⟩

/-- With a minimum of one token the request fits, and it is finished after two. -/
theorem finished_at_the_cap : ∃ kv e, Reach (step shortConfig fun _ => some []) (Fits shortConfig)
    (init kv (.init false 0)) e ∧ e.s.running = [] ∧ (e.s.req 0).numTokens = 4 ∧
    e.AllBelow shortConfig := by
  obtain ⟨e0, he0, e, he, hidle, htokens⟩ : ∃ e0 ∈ startFull 4 4,
      ∃ e ∈ run (guarded (Fits shortConfig) (step shortConfig fun _ => some [])) e0
        (twoSteps (twoTokens 1 2)), e.s.running = [] ∧ (e.s.req 0).numTokens = 4 := by
    decide +kernel
  obtain ⟨kv, -, rfl⟩ := Option.map_eq_some_iff.mp he0
  have hreach := Reach.of_guarded_run .init he
  exact ⟨kv, e, hreach, hidle, htokens, below_of_fits hreach⟩

end Engine

end Nvllm.Sched
