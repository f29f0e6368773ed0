import Nvllm.Sched.Counters

/-! # Placeholders of async scheduling

With async scheduling a step is scheduled before the output of the step before it is known. A
request counts the tokens that are expected in `num_output_placeholders`. `Accounts` says what the
counters of a request add up to; `accounts_of_fresh` says that they do in every run in which ids of
steps in flight are not used again.
-/

namespace Nvllm.Sched

open Nvllm.KVCache Nvllm.Run List

namespace Engine

open Scheduler

variable {cfg : SchedulerConfig} {hasher : Request → Option (List Bytes)} {e e' : Engine}
  {ev : Event} {v : Ref} {id : RequestId}

/-- Requests are not resumable, outputs are those that workers may report, and the prefix cache is
not reset. -/
def Plain (e : Engine) : Event → Prop
  | .addRequest q _ => q.resumable = false
  | .updateFromOutput m _ => m.Local ∧ e.MayReport m
  | .resetPrefixCache _ => False
  | _ => True

instance (e : Engine) (ev : Event) : Decidable (e.Plain ev) :=
  match ev with
  | .addRequest q _ => inferInstanceAs (Decidable (q.resumable = false))
  | .updateFromOutput m _ => inferInstanceAs (Decidable (m.Local ∧ e.MayReport m))
  | .resetPrefixCache _ => isFalse fun h => h
  | .finishRequests _ _ _ | .schedule _ | .updateDraftTokenIds _ | .resetEncoderCache
  | .setPauseState _ => isTrue trivial

theorem Plain.local (h : e.Plain ev) : ev.Local := by
  cases ev with
  | updateFromOutput m a => exact h.1
  | _ => exact trivial

theorem Counted.landed (h : Counted cfg e id v) (hm : e.Matched)
    (hres : (e.s.req v).resumable = false) {m : ModelRunnerOutput} {out : SchedulerOutput}
    {s0 : Scheduler} (hreport : e.MayReport m) (hfl : e.flights = (out, s0) :: e'.flights)
    (hv : e.s.requests.get? id = some v) (hlive : (e.s.req v).isFinished = false)
    (hrec : Receives cfg hasher out m (e.s.req v) (e'.s.req v)) : Counted cfg e' id v := by
  have hid := hm.orderly.known id v hv
  cases hrec with
  | absent hn hr => exact h.of_unchanged hfl (expects_of_none (hid ▸ hn)) hr
  | goesOn n hn htake =>
    rcases h.goesOn hm hreport hfl hv hlive (hid ▸ hn) htake with ⟨hzero, hr⟩ | ⟨-, -, hc⟩
    · exact h.of_unchanged hfl hzero hr
    · exact hc
  | continued n r1 update queue _ htake hres' _ _ | idle n r1 _ htake hres' _ _ =>
    -- the request does not go on after it stops
    rw [(take_kind htake).2, hres] at hres'
    cases hres'

/-- All counters are as they should be. -/
structure Consistent (cfg : SchedulerConfig) (e : Engine) : Prop where
  matched : e.Matched
  counted : ∀ id v, e.s.requests.get? id = some v → (e.s.req v).isFinished = false →
    (e.s.req v).resumable = false ∧ Counted cfg e id v

theorem consistent_init (cfg : SchedulerConfig) (kv : KVCacheManager) (enc : EncoderCacheManager) :
    (init kv enc).Consistent cfg :=
  ⟨matched_init kv enc, fun _ _ h => by cases h⟩

theorem consistent_step (hasync : cfg.asyncScheduling = true) (hconn : cfg.connector = false)
    (h : e.Consistent cfg) (hplain : e.Plain ev) (hfresh : e.Fresh ev)
    (hstep : e.step cfg hasher ev = some e') : e'.Consistent cfg := by
  have hm := h.matched
  have hflies := step_flies hm.tracked hstep
  refine ⟨matched_step hm hconn hplain.local hfresh hstep, fun id v hv hlive => ?_⟩
  rcases step_lives hm.orderly hconn hplain.local hstep hv hlive with
    ⟨q, a, rfl, rfl, -, hnone, harr⟩ | ⟨hv0, hlive0, hlives⟩
  · refine ⟨harr.resumable.trans hplain, ?_⟩
    cases hflies with
    | same _ hfl _ _ _ => exact .arrives (fun f hf => hm.absent hfresh hnone f (hfl ▸ hf)) harr
  · obtain ⟨hres, hc⟩ := h.counted id v hv0 hlive0
    refine ⟨hlives.kind.2.trans hres, ?_⟩
    cases hlives with
    | other q a hr | queued q a queue _ _ hr | spared ids status a hr | drafts drafts l hr
    | encoder hr | paused p hr =>
      cases hflies with
      | same _ hfl _ _ _ =>
        exact hc.of_same (by rw [expected, hfl, expected]) (fun f hf => hfl ▸ hf) hr
    | continued q a update _ _ _ hres' _ =>
      rw [show q.resumable = false from hplain] at hres'
      cases hres'
    | scheduled a out hin hhist hdeals =>
      have hplace := hc.placeholders
      rw [if_pos hasync] at hplace
      exact hc.scheduled (flights_schedule hin hhist) (hm.orderly.known id v hv0) hv
        (fun _ => hplace) hdeals
    | received m a out rest hin hin' hhist hrec =>
      obtain ⟨s0, hs0⟩ := flights_update hm.tracked hin hin' hhist
      exact hc.landed hm hres hplain.2 hs0 hv0 hlive0 hrec
    | unreset b _ | reset _ _ => exact hplain.elim

/-! ## What the counters add up to -/

/-- When the output `m` of the oldest step arrives, `_update_request_with_output` appends tokens to
the request `v`; afterwards it is `r1`, up to the placeholders of these tokens. -/
structure Delivers (cfg : SchedulerConfig) (hasher : Request → Option (List Bytes)) (e : Engine)
    (m : ModelRunnerOutput) (v : Ref) (appended : List ℤ) (r1 : Request) : Prop where
  report : e.MayReport m
  live : (e.s.req v).isFinished = false
  registered : e.s.Registered v
  sampled : m.sampledTokenIds (e.s.req v).requestId ≠ []
  updated : ∃ out ∈ e.inFlight.head?, ∃ n stopped,
    out.numScheduledTokens.get? (e.s.req v).requestId = some n ∧
    ((e.s.req v).rejectDrafts (out.scheduledSpecDecodeTokens.getD (e.s.req v).requestId [])
      (m.sampledTokenIds (e.s.req v).requestId)).updateWithOutput hasher cfg.maxModelLen
      (m.sampledTokenIds (e.s.req v).requestId) = some (appended, stopped, r1)

/-- The bookkeeping of async scheduling. The number of tokens that `allocate_slots` caches is not
mentioned: it is a minimum with the number of tokens of the request. -/
structure Accounts (cfg : SchedulerConfig) (hasher : Request → Option (List Bytes))
    (e : Engine) : Prop where
  placeholders : ∀ v, e.s.Registered v → (e.s.req v).isFinished = false →
    (e.s.req v).numOutputPlaceholders = e.expected (e.s.req v).requestId v
  computed : ∀ v, e.s.Registered v → (e.s.req v).status = .running →
    (e.s.req v).isPrefillChunk = false →
    (e.s.req v).numComputedTokens - (e.s.req v).numOutputPlaceholders = (e.s.req v).numTokens - 1
  asserted : ∀ m v appended r1, Delivers cfg hasher e m v appended r1 →
    0 ≤ r1.numOutputPlaceholders - appended.length
  cached : ∀ m v appended r1, Delivers cfg hasher e m v appended r1 →
    (e.s.req v).status = .running →
    r1.numComputedTokens - (r1.numOutputPlaceholders - appended.length) ≤ r1.numTokens

/-- The counters after a delivery. -/
theorem Consistent.delivered (hasync : cfg.asyncScheduling = true) (h : e.Consistent cfg)
    {m : ModelRunnerOutput} {appended : List ℤ} {r1 : Request}
    (hd : Delivers cfg hasher e m v appended r1) :
    0 ≤ r1.numOutputPlaceholders - appended.length ∧ ((e.s.req v).status = .running →
      r1.numComputedTokens - (r1.numOutputPlaceholders - appended.length) ≤ r1.numTokens) := by
  obtain ⟨out, hout, n, stopped, hn, hup⟩ := hd.updated
  have hc := (h.counted _ v hd.registered hd.live).2
  set id := (e.s.req v).requestId
  -- the oldest step in flight
  obtain ⟨e', s0, hfl, -⟩ := h.matched.tracked.of_head hout
  have hget : s0.requests.get? id = some v := by
    refine h.matched.same (out, s0) ?_ id n v hn hd.registered
    rw [hfl]
    exact mem_cons_self
  cases hd.report.brings hfl hn hget with
  | chunk _ hnil | pooled _ _ hnil _ => exact absurd hnil hd.sampled
  | sampled hchunk _ hg hlen =>
    have hone := expects_of_some (f := (out, s0)) hget hchunk hn
    have hrest := expected_nonneg e' id v
    have hsum := expected_of_cons hfl id v
    have hplace := hc.placeholders
    rw [if_pos hasync] at hplace
    dsimp only at hone
    have hcounts := Request.counts_of_update hg hlen hup
    have hp : r1.numOutputPlaceholders = (e.s.req v).numOutputPlaceholders -
        (1 + (out.scheduledSpecDecodeTokens.getD id []).length -
          (m.sampledTokenIds id).length) := by
      have hsame := congrArg Request.numOutputPlaceholders
        (Request.updateWithOutput_appends hup).untokened
      exact hsame.trans (Request.rejectDrafts_numOutputPlaceholders hg hlen (by omega))
    have happ := hcounts.length_le
    refine ⟨by omega, fun hrun => ?_⟩
    have hle := hc.even.computed_le hrun
    rw [hcounts.numComputedTokens, hp, hcounts.numTokens]
    dsimp only
    split
    · omega
    · omega

/-- **Async placeholder bookkeeping.** If ids of steps in flight are not used again, the counters
add up in every state, whatever the number of steps in flight, of drafts and of accepted drafts. -/
theorem accounts_of_fresh (hasync : cfg.asyncScheduling = true) (hconn : cfg.connector = false)
    {kv : KVCacheManager} {enc : EncoderCacheManager}
    (h : Reach (step cfg hasher) (fun e ev => e.Plain ev ∧ e.Fresh ev) (init kv enc) e) :
    e.Accounts cfg hasher := by
  have hc : e.Consistent cfg := Reach.invariant (Consistent cfg) (consistent_init cfg kv enc)
    (fun _ _ _ hinv hok hstep => consistent_step hasync hconn hinv hok.1 hok.2 hstep) h
  have hplace : ∀ v, e.s.Registered v → (e.s.req v).isFinished = false →
      (e.s.req v).numOutputPlaceholders = e.expected (e.s.req v).requestId v := by
    intro v hv hlive
    have hp := (hc.counted _ v hv hlive).2.placeholders
    rwa [if_pos hasync] at hp
  refine ⟨hplace, fun v hv hrun hchunk => ?_, fun m v appended r1 hd => (hc.delivered hasync hd).1,
    fun m v appended r1 hd hrun => (hc.delivered hasync hd).2 hrun⟩
  have hlive : (e.s.req v).isFinished = false := congrArg RequestStatus.isFinished hrun
  rw [hplace v hv hlive]
  exact (hc.counted _ v hv hlive).2.even.computed hrun hchunk

/-! ## An id that is used again -/

def asyncConfig : SchedulerConfig where
  maxNumRunningReqs := 4
  maxNumScheduledTokens := 8
  maxModelLen := 16
  blockSize := 4
  numSpecTokens := 2
  numLookaheadTokens := 2
  asyncScheduling := true

def asyncInput (id numTokens : ℕ) : Request.EngineCoreRequest where
  requestId := id
  promptTokenIds := replicate numTokens 5

/-- A request is aborted while its step is executing, and comes again. -/
def reusedEvents : List Event :=
  [.addRequest (asyncInput 1 3) {}, .schedule {}, .finishRequests (some [1]) .finishedAborted {},
    .addRequest (asyncInput 1 3) {}]

/-- The output of the old request is given to the new one, which expects none. -/
theorem reused_id_breaks_assertion : ∃ kv e, ∃ m : ModelRunnerOutput,
    Reach (step asyncConfig fun _ => some []) Plain (init kv (.init false 0)) e ∧
    e.inFlight.length = 1 ∧ e.MayReport m ∧
    e.step asyncConfig (fun _ => some []) (.updateFromOutput m {}) = none ∧
    ¬e.Accounts asyncConfig fun _ => some [] := by
  obtain ⟨e0, he0, e, he, hlen, hreport, hlive, hreg, hnone, out, hhead, hn,
      ⟨appended, stopped, r1⟩, hup, rfl, hzero⟩ : ∃ e0 ∈ startFull 16 16,
      ∃ e ∈ run (guarded Plain (step asyncConfig fun _ => some [])) e0 reusedEvents,
        e.inFlight.length = 1 ∧ e.MayReport { sampledTokenIds := fun _ => [7] } ∧
        (e.s.req 1).isFinished = false ∧ e.s.Registered 1 ∧
        e.step asyncConfig (fun _ => some [])
          (.updateFromOutput { sampledTokenIds := fun _ => [7] } {}) = none ∧
        ∃ out ∈ e.inFlight.head?,
          out.numScheduledTokens.get? (e.s.req 1).requestId = some 3 ∧
          ∃ x ∈ ((e.s.req 1).rejectDrafts (out.scheduledSpecDecodeTokens.getD (e.s.req 1).requestId
            []) [7]).updateWithOutput (fun _ => some []) 16 [7],
            x.1 = [7] ∧ x.2.2.numOutputPlaceholders = 0 := by
    decide +kernel
  obtain ⟨kv, -, rfl⟩ := Option.map_eq_some_iff.mp he0
  refine ⟨kv, e, _, Reach.of_guarded_run .init he, hlen, hreport, hnone, fun haccounts => ?_⟩
  have hassert := haccounts.asserted _ 1 [7] r1 ⟨hreport, hlive, hreg, by simp,
    ⟨out, hhead, 3, stopped, hn, hup⟩⟩
  rw [show r1.numOutputPlaceholders = 0 from hzero] at hassert
  exact absurd hassert (by decide)

/-- A prefill chunk, the rest of the prompt, and a step with two drafts of which one is accepted,
with two steps in flight. -/
def draftEvents : List Event :=
  [.addRequest (asyncInput 1 10) {}, .schedule {}, .schedule {},
    .updateFromOutput {} {}, .schedule {},
    .updateFromOutput { sampledTokenIds := fun _ => [7] } {}, .schedule {},
    .updateFromOutput { sampledTokenIds := fun _ => [8, 9] } {}]

theorem drafts_are_accounted : ∃ kv e,
    Reach (step asyncConfig fun _ => some []) (fun e ev => e.Plain ev ∧ e.Fresh ev)
      (init kv (.init false 0)) e ∧ e.inFlight.length = 1 ∧
    (e.s.req 0).numOutputPlaceholders = 2 ∧ (e.s.req 0).numTokens = 13 ∧
    e.Accounts asyncConfig fun _ => some [] := by
  obtain ⟨e0, he0, e, he, hlen, hplace, htokens⟩ : ∃ e0 ∈ startFull 16 16,
      ∃ e ∈ run (guarded (fun (e : Engine) ev => e.Plain ev ∧ e.Fresh ev)
        (step asyncConfig fun _ => some [])) e0 draftEvents, e.inFlight.length = 1 ∧
        (e.s.req 0).numOutputPlaceholders = 2 ∧ (e.s.req 0).numTokens = 13 := by
    decide +kernel
  obtain ⟨kv, -, rfl⟩ := Option.map_eq_some_iff.mp he0
  have hreach := Reach.of_guarded_run .init he
  exact ⟨kv, e, hreach, hlen, hplace, htokens, accounts_of_fresh rfl rfl hreach⟩

/-- **Outputs reach their requests** if no id in flight is used again. -/
theorem matched_of_fresh (hconn : cfg.connector = false) {kv : KVCacheManager}
    {enc : EncoderCacheManager}
    (h : Reach (step cfg hasher) (fun e ev => ev.Local ∧ e.Fresh ev) (init kv enc) e) :
    e.Matched :=
  h.invariant Matched (matched_init kv enc)
    fun _ _ _ hm ho hs => matched_step hm hconn ho.1 ho.2 hs

theorem drafts_matched : ∃ kv e,
    Reach (step asyncConfig fun _ => some []) (fun e ev => ev.Local ∧ e.Fresh ev)
      (init kv (.init false 0)) e ∧ e.inFlight.length = 1 ∧ e.Matched := by
  obtain ⟨_, h0, e, he, hlen⟩ : ∃ e0 ∈ startFull 16 16,
      ∃ e ∈ run (guarded (fun e ev => Event.Local ev ∧ Fresh e ev)
        (step asyncConfig fun _ => some [])) e0 draftEvents, e.inFlight.length = 1 := by
    decide +kernel
  obtain ⟨kv, -, rfl⟩ := Option.map_eq_some_iff.mp h0
  have hr := Reach.of_guarded_run .init he
  exact ⟨kv, e, hr, hlen, matched_of_fresh rfl hr⟩

end Engine

end Nvllm.Sched
