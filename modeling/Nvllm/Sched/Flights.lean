import Nvllm.Sched.Lives

/-! # Steps in flight

A step in flight is an output of `schedule` with the state that the call left, so one can say what
the request was like when the step was scheduled. The steps in flight are the latest ones of the
history. An output is matched to a request by its id: it reaches the request that it was scheduled
for if ids of steps in flight are not given to new requests (`Fresh`).
-/

namespace Nvllm.Sched

open Nvllm.KVCache Nvllm.Run List

/-- An output with the state that `schedule` left. -/
abbrev Flight := SchedulerOutput × Scheduler

namespace Engine

open Scheduler

variable {cfg : SchedulerConfig} {hasher : Request → Option (List Bytes)} {e e' : Engine}
  {ev : Event} {v : Ref} {id : RequestId}

/-- The steps in flight, oldest first. -/
def flights (e : Engine) : List Flight := (e.history.take e.inFlight.length).reverse

/-- No new request gets the id of a request in a step in flight. -/
def Fresh (e : Engine) : Event → Prop
  | .addRequest q _ => e.s.requests.get? q.requestId = none →
      ∀ out ∈ e.inFlight, out.numScheduledTokens.get? q.requestId = none
  | _ => True

instance (e : Engine) (ev : Event) : Decidable (e.Fresh ev) :=
  match ev with
  | .addRequest q _ => inferInstanceAs (Decidable (e.s.requests.get? q.requestId = none →
      ∀ out ∈ e.inFlight, out.numScheduledTokens.get? q.requestId = none))
  | .finishRequests _ _ _ | .schedule _ | .updateFromOutput _ _ | .updateDraftTokenIds _
  | .resetPrefixCache _ | .resetEncoderCache | .setPauseState _ => isTrue trivial

theorem orderly_step (ho : e.s.Orderly) (hconn : cfg.connector = false)
    (hstep : e.step cfg hasher ev = some e') : e'.s.Orderly := by
  cases step_cases hstep with
  | addRequest q a s hs => exact ho.addRequest hs
  | finishRequests ids status a s hs => exact ho.finishRequests hs
  | schedule a out s hs => exact (schedule_schedules ho hconn hs).orderly
  | updateFromOutput m a out rest s _ hs => exact ho.updateFromOutput hs
  | updateDraftTokenIds drafts =>
    exact ho.of_sameQueues (updateDraftTokenIds_recounts drafts e.s).toSameQueues
  | resetPrefixCache b s hs => exact ho.resetPrefixCache hs
  | resetEncoderCache | setPauseState p =>
    exact { ho with }

/-! ## How the list changes -/

/-- The steps in flight are those of the list. -/
def Tracked (e : Engine) : Prop := e.flights.map Prod.fst = e.inFlight

theorem tracked_init (kv : KVCacheManager) (enc : EncoderCacheManager) : (init kv enc).Tracked :=
  rfl

theorem Tracked.length_le (h : e.Tracked) : e.inFlight.length ≤ e.history.length := by
  have hlen := congrArg List.length h
  rw [flights, length_map, length_reverse, length_take] at hlen
  omega

theorem flights_schedule {out : SchedulerOutput} (hfl : e'.inFlight = e.inFlight ++ [out])
    (hhist : e'.history = (out, e'.s) :: e.history) : e'.flights = e.flights ++ [(out, e'.s)] := by
  rw [flights, hfl, hhist, length_append, length_singleton, take_succ_cons,
    reverse_cons, flights]

theorem flights_update (h : e.Tracked) {out : SchedulerOutput} {rest : List SchedulerOutput}
    (hfl : e.inFlight = out :: rest) (hfl' : e'.inFlight = rest)
    (hhist : e'.history = e.history) : ∃ s0, e.flights = (out, s0) :: e'.flights := by
  have hlen := h.length_le
  rw [hfl, length_cons] at hlen
  -- the oldest step is the last one of the part of the history
  have hsplit : e.flights = (e.history[rest.length]) :: e'.flights := by
    rw [flights, hfl, length_cons, take_succ_eq_append_getElem (by omega),
      reverse_append, reverse_singleton, singleton_append, flights, hfl', hhist]
  have hhead := h
  rw [Tracked, hsplit, hfl, map_cons] at hhead
  obtain ⟨hout, -⟩ := List.cons.inj hhead
  exact ⟨(e.history[rest.length]).2, by rw [hsplit, ← hout]⟩

/-- What an event does to the steps in flight. -/
inductive Flies (e e' : Engine) : Event → Prop
  | same (ev : Event) : e'.flights = e.flights → e'.inFlight = e.inFlight →
      (∀ a, ev ≠ .schedule a) → (∀ m a, ev ≠ .updateFromOutput m a) → Flies e e' ev
  | scheduled (a : Answers) (out : SchedulerOutput) : e'.flights = e.flights ++ [(out, e'.s)] →
      e'.inFlight = e.inFlight ++ [out] → Flies e e' (.schedule a)
  | landed (m : ModelRunnerOutput) (a : Answers) (out : SchedulerOutput) (s0 : Scheduler) :
      e.flights = (out, s0) :: e'.flights → e.inFlight = out :: e'.inFlight →
      Flies e e' (.updateFromOutput m a)

theorem step_flies (h : e.Tracked) (hstep : e.step cfg hasher ev = some e') : Flies e e' ev := by
  cases step_cases hstep with
  | schedule a out s hs => exact .scheduled a out (flights_schedule rfl rfl) rfl
  | updateFromOutput m a out rest s hfl hs =>
    obtain ⟨s0, hs0⟩ : ∃ s0, e.flights =
        (out, s0) :: Engine.flights { e with s, inFlight := rest } := flights_update h hfl rfl rfl
    exact .landed m a out s0 hs0 hfl
  | addRequest q a s hs | finishRequests ids status a s hs | updateDraftTokenIds drafts
  | resetPrefixCache b s hs | resetEncoderCache | setPauseState p =>
    exact .same _ rfl rfl (by simp) (by simp)

/-- The engine when the oldest step has landed. -/
theorem Tracked.of_head {out : SchedulerOutput} (h : e.Tracked)
    (hout : e.inFlight.head? = some out) : ∃ (e' : Engine) (s0 : Scheduler),
      e.flights = (out, s0) :: e'.flights ∧ e.inFlight = out :: e'.inFlight ∧ e'.Tracked := by
  obtain ⟨rest, hin⟩ := head?_eq_some_iff.mp hout
  obtain ⟨s0, hfl⟩ : ∃ s0, e.flights =
      (out, s0) :: Engine.flights { e with inFlight := rest } := flights_update h hin rfl rfl
  refine ⟨{ e with inFlight := rest }, s0, hfl, hin, ?_⟩
  rw [Tracked, hfl, hin] at h
  exact (List.cons.inj h).2

theorem tracked_step (h : e.Tracked) (hstep : e.step cfg hasher ev = some e') : e'.Tracked := by
  have hflies := step_flies h hstep
  rw [Tracked] at h
  cases hflies with
  | same _ hfl hin _ _ => rw [Tracked, hfl, hin, h]
  | scheduled a out hfl hin => rw [Tracked, hfl, hin, map_append, h]; rfl
  | landed m a out s0 hfl hin =>
    rw [hfl, hin] at h
    exact (List.cons.inj h).2

/-! ## Which request a step is for -/

/-- The steps in flight are for the requests that are registered now. -/
structure Matched (e : Engine) : Prop where
  tracked : e.Tracked
  orderly : e.s.Orderly
  bounded : ∀ f ∈ e.flights, ∀ id v, f.2.requests.get? id = some v → v < e.s.nextRef
  same : ∀ f ∈ e.flights, ∀ id n v, f.1.numScheduledTokens.get? id = some n →
    e.s.requests.get? id = some v → f.2.requests.get? id = some v
  pooling : ∀ f ∈ e.flights, ∀ id v, f.2.requests.get? id = some v →
    e.s.requests.get? id = some v → (e.s.req v).isFinished = false →
      (f.2.req v).pooling = (e.s.req v).pooling

theorem matched_init (kv : KVCacheManager) (enc : EncoderCacheManager) : (init kv enc).Matched :=
  ⟨tracked_init kv enc, orderly_init kv enc, fun _ h => absurd h not_mem_nil,
    fun _ h => absurd h not_mem_nil, fun _ h => absurd h not_mem_nil⟩

/-- Only new requests are registered, with the next reference. -/
theorem step_registers (hk : e.s.Known) (hstep : e.step cfg hasher ev = some e') :
    (e'.s.nextRef = e.s.nextRef ∧
      ∀ id v, e'.s.requests.get? id = some v → e.s.requests.get? id = some v) ∨
    ∃ q a, ev = .addRequest q a ∧ e.s.requests.get? q.requestId = none ∧
      e'.s.nextRef = e.s.nextRef + 1 ∧
      e'.s.requests = e.s.requests.set q.requestId e.s.nextRef := by
  have hsame : ∀ s : Scheduler, SameRequests e.s s → s.nextRef = e.s.nextRef ∧
      ∀ id v, s.requests.get? id = some v → e.s.requests.get? id = some v := by
    intro s h
    rw [h.requests]
    exact ⟨h.nextRef, fun _ _ => id⟩
  have hnarrows : ∀ s : Scheduler, Narrows e.s s → s.nextRef = e.s.nextRef ∧
      ∀ id v, s.requests.get? id = some v → e.s.requests.get? id = some v :=
    fun _ h => ⟨h.nextRef, h.requests⟩
  cases step_cases hstep with
  | addRequest q a s hs =>
    obtain ⟨r, harr, hadds⟩ := addRequest_cases hs
    cases hadds with
    | new hnone =>
      obtain ⟨r', hadd⟩ := addNewRequest_adds cfg e.s r
      rw [harr.requestId] at hnone
      exact .inr ⟨q, a, rfl, hnone, hadd.nextRef, harr.requestId ▸ hadd.requests⟩
    | queued _ _ _ _ _ | continued _ _ _ _ _ _ _ => exact .inl ⟨rfl, fun _ _ => id⟩
    | closed _ _ _ _ hfin => exact .inl (hnarrows _ (finishRequests_narrows hk hfin))
  | finishRequests ids status a s hs => exact .inl (hnarrows _ (finishRequests_narrows hk hs))
  | schedule a out s hs => exact .inl (hsame _ (schedule_moves hs).1)
  | updateFromOutput m a out rest s _ hs =>
    exact .inl (hnarrows _ (updateFromOutput_narrows hk hs))
  | updateDraftTokenIds drafts =>
    exact .inl (hsame _ (updateDraftTokenIds_recounts drafts e.s).toSameRequests)
  | resetPrefixCache b s hs => exact .inl (hnarrows _ (resetPrefixCache_narrows hs))
  | resetEncoderCache | setPauseState p => exact .inl ⟨rfl, fun _ _ => id⟩

theorem matched_step (h : e.Matched) (hconn : cfg.connector = false) (hlocal : ev.Local)
    (hfresh : e.Fresh ev) (hstep : e.step cfg hasher ev = some e') : e'.Matched := by
  have ho' := orderly_step h.orderly hconn hstep
  have hregisters := step_registers h.orderly.known hstep
  have hnext : e.s.nextRef ≤ e'.s.nextRef := by
    rcases hregisters with ⟨heq, -⟩ | ⟨-, -, -, -, hsucc, -⟩
    · exact heq.ge
    · rw [hsucc]
      exact Nat.le_succ _
  -- the new step, or one that was in flight before
  have hflight : ∀ f ∈ e'.flights, f ∈ e.flights ∨ f.2 = e'.s := by
    intro f hf
    cases step_flies h.tracked hstep with
    | same _ hfl _ _ _ => exact .inl (hfl ▸ hf)
    | scheduled a out hfl _ =>
      rw [hfl, mem_append, mem_singleton] at hf
      exact hf.imp_right fun heq => congrArg Prod.snd heq
    | landed m a out s0 hfl _ =>
      rw [hfl]
      exact .inl (mem_cons_of_mem _ hf)
  refine ⟨tracked_step h.tracked hstep, ho', fun f hf id v hv => ?_, fun f hf id n v hn hv => ?_,
    fun f hf id v hget hv hlive => ?_⟩
  · rcases hflight f hf with hold | hnew
    · exact Nat.lt_of_lt_of_le (h.bounded f hold id v hv) hnext
    · rw [hnew] at hv
      exact ho'.bounded v (.inr (.inr (.inr ⟨id, hv⟩)))
  · rcases hflight f hf with hold | hnew
    · rcases hregisters with ⟨-, hback⟩ | ⟨q, a, rfl, hnone, -, hset⟩
      · exact h.same f hold id n v hn (hback id v hv)
      · rw [hset, Dict.get?_set] at hv
        split at hv
        · have hin : f.1 ∈ e.inFlight := by
            rw [← h.tracked]
            exact mem_map_of_mem hold
          rename_i heq
          rw [heq, hfresh hnone f.1 hin] at hn
          cases hn
        · exact h.same f hold id n v hn hv
    · rw [hnew]
      exact hv
  · rcases hflight f hf with hold | hnew
    · rcases step_lives h.orderly hconn hlocal hstep hv hlive with
        ⟨-, -, -, -, rfl, -⟩ | ⟨hv0, hlive0, hlives⟩
      · exact absurd (h.bounded f hold id _ hget) (Nat.lt_irrefl _)
      · exact (h.pooling f hold id v hget hv0 hlive0).trans hlives.kind.1.symm
    · rw [hnew]

end Engine

end Nvllm.Sched
