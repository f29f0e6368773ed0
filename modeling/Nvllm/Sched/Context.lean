import Nvllm.Sched.Counters

/-! # The context of a session

`_update_request_as_session` cuts the tokens of a session at `num_computed_tokens`, which should
leave out the last sampled token and nothing else (`KeepsContext`). That is so if only the last
sampled token is not computed when the session stops (`Trimmed`). Preemption sets the number of
computed tokens to zero and later steps in flight raise it, so the context is kept in runs in which
a session only stops while it runs and no later step with it is in flight (`Steady`).
-/

namespace Nvllm.Sched

open Nvllm.KVCache Nvllm.Run List Option

/-! ## One update -/

/-- The update follows the tokens of the session without the last sampled one. -/
structure KeepsContext (r : Request) (update : StreamingUpdate) (r' : Request) : Prop where
  prompt : r'.allTokenIds = r'.promptTokenIds
  output : r'.outputTokenIds = []
  tokens : r'.allTokenIds = r.allTokenIds.dropLast ++ update.promptTokenIds

/-- All tokens but the last sampled one are computed. -/
structure Trimmed (r : Request) : Prop where
  computed : r.numComputedTokens + 1 = r.numTokens
  sampled : r.outputTokenIds ≠ []
  tokens : r.allTokenIds = r.promptTokenIds ++ r.outputTokenIds

namespace Request

variable {cfg : SchedulerConfig} {hasher : Request → Option (List Bytes)} {r r' : Request}
  {update : StreamingUpdate}

theorem updateAsSession_counters (h : r.updateAsSession hasher update = some r') :
    r'.numOutputPlaceholders = r.numOutputPlaceholders ∧
      r'.discardLatestAsyncTokens = r.discardLatestAsyncTokens := by
  obtain ⟨r1, hr1, h⟩ := bind_eq_some_iff.mp h
  cases h
  obtain ⟨hs, -, hr1⟩ := bind_eq_some_iff.mp hr1
  cases hr1
  exact ⟨rfl, rfl⟩

end Request

variable {r : Request}

theorem Trimmed.computed_nonneg (h : Trimmed r) : 0 ≤ r.numComputedTokens := by
  have hcomp := h.computed
  have hpos : 0 < r.outputTokenIds.length := length_pos_of_ne_nil h.sampled
  have hlen : r.numTokens = r.promptTokenIds.length + r.outputTokenIds.length := by
    rw [Request.numTokens, h.tokens, length_append]
  omega

theorem Trimmed.keptTokens (h : Trimmed r) :
    r.keptTokens = r.promptTokenIds ++ r.outputTokenIds.dropLast := by
  have hcomp := h.computed
  have hnonneg := h.computed_nonneg
  have hlen : r.numTokens = r.allTokenIds.length := rfl
  rw [Request.keptTokens, Request.sliceStop, if_pos hnonneg,
    show min r.numComputedTokens.toNat r.numTokens = r.allTokenIds.length - 1 by omega,
    ← dropLast_eq_take, h.tokens, dropLast_append_of_ne_nil h.sampled]

theorem Trimmed.keepsContext {hasher : Request → Option (List Bytes)} {r' : Request}
    {update : StreamingUpdate} (h : Trimmed r) (hr' : r.updateAsSession hasher update = some r') :
    KeepsContext r update r' := by
  have hcont := Request.updateAsSession_continues hr'
  have hkept := h.keptTokens
  refine ⟨?_, hcont.outputTokenIds, ?_⟩
  · rw [hcont.allTokenIds, hcont.promptTokenIds, hkept]
    show _ = r.promptTokenIds ++ (r.promptTokenIds ++ r.outputTokenIds.dropLast).drop
      r.promptTokenIds.length ++ update.promptTokenIds
    rw [drop_left]
  · rw [hcont.allTokenIds, hkept, h.tokens, dropLast_append_of_ne_nil h.sampled]

/-! ## When a session stops -/

/-- The request with more sampled tokens. -/
def Request.extended (tokens : List ℤ) (r : Request) : Request :=
  { r with outputTokenIds := r.outputTokenIds ++ tokens, allTokenIds := r.allTokenIds ++ tokens }

/-- `check_stop` after these tokens. -/
def Request.stopsAfter (maxModelLen : ℕ) (tokens : List ℤ) (r : Request) : Bool :=
  ((r.extended tokens).checkStop maxModelLen).any Option.isSome

/-- The appended tokens are those up to the one at which the request stops. -/
theorem Request.stopsAfter_of_update {hasher : Request → Option (List Bytes)} {maxModelLen : ℕ}
    {generated appended : List ℤ} {r1 : Request}
    (h : r.updateWithOutput hasher maxModelLen generated = some (appended, true, r1)) :
    ∃ k < generated.length, appended = generated.take (k + 1) ∧
      r.stopsAfter maxModelLen (generated.take (k + 1)) = true := by
  induction generated generalizing r appended with
  | nil => cases h
  | cons token generated ih =>
    simp only [updateWithOutput, bind, bind_eq_some_iff] at h
    obtain ⟨r2, happend, stop, hstop, h⟩ := h
    obtain ⟨hs, -, happend⟩ := bind_eq_some_iff.mp happend
    cases happend
    cases stop with
    | some status =>
      cases h
      refine ⟨0, Nat.zero_lt_succ _, rfl, ?_⟩
      exact (any_eq_true _ _).mpr ⟨_, hstop, rfl⟩
    | none =>
      obtain ⟨⟨rest, st, r3⟩, hrest, h⟩ := bind_eq_some_iff.mp h
      cases h
      obtain ⟨k, hk, happ, hstops⟩ := ih hrest
      refine ⟨k + 1, Nat.succ_lt_succ hk, congrArg (token :: ·) happ, ?_⟩
      -- the hashes are not looked at
      have hcongr : (r.extended (token :: generated.take (k + 1))).checkStop maxModelLen =
          (Request.extended (generated.take (k + 1))
            { r.extended [token] with blockHashes := r.blockHashes ++ hs }).checkStop
            maxModelLen := by
        simp only [extended, append_assoc, singleton_append]
        rfl
      rw [stopsAfter, take_succ_cons, hcongr]
      exact hstops

theorem Request.stopsAfter_rejectDrafts (drafts generated tokens : List ℤ) (maxModelLen : ℕ)
    (r : Request) :
    (r.rejectDrafts drafts generated).stopsAfter maxModelLen tokens =
      r.stopsAfter maxModelLen tokens := by
  unfold rejectDrafts
  split <;> rfl

/-- A session that samples tokens. -/
def Request.isSession (r : Request) : Bool := r.resumable && !r.pooling

theorem Request.isSession_iff : r.isSession = true ↔ r.resumable = true ∧ r.pooling = false := by
  simp [isSession]

namespace Engine

open Scheduler

variable {cfg : SchedulerConfig} {hasher : Request → Option (List Bytes)} {e e' : Engine}
  {ev : Event} {v : Ref} {id : RequestId}

/-! ## The conditions -/

/-- The workers report what they can, and nothing comes from a KV connector. -/
def Worked (e : Engine) : Event → Prop
  | .updateFromOutput m _ => m.Local ∧ e.MayReport m
  | _ => True

instance (e : Engine) (ev : Event) : Decidable (e.Worked ev) :=
  match ev with
  | .updateFromOutput m _ => inferInstanceAs (Decidable (m.Local ∧ e.MayReport m))
  | .addRequest _ _ | .finishRequests _ _ _ | .schedule _ | .updateDraftTokenIds _
  | .resetPrefixCache _ | .resetEncoderCache | .setPauseState _ => isTrue trivial

theorem Worked.local (h : e.Worked ev) : ev.Local := by
  cases ev with
  | updateFromOutput m a => exact h.1
  | _ => exact trivial

/-- Without async scheduling, a session whose sample is in flight runs and has no tokens left to
schedule. -/
def SteadyPass (cfg : SchedulerConfig) (e : Engine) : Prop :=
  cfg.asyncScheduling = false → ∀ en ∈ e.s.requests.entries, (e.s.req en.2).isSession = true →
    e.expected en.1 en.2 ≠ 0 →
      (e.s.req en.2).status = .running ∧ Pass.room cfg (e.s.req en.2) = 0

instance (cfg : SchedulerConfig) (e : Engine) : Decidable (e.SteadyPass cfg) :=
  inferInstanceAs (Decidable (_ → _))

/-- A session only stops with the last token of an output, while it runs and no later step with it
is in flight. -/
def SteadyStop (cfg : SchedulerConfig) (e : Engine) (m : ModelRunnerOutput) : Prop :=
  ∀ en ∈ e.s.requests.entries, (e.s.req en.2).isSession = true →
    ∀ k < (m.sampledTokenIds en.1).length,
      (e.s.req en.2).stopsAfter cfg.maxModelLen ((m.sampledTokenIds en.1).take (k + 1)) = true →
        k + 1 = (m.sampledTokenIds en.1).length ∧ (e.s.req en.2).status = .running ∧
          ∀ out ∈ e.inFlight.tail, out.numScheduledTokens.get? en.1 = none

instance (cfg : SchedulerConfig) (e : Engine) (m : ModelRunnerOutput) :
    Decidable (e.SteadyStop cfg m) := inferInstanceAs (Decidable (∀ en ∈ _, _ → ∀ k < _, _ → _))

/-- The condition under which the context of sessions is kept. -/
def Steady (cfg : SchedulerConfig) (e : Engine) : Event → Prop
  | .addRequest q a => e.Fresh (.addRequest q a)
  | .schedule _ => e.SteadyPass cfg
  | .updateFromOutput m _ => e.SteadyStop cfg m
  | .resetPrefixCache b => b = true → cfg.asyncScheduling = true →
      ∀ en ∈ e.s.requests.entries, (e.s.req en.2).status = .running →
        (e.s.req en.2).isSession = false
  | _ => True

instance (cfg : SchedulerConfig) (e : Engine) (ev : Event) : Decidable (e.Steady cfg ev) :=
  match ev with
  | .addRequest q a => inferInstanceAs (Decidable (e.Fresh (.addRequest q a)))
  | .schedule _ => inferInstanceAs (Decidable (e.SteadyPass cfg))
  | .updateFromOutput m _ => inferInstanceAs (Decidable (e.SteadyStop cfg m))
  | .resetPrefixCache b => inferInstanceAs (Decidable (b = true → cfg.asyncScheduling = true →
      ∀ en ∈ e.s.requests.entries, (e.s.req en.2).status = .running →
        (e.s.req en.2).isSession = false))
  | .finishRequests _ _ _ | .updateDraftTokenIds _ | .resetEncoderCache
  | .setPauseState _ => isTrue trivial

theorem Steady.fresh (h : e.Steady cfg ev) : e.Fresh ev := by
  cases ev with
  | addRequest q a => exact h
  | _ => exact trivial

/-! ## The invariant of a session -/

/-- The latest step in flight with an entry for the id. -/
def latestFlight (e : Engine) (id : RequestId) : Option Flight :=
  e.flights.reverse.find? fun f => (f.1.numScheduledTokens.get? id).isSome

theorem latestFlight_of_absent (h : e.Absent id) : e.latestFlight id = none := by
  refine find?_eq_none.mpr fun f hf => ?_
  rw [h f (mem_reverse.mp hf)]
  exact Bool.false_ne_true

theorem latestFlight_of_cons {f g : Flight} (hfl : e.flights = f :: e'.flights)
    (hg : g ∈ e'.latestFlight id) : g ∈ e.latestFlight id := by
  rw [latestFlight] at hg
  rw [latestFlight, hfl, reverse_cons, find?_append, hg]
  rfl

/-- How a session stands. -/
structure Standing (cfg : SchedulerConfig) (e : Engine) (id : RequestId) (v : Ref) : Prop
    extends Counted cfg e id v where
  tokens : (e.s.req v).allTokenIds = (e.s.req v).promptTokenIds ++ (e.s.req v).outputTokenIds
  idle : (e.s.req v).status = .waitingForStreamingReq → Trimmed (e.s.req v) ∧ e.Absent id
  chunk : ∀ f ∈ e.latestFlight id, (f.2.req v).isPrefillChunk = (e.s.req v).isPrefillChunk

/-- The request and what is to come are the same, up to drafts and queued inputs. -/
theorem Standing.of_same (h : Standing cfg e id v)
    (hexp : e'.expected id v = e.expected id v) (hrest : ∀ f ∈ e'.flights, f ∈ e.flights)
    (hlatest : ∀ f ∈ e'.latestFlight id, f ∈ e.latestFlight id)
    {l : List ℤ} {q : Option (List (Option StreamingUpdate))}
    (hr : e'.s.req v = { e.s.req v with specTokenIds := l, streamingQueue := q }) :
    Standing cfg e' id v := by
  refine ⟨h.toCounted.of_same hexp hrest hr, ?_, ?_, ?_⟩ <;> rw [hr]
  · exact h.tokens
  · intro hst
    obtain ⟨htrim, habs⟩ := h.idle hst
    exact ⟨{ htrim with }, fun f hf => habs f (hrest f hf)⟩
  · exact fun f hf => h.chunk f (hlatest f hf)

/-- A session without steps in flight. -/
theorem Standing.of_absent (h : Counted cfg e id v) (habsent : e.Absent id)
    (htokens : (e.s.req v).allTokenIds = (e.s.req v).promptTokenIds ++ (e.s.req v).outputTokenIds)
    (hidle : (e.s.req v).status = .waitingForStreamingReq → Trimmed (e.s.req v)) :
    Standing cfg e id v := by
  refine ⟨h, htokens, fun hst => ⟨hidle hst, habsent⟩, fun f hf => ?_⟩
  rw [latestFlight_of_absent habsent] at hf
  cases hf

variable {r r' : Request} {out : SchedulerOutput} {m : ModelRunnerOutput} {s0 : Scheduler}

/-- The next input of a session that has nothing but its last token left to compute. -/
theorem Standing.of_continued (habsent : e.Absent id) {update : StreamingUpdate} (htrim : Trimmed r)
    (hplace : r.numOutputPlaceholders = 0)
    (hkept : cfg.asyncScheduling = true → r.discardLatestAsyncTokens = false)
    (hr : r.updateAsSession hasher update = some (e.s.req v)) : Standing cfg e id v := by
  have hcont := Request.updateAsSession_continues hr
  have hkeeps := htrim.keepsContext hr
  obtain ⟨hplace', hkept'⟩ := Request.updateAsSession_counters hr
  have hrun : (e.s.req v).status ≠ .running := by
    rw [hcont.status]
    decide
  refine .of_absent (.of_absent habsent hrun ?_ (hplace'.trans hplace)
    fun hasync => hkept'.trans (hkept hasync)) habsent ?_ fun hst => ?_
  · rw [hcont.numComputedTokens]
    exact htrim.computed_nonneg
  · rw [hkeeps.output, append_nil]
    exact hkeeps.prompt
  · rw [hcont.status] at hst
    cases hst

/-! ## Steps -/

theorem Standing.arrives {q : Request.EngineCoreRequest} (habsent : e.Absent id)
    (harr : Request.Arrives q (e.s.req v)) : Standing cfg e id v := by
  refine .of_absent (.arrives habsent harr) habsent ?_ fun hst => ?_
  · rw [harr.allTokenIds, harr.promptTokenIds, harr.outputTokenIds, append_nil]
  · rcases harr.status with hst' | hst' <;> rw [hst'] at hst <;> cases hst

/-- A session that is scheduled has counted what is due. -/
theorem Standing.counted (h : Standing cfg e id v) (hsteady : e.SteadyPass cfg)
    (hv : e.s.requests.get? id = some v) (hsession : (e.s.req v).isSession = true)
    (hid : (e.s.req v).requestId = id) (hdeals : Deals cfg out (e.s.req v) r')
    (hsome : (out.numScheduledTokens.get? id).isSome = true) :
    (e.s.req v).numOutputPlaceholders = e.expected id v := by
  rw [← hid] at hsome
  have hplace := h.placeholders
  by_cases hasync : cfg.asyncScheduling = true
  · rwa [if_pos hasync] at hplace
  · rw [if_neg hasync] at hplace
    rw [hplace]
    by_contra hdue
    obtain ⟨hrun, hroom⟩ := hsteady (Bool.eq_false_of_not_eq_true hasync) (id, v)
      (Dict.mem_of_get? hv) hsession (Ne.symm hdue)
    cases hdeals with
    | left status hn _ _ | preempted hn _ _ =>
      rw [hn] at hsome
      cases hsome
    | running n _ _ _ htokens _ =>
      -- there is no room
      have hle := htokens.le
      have hge := htokens.nonneg
      rw [hroom] at hle hge
      exact htokens.ne_zero (le_antisymm (by simpa using hle) (hge (Int.le_refl 0)))
    | entered n c _ _ henter _ _ => exact Deals.ne_running henter hrun

theorem standing_scheduled (h : Standing cfg e id v) (hsteady : e.SteadyPass cfg)
    (hfl : e'.flights = e.flights ++ [(out, e'.s)]) (hv : e.s.requests.get? id = some v)
    (hid : (e.s.req v).requestId = id) (hv' : e'.s.requests.get? id = some v)
    (hsession : (e.s.req v).isSession = true)
    (hdeals : Deals cfg out (e.s.req v) (e'.s.req v)) : Standing cfg e' id v := by
  have hlatest : e'.latestFlight id = if (out.numScheduledTokens.get? id).isSome = true then
      some (out, e'.s) else e.latestFlight id := by
    rw [latestFlight, hfl, reverse_append, reverse_singleton, singleton_append,
      find?_cons, latestFlight]
    cases (out.numScheduledTokens.get? id).isSome <;> rfl
  have hfixed := hdeals.fixed
  refine ⟨h.toCounted.scheduled hfl hid hv' (h.counted hsteady hv hsession hid hdeals) hdeals, ?_,
    fun hst => ?_, fun f hf => ?_⟩
  · have hall : (e'.s.req v).fixed.allTokenIds = (e.s.req v).fixed.allTokenIds :=
      congrArg Request.allTokenIds hfixed
    have hprompt : (e'.s.req v).fixed.promptTokenIds = (e.s.req v).fixed.promptTokenIds :=
      congrArg Request.promptTokenIds hfixed
    have hout : (e'.s.req v).fixed.outputTokenIds = (e.s.req v).fixed.outputTokenIds :=
      congrArg Request.outputTokenIds hfixed
    exact (hall.trans h.tokens).trans (congrArg₂ (· ++ ·) hprompt.symm hout.symm)
  · obtain ⟨hn, hr'⟩ := hdeals.idle hst
    rw [hr'] at hst ⊢
    exact (h.idle hst).imp_right fun habs => habs.concat hfl (hid ▸ hn)
  · rw [hlatest] at hf
    split at hf
    · cases hf
      rfl
    · rename_i hn
      have hnone : out.numScheduledTokens.get? (e.s.req v).requestId = none := by
        rw [hid]
        simpa using hn
      rw [h.chunk f hf]
      cases hdeals with
      | left status _ _ hr' => rw [hr']
      | preempted _ _ hr' => rw [hr']; rfl
      | running n hsome _ _ _ _ | entered n c hsome _ _ _ _ =>
        rw [hnone] at hsome
        cases hsome

theorem Standing.tokens_taken {drafts generated : List ℤ} (h : Standing cfg e id v)
    (ht : Taken cfg e' id v drafts generated (e.s.req v) r') :
    r'.allTokenIds = r'.promptTokenIds ++ r'.outputTokenIds := by
  rw [ht.allTokenIds, ht.promptTokenIds, ht.outputTokenIds, h.tokens, append_assoc]

/-- The last step of a running session leaves its last token to compute. -/
theorem Standing.trimmed (h : Standing cfg e id v) (hdue : Due e e' out m id v s0)
    (hrun : (e.s.req v).status = .running) (habsent : e'.Absent id)
    (ht : Taken cfg e' id v (out.scheduledSpecDecodeTokens.getD id []) (m.sampledTokenIds id)
      (e.s.req v) r') : Trimmed r' := by
  have hlatest : e.latestFlight id = some (out, s0) := by
    rw [latestFlight, hdue.flights, reverse_cons, find?_append]
    have hnone := latestFlight_of_absent habsent
    rw [latestFlight] at hnone
    rw [hnone, find?_singleton, if_pos hdue.entry]
    rfl
  have hchunk := h.chunk (out, s0) hlatest
  have hcomp := h.even.computed hrun (hchunk.symm.trans hdue.chunk)
  have hone := h.even.nonempty hrun
  have hsum := expected_of_cons hdue.flights id v
  rw [expected_of_absent habsent, hdue.brings] at hsum
  have htokens := ht.counts.numTokens
  have hcomp' := ht.counts.numComputedTokens
  refine ⟨by omega, ?_, h.tokens_taken ht⟩
  rw [ht.outputTokenIds]
  exact append_ne_nil_of_right_ne_nil _ hdue.generated

/-- The oldest step lands, and the session goes on as it is. -/
theorem Standing.of_unchanged (h : Standing cfg e id v) {f : Flight}
    (hfl : e.flights = f :: e'.flights) (hzero : expects f id v = 0)
    (hr : e'.s.req v = e.s.req v) : Standing cfg e' id v := by
  refine h.of_same ?_ (fun g hg => ?_) (fun g => latestFlight_of_cons hfl) hr
  · rw [expected_of_cons hfl, hzero, Int.zero_add]
  · rw [hfl]
    exact mem_cons_of_mem _ hg

/-- What a stop tells about the session. -/
theorem Standing.stops (h : Standing cfg e id v) (hm : e.Matched) (htracked : e'.Tracked)
    (hreport : e.MayReport m) (hsteady : e.SteadyStop cfg m)
    (hfl : e.flights = (out, s0) :: e'.flights) (hin : e.inFlight = out :: e'.inFlight)
    (hv : e.s.requests.get? id = some v) (hlive : (e.s.req v).isFinished = false)
    (hsession : (e.s.req v).isSession = true) {n : ℤ}
    (hn : out.numScheduledTokens.get? id = some n)
    (htake : (e.s.req v).take cfg hasher out m = some (true, r')) :
    e'.Absent id ∧ Trimmed r' ∧ r'.numOutputPlaceholders = 0 ∧
      Taken cfg e' id v (out.scheduledSpecDecodeTokens.getD id []) (m.sampledTokenIds id)
        (e.s.req v) r' := by
  rcases hm.due hreport hfl hv hlive hn with ⟨hg, -⟩ | hdue
  · -- a session without new tokens does not stop
    have hstop := (Request.take_nil (hm.orderly.known id v hv ▸ hg) htake).1
    rw [(Request.isSession_iff.mp hsession).2] at hstop
    cases hstop
  -- the session stops with the last token
  have hstop : ∀ appended r1, ((e.s.req v).rejectDrafts
      (out.scheduledSpecDecodeTokens.getD id []) (m.sampledTokenIds id)).updateWithOutput hasher
      cfg.maxModelLen (m.sampledTokenIds id) = some (appended, true, r1) →
      appended = m.sampledTokenIds id ∧ (e.s.req v).status = .running ∧
        ∀ out ∈ e'.inFlight, out.numScheduledTokens.get? id = none := by
    intro appended r1 hup
    obtain ⟨k, hk, happ, hstops⟩ := Request.stopsAfter_of_update hup
    rw [Request.stopsAfter_rejectDrafts] at hstops
    obtain ⟨hlast, hrun, htail⟩ := hsteady (id, v) (Dict.mem_of_get? hv) hsession k hk hstops
    rw [hin, tail_cons] at htail
    refine ⟨?_, hrun, htail⟩
    rw [happ, hlast, take_length]
  have ht := h.taken hdue htake fun appended r1 hup => (hstop appended r1 hup).1
  obtain ⟨appended, r1, hup, -⟩ := Request.take_cons h.kept (hdue.requestId ▸ hdue.generated) htake
  rw [hdue.requestId] at hup
  obtain ⟨-, hrun, htail⟩ := hstop appended r1 hup
  have habsent : e'.Absent id := by
    intro f hf
    refine htail f.1 ?_
    rw [← htracked]
    exact mem_map_of_mem hf
  have hplace := ht.placeholders
  rw [expected_of_absent habsent, ite_self] at hplace
  exact ⟨habsent, h.trimmed hdue hrun habsent ht, hplace, ht⟩

theorem standing_landed (hm : e.Matched) (htracked : e'.Tracked) (h : Standing cfg e id v)
    (hreport : e.MayReport m) (hsteady : e.SteadyStop cfg m)
    (hfl : e.flights = (out, s0) :: e'.flights) (hin : e.inFlight = out :: e'.inFlight)
    (hv : e.s.requests.get? id = some v) (hlive : (e.s.req v).isFinished = false)
    (hsession : (e.s.req v).isSession = true)
    (hrec : Receives cfg hasher out m (e.s.req v) (e'.s.req v)) : Standing cfg e' id v := by
  have hid := hm.orderly.known id v hv
  cases hrec with
  | absent hn hr =>
    rw [hid] at hn
    exact h.of_unchanged hfl (expects_of_none hn) hr
  | goesOn n hn htake =>
    rw [hid] at hn
    rcases h.toCounted.goesOn hm hreport hfl hv hlive hn htake with
      ⟨hzero, hr⟩ | ⟨hstatus, ht, hc⟩
    · exact h.of_unchanged hfl hzero hr
    · refine ⟨hc, h.tokens_taken ht, fun hst => ?_, fun g hg => ?_⟩
      · exact absurd (h.idle (hstatus ▸ hst)).2 (not_absent hfl hn)
      · rw [ht.counts.isPrefillChunk]
        exact h.chunk g (latestFlight_of_cons hfl hg)
  | continued n r1 update queue hn htake _ _ hup =>
    rw [hid] at hn
    obtain ⟨habsent, htrim, hplace, ht⟩ :=
      h.stops hm htracked hreport hsteady hfl hin hv hlive hsession hn htake
    exact .of_continued habsent (r := r1.withStreamingQueue (some queue)) { htrim with } hplace
      ht.kept hup
  | idle n r1 hn htake _ _ hr =>
    rw [hid] at hn
    obtain ⟨habsent, htrim, hplace, ht⟩ :=
      h.stops hm htracked hreport hsteady hfl hin hv hlive hsession hn htake
    have hnonneg : 0 ≤ r1.numComputedTokens := htrim.computed_nonneg
    refine .of_absent (.of_absent habsent ?_ ?_ ?_ ?_) habsent ?_ fun _ => ?_ <;> rw [hr]
    · exact RequestStatus.noConfusion
    · exact hnonneg
    · exact hplace
    · exact ht.kept
    · exact htrim.tokens
    · exact { htrim with }

/-! ## Runs -/

/-- Only sessions wait for input. -/
theorem Lives.idle (h : Lives cfg hasher e e' r r' ev)
    (hr : r.status = .waitingForStreamingReq → r.resumable = true)
    (hst : r'.status = .waitingForStreamingReq) : r'.resumable = true := by
  rw [h.kind.2]
  cases h with
  | other q a heq | spared ids status a heq | unreset b heq | encoder heq | paused p heq =>
    exact hr (heq ▸ hst)
  | queued q a queue _ hne heq =>
    rw [heq] at hst
    exact absurd hst hne
  | continued q a update _ hidle _ _ _ => exact hr hidle
  | scheduled a out _ _ hdeals => exact hr ((hdeals.idle hst).2 ▸ hst)
  | received m a out rest _ _ _ hrec =>
    cases hrec with
    | absent _ heq => exact hr (heq ▸ hst)
    | goesOn n _ htake =>
      obtain ⟨appended, htakes⟩ := Request.takeOutput_takesTokens htake
      have hstatus := (htakes.goesOn rfl).trans (rejectDrafts_status _ _ _)
      exact hr (hstatus.symm.trans hst)
    | continued n r1 update queue _ htake hres _ _ | idle n r1 _ htake hres _ _ =>
      exact (take_kind htake).2.symm.trans hres
  | drafts drafts l heq =>
    rw [heq] at hst
    exact hr hst
  | reset _ heq =>
    rw [heq] at hst
    cases hst

/-- All sessions stand well. -/
structure Composed (cfg : SchedulerConfig) (e : Engine) : Prop where
  matched : e.Matched
  standing : ∀ id v, e.s.requests.get? id = some v → (e.s.req v).isFinished = false →
    ((e.s.req v).status = .waitingForStreamingReq → (e.s.req v).resumable = true) ∧
      ((e.s.req v).isSession = true → Standing cfg e id v)

theorem composed_init (cfg : SchedulerConfig) (kv : KVCacheManager) (enc : EncoderCacheManager) :
    (init kv enc).Composed cfg :=
  ⟨matched_init kv enc, fun _ _ h => by cases h⟩

/-- A reset without async scheduling. -/
theorem Standing.reset (h : Standing cfg e id v) (hsync : ¬cfg.asyncScheduling = true)
    (hfl : e'.flights = e.flights) (hr : e'.s.req v = resetRequest (e.s.req v)) :
    Standing cfg e' id v := by
  have hexp : e'.expected id v = e.expected id v := by rw [expected, hfl, expected]
  refine ⟨⟨?_, ?_, fun hasync => absurd hasync hsync, fun _ => .inl ?_⟩, ?_, fun hst => ?_,
    fun f hf => ?_⟩
  · rw [hr, hexp]
    exact ⟨h.even.nonneg, fun _ => Int.le_refl 0, by rintro ⟨⟩, by rintro ⟨⟩, by rintro ⟨⟩⟩
  · rw [hr, if_neg hsync]
    rfl
  · rw [hr]
    rfl
  · rw [hr]
    exact h.tokens
  · rw [hr] at hst
    cases hst
  · rw [latestFlight, hfl] at hf
    rw [hr]
    exact h.chunk f hf

theorem composed_step (hconn : cfg.connector = false) (h : e.Composed cfg) (hworked : e.Worked ev)
    (hsteady : e.Steady cfg ev) (hstep : e.step cfg hasher ev = some e') : e'.Composed cfg := by
  have hm := h.matched
  have hm' := matched_step hm hconn hworked.local hsteady.fresh hstep
  have hflies := step_flies hm.tracked hstep
  refine ⟨hm', fun id v hv hlive => ?_⟩
  rcases step_lives hm.orderly hconn hworked.local hstep hv hlive with
    ⟨q, a, rfl, rfl, -, hnone, harr⟩ | ⟨hv0, hlive0, hlives⟩
  · refine ⟨fun hst => ?_, fun _ => ?_⟩
    · rcases harr.status with hst' | hst' <;> rw [hst'] at hst <;> cases hst
    cases hflies with
    | same _ hfl _ _ _ =>
      exact .arrives (fun f hf => hm.absent hsteady.fresh hnone f (hfl ▸ hf)) harr
  · obtain ⟨hidle, hstanding⟩ := h.standing id v hv0 hlive0
    refine ⟨hlives.idle hidle, fun hsession => ?_⟩
    obtain ⟨hpool, hres⟩ := hlives.kind
    have hsession0 : (e.s.req v).isSession = true := by
      rw [Request.isSession, ← hpool, ← hres]
      exact hsession
    have hs := hstanding hsession0
    have hid := hm.orderly.known id v hv0
    cases hlives with
    | other q a hr | queued q a queue _ _ hr | spared ids status a hr | drafts drafts l hr
    | unreset b hr | encoder hr | paused p hr =>
      cases hflies with
      | same _ hfl _ _ _ =>
        refine hs.of_same ?_ (fun f hf => hfl ▸ hf) (fun f hf => ?_) hr
        · rw [expected, hfl, expected]
        · rwa [latestFlight, hfl] at hf
    | continued q a update _ hst _ _ hr =>
      cases hflies with
      | same _ hfl _ _ _ =>
        obtain ⟨htrim, habsent⟩ := hs.idle hst
        have hplace := hs.placeholders
        rw [expected_of_absent habsent, ite_self] at hplace
        exact .of_continued (fun f hf => habsent f (hfl ▸ hf)) htrim hplace hs.kept hr
    | scheduled a out hin hhist hdeals =>
      exact standing_scheduled hs hsteady (flights_schedule hin hhist) hv0 hid hv hsession0
        hdeals
    | received m a out rest hin hin' hhist hrec =>
      obtain ⟨s0, hs0⟩ := flights_update hm.tracked hin hin' hhist
      exact standing_landed hm hm'.tracked hs hworked.2 hsteady hs0 (hin' ▸ hin) hv0 hlive0
        hsession0 hrec
    | reset hrun hr =>
      have hsync : ¬cfg.asyncScheduling = true := by
        intro hasync
        rw [hsteady rfl hasync (id, v) (Dict.mem_of_get? hv0) hrun] at hsession0
        cases hsession0
      cases hflies with
      | same _ hfl _ _ _ => exact hs.reset hsync hfl hr

/-! ## The calls -/

/-- `_update_request_as_session` is applied to the request `v`, which is `r` then, and makes it
`r'`: in `add_request`, or in `update_from_output` when the loop comes to the request and it stops
with an input in its queue. -/
inductive Applies (cfg : SchedulerConfig) (hasher : Request → Option (List Bytes)) (e : Engine)
    (v : Ref) (r : Request) (update : StreamingUpdate) (r' : Request) : Event → Prop
  | waiting (q : Request.EngineCoreRequest) (a : Answers) (next : Request) :
      Request.fromEngineCoreRequest hasher q = some next →
      e.s.requests.get? next.requestId = some v → r = e.s.req v →
      r.status = .waitingForStreamingReq → next.toStreamingUpdate = some update →
      r.updateAsSession hasher update = some r' →
      Applies cfg hasher e v r update r' (.addRequest q a)
  | stopped (m : ModelRunnerOutput) (a : Answers) (out : SchedulerOutput)
      (before after : List (RequestId × ℤ)) (id : RequestId) (n : ℤ) (z : Stops) (r1 : Request)
      (queue : List (Option StreamingUpdate)) :
      e.inFlight.head? = some out →
      out.numScheduledTokens.entries = before ++ (id, n) :: after →
      updateLoop cfg hasher a out m [] before { s := e.s } = some z →
      z.s.requests.get? id = some v → (z.s.req v).isFinished = false →
      (z.s.req v).take cfg hasher out m = some (true, r1) → r1.resumable = true →
      r1.streamingQueue = some (some update :: queue) →
      r = r1.withStreamingQueue (some queue) → r.updateAsSession hasher update = some r' →
      Applies cfg hasher e v r update r' (.updateFromOutput m a)

/-- A call in the loop finds the session as it was before. -/
theorem Composed.applies (h : e.Composed cfg) (hworked : e.Worked ev) (hsteady : e.Steady cfg ev)
    {update : StreamingUpdate} (hc : Applies cfg hasher e v r update r' ev)
    (hpool : r.pooling = false) : Trimmed r := by
  have hk := h.matched.orderly.known
  cases hc with
  | waiting q a next _ hv heq hst _ _ =>
    subst heq
    have hlive : (e.s.req v).isFinished = false := congrArg RequestStatus.isFinished hst
    obtain ⟨hidle, hstanding⟩ := h.standing _ v hv hlive
    have hsession := Request.isSession_iff.mpr ⟨hidle hst, hpool⟩
    exact ((hstanding hsession).idle hst).1
  | stopped m a out before after id n z r1 queue hhead hentries hloop hv hlive htake hres _ heq _ =>
    subst heq
    have hnodup := out.numScheduledTokens.nodup
    have hnot : id ∉ before.map Prod.fst := by
      rw [hentries, map_append, map_cons] at hnodup
      intro hmem
      exact disjoint_of_nodup_append hnodup hmem mem_cons_self
    obtain ⟨hget, hreq⟩ := updateLoop_apart hk hnot hloop
    have hv0 : e.s.requests.get? id = some v := hget.symm.trans hv
    have hsame : z.s.req v = e.s.req v := hreq v (hk id v hv0)
    rw [hsame] at hlive htake
    obtain ⟨hpool', hres'⟩ := take_kind htake
    have hsession := Request.isSession_iff.mpr ⟨hres'.symm.trans hres, hpool'.symm.trans hpool⟩
    have hs := (h.standing id v hv0 hlive).2 hsession
    have hn : out.numScheduledTokens.get? id = some n := by
      apply Dict.get?_of_mem
      rw [hentries]
      exact mem_append_right _ mem_cons_self
    obtain ⟨e', s0, hfl, hin, htracked⟩ := h.matched.tracked.of_head hhead
    obtain ⟨-, htrim, -⟩ :=
      hs.stops h.matched htracked hworked.2 hsteady hfl hin hv0 hlive hsession hn htake
    exact { htrim with }

/-- **The context of a session is kept** in every run in which sessions are steady. -/
theorem context_of_steady (hconn : cfg.connector = false) {kv : KVCacheManager}
    {enc : EncoderCacheManager}
    (h : Reach (step cfg hasher) (fun e ev => e.Worked ev ∧ e.Steady cfg ev) (init kv enc) e)
    (hworked : e.Worked ev) (hsteady : e.Steady cfg ev) {r r' : Request}
    {update : StreamingUpdate} (hc : Applies cfg hasher e v r update r' ev)
    (hpool : r.pooling = false) : KeepsContext r update r' := by
  have hinv : e.Composed cfg := Reach.invariant (Composed cfg) (composed_init cfg kv enc)
    (fun _ _ _ hinv hok hstep => composed_step hconn hinv hok.1 hok.2 hstep) h
  have htrim := hinv.applies hworked hsteady hc hpool
  cases hc with
  | waiting _ _ _ _ _ _ _ _ hup | stopped _ _ _ _ _ _ _ _ _ _ _ _ _ _ _ _ _ _ _ hup =>
    exact htrim.keepsContext hup

/-! ## A preempted session -/

def contextConfig (asyncScheduling : Bool) : SchedulerConfig where
  maxNumRunningReqs := 4
  maxNumScheduledTokens := 16
  maxModelLen := 16
  blockSize := 4
  asyncScheduling := asyncScheduling

/-- An input of the session, which stops with the token 7. -/
def contextInput (tokens : List ℤ) : Request.EngineCoreRequest where
  requestId := 2
  promptTokenIds := tokens
  samplingParams := some { eosTokenId := some 7 }
  resumable := true

def nextInput : StreamingUpdate where
  promptTokenIds := [9]
  arrivalTime := 0
  samplingParams := some { eosTokenId := some 7 }

/-- There is one block for each of the two requests; the second step preempts the session. -/
def preemptedSessionEvents : List Event :=
  [.addRequest { requestId := 1, promptTokenIds := [1, 1, 1, 1] } {},
    .addRequest (contextInput [1, 2, 3, 4]) {}, .addRequest (contextInput [9]) {},
    .schedule {}, .schedule {}]

set_option synthInstance.maxSize 512 in
/-- The output of the first step makes the session stop while it is preempted. Its tokens are lost,
and its prompt is no longer the beginning of its tokens. -/
theorem preempted_session_loses_context : ∃ kv e r r', ∃ m : ModelRunnerOutput,
    Reach (step (contextConfig true) fun _ => some []) Worked (init kv (.init false 0)) e ∧
    e.Worked (.updateFromOutput m {}) ∧ e.inFlight.length = 2 ∧
    Applies (contextConfig true) (fun _ => some []) e 1 r nextInput r' (.updateFromOutput m {}) ∧
    r.allTokenIds = [1, 2, 3, 4, 7] ∧ r'.allTokenIds = [9] ∧
    r'.promptTokenIds = [1, 2, 3, 4, 9] ∧ ¬KeepsContext r nextInput r' := by
  obtain ⟨e0, he0, e, he, hworked, hlen, out, hhead, hentries, z, hloop, hv, hlive, ⟨stopped, r1⟩,
      htake, rfl, hres, hqueue, hall, r', hup, hall', hprompt⟩ : ∃ e0 ∈ startFull 3 16,
      ∃ e ∈ run (guarded Worked (step (contextConfig true) fun _ => some [])) e0
        preemptedSessionEvents,
      e.Worked (.updateFromOutput { sampledTokenIds := fun _ => [7] } {}) ∧ e.inFlight.length = 2 ∧
      ∃ out ∈ e.inFlight.head?, out.numScheduledTokens.entries = [(1, 4), (2, 4)] ∧
      ∃ z ∈ updateLoop (contextConfig true) (fun _ => some []) {} out
        { sampledTokenIds := fun _ => [7] } [] [(1, 4)] { s := e.s },
      z.s.requests.get? 2 = some 1 ∧ (z.s.req 1).isFinished = false ∧
      ∃ x ∈ (z.s.req 1).take (contextConfig true) (fun _ => some []) out
        { sampledTokenIds := fun _ => [7] },
      x.1 = true ∧ x.2.resumable = true ∧ x.2.streamingQueue = some [some nextInput] ∧
      x.2.allTokenIds = [1, 2, 3, 4, 7] ∧
      ∃ r' ∈ (x.2.withStreamingQueue (some [])).updateAsSession (fun _ => some []) nextInput,
        r'.allTokenIds = [9] ∧ r'.promptTokenIds = [1, 2, 3, 4, 9] := by
    decide +kernel
  obtain ⟨kv, -, rfl⟩ := map_eq_some_iff.mp he0
  refine ⟨kv, e, r1.withStreamingQueue (some []), r', _, Reach.of_guarded_run .init he, hworked,
    hlen, .stopped _ _ out [(1, 4)] [] 2 4 z r1 [] hhead hentries hloop hv hlive
      htake hres hqueue rfl hup, hall, hall', hprompt, fun hkeeps => ?_⟩
  have hsame := hkeeps.prompt
  rw [hall', hprompt] at hsame
  exact absurd hsame (by decide)

/-- The session stops while it runs, and then its next input comes. -/
theorem idle_session_keeps_context : ∃ kv e r r',
    Reach (step (contextConfig false) fun _ => some [])
      (fun e ev => e.Worked ev ∧ e.Steady (contextConfig false) ev) (init kv (.init false 0)) e ∧
    Applies (contextConfig false) (fun _ => some []) e 0 r nextInput r'
      (.addRequest (contextInput [9]) {}) ∧
    r.allTokenIds = [1, 2, 3, 4, 7] ∧ KeepsContext r nextInput r' := by
  obtain ⟨e0, he0, e, he, hv, hst, hall, hpool, hsteady, next, hnext, hid, hupdate, r', hup, -⟩ :
      ∃ e0 ∈ startFull 3 16,
      ∃ e ∈ run (guarded (fun (e : Engine) ev => e.Worked ev ∧ e.Steady (contextConfig false) ev)
        (step (contextConfig false) fun _ => some [])) e0
        [.addRequest (contextInput [1, 2, 3, 4]) {}, .schedule {},
          .updateFromOutput { sampledTokenIds := fun _ => [7] } {}],
        e.s.requests.get? 2 = some 0 ∧ (e.s.req 0).status = .waitingForStreamingReq ∧
        (e.s.req 0).allTokenIds = [1, 2, 3, 4, 7] ∧ (e.s.req 0).pooling = false ∧
        e.Steady (contextConfig false) (.addRequest (contextInput [9]) {}) ∧
        ∃ next ∈ Request.fromEngineCoreRequest (fun _ => some []) (contextInput [9]),
          next.requestId = 2 ∧ next.toStreamingUpdate = some nextInput ∧
          ∃ _ ∈ (e.s.req 0).updateAsSession (fun _ => some []) nextInput, True := by
    decide +kernel
  obtain ⟨kv, -, rfl⟩ := map_eq_some_iff.mp he0
  have hreach := Reach.of_guarded_run .init he
  have hc : Applies (contextConfig false) (fun _ => some []) e 0 (e.s.req 0) nextInput r'
      (.addRequest (contextInput [9]) {}) :=
    .waiting _ _ next hnext (by rw [hid]; exact hv) rfl hst hupdate hup
  have hworked : e.Worked (.addRequest (contextInput [9]) {}) := trivial
  exact ⟨kv, e, e.s.req 0, r', hreach, hc, hall,
    context_of_steady rfl hreach hworked hsteady hc hpool⟩

end Engine

end Nvllm.Sched
