import Nvllm.Sched.Update

/-! # Requests and their output

What a new request consists of, what sampled tokens, a pooler output and the next input of a session
change of a request, and what they leave as it is.
-/

namespace Nvllm.Sched.Request

open Nvllm.KVCache List Option

variable {cfg : SchedulerConfig} {hasher : Request → Option (List Bytes)} {r r' : Request}

/-- A request without its tokens, their hashes and its status. -/
def untokened (r : Request) : Request :=
  { r with outputTokenIds := [], allTokenIds := [], blockHashes := [], status := .waiting }

/-- The fields that neither scheduling nor sampled tokens change. -/
def core (r : Request) : Request :=
  { r.untokened with
    numOutputPlaceholders := 0
    discardLatestAsyncTokens := false
    specTokenIds := []
    numComputedTokens := 0
    isPrefillChunk := false
    numPreemptions := 0 }

theorem core_of_untokened (h : r'.untokened = r.untokened) : r'.core = r.core := by
  unfold core
  rw [h]

/-- A field that sampled tokens do not change. -/
theorem field_of_core {α : Type} (f : Request → α) (hf : ∀ r : Request, f r.core = f r)
    (h : r'.core = r.core) : f r' = f r := by
  rw [← hf, h, hf]

/-! ## New requests -/

/-- A request as a client sends it. -/
structure Arrives (q : EngineCoreRequest) (r : Request) : Prop where
  requestId : r.requestId = q.requestId
  priority : r.priority = q.priority
  arrivalTime : r.arrivalTime = q.arrivalTime
  samplingParams : r.samplingParams = q.samplingParams
  pooling : r.pooling = q.pooling
  maxTokens : r.maxTokens = if q.pooling then 1 else q.maxTokens
  loraRequest : r.loraRequest = q.loraRequest
  mmFeatures : r.mmFeatures = q.mmFeatures
  promptTokenIds : r.promptTokenIds = q.promptTokenIds
  allTokenIds : r.allTokenIds = q.promptTokenIds
  outputTokenIds : r.outputTokenIds = []
  numComputedTokens : r.numComputedTokens = 0
  numOutputPlaceholders : r.numOutputPlaceholders = 0
  discardLatestAsyncTokens : r.discardLatestAsyncTokens = false
  specTokenIds : r.specTokenIds = []
  resumable : r.resumable = q.resumable
  status : r.status = .waiting ∨ r.status = .waitingForStructuredOutputGrammar
  streamingQueue : r.streamingQueue.getD [] = []

theorem fromEngineCoreRequest_arrives {q : EngineCoreRequest}
    (h : fromEngineCoreRequest hasher q = some r) : Arrives q r := by
  unfold fromEngineCoreRequest at h
  split at h
  · obtain ⟨hs, -, h⟩ := bind_eq_some_iff.mp h
    cases h
    refine ⟨rfl, rfl, rfl, rfl, rfl, rfl, rfl, rfl, rfl, rfl, rfl, rfl, rfl, rfl, rfl, rfl, ?_,
      rfl⟩
    dsimp only
    split
    · exact .inr rfl
    · exact .inl rfl
  · cases h

/-! ## Appending tokens -/

theorem appendOutputTokenId_spec {token : ℤ} (h : r.appendOutputTokenId hasher token = some r') :
    r'.untokened = r.untokened ∧ r'.status = r.status ∧
      r'.allTokenIds = r.allTokenIds ++ [token] ∧
      r'.outputTokenIds = r.outputTokenIds ++ [token] := by
  obtain ⟨hs, -, h⟩ := bind_eq_some_iff.mp h
  cases h
  exact ⟨rfl, rfl, rfl, rfl⟩

/-- What `_update_request_with_output` does: the appended tokens are the first ones, all of them
unless the request stops. -/
structure Appends (generated appended : List ℤ) (stopped : Bool) (r r' : Request) : Prop where
  untokened : r'.untokened = r.untokened
  allTokenIds : r'.allTokenIds = r.allTokenIds ++ appended
  outputTokenIds : r'.outputTokenIds = r.outputTokenIds ++ appended
  initial : appended <+: generated
  goesOn : stopped = false → appended = generated ∧ r'.status = r.status
  stops : stopped = true → appended ≠ [] ∧ r'.isFinished = true

variable {maxModelLen : ℕ} {generated : List ℤ} {stopped : Bool}

theorem stopStatus_isFinished {p : SamplingParams} {token : ℤ} {status : RequestStatus}
    (h : r.stopStatus p token maxModelLen = some status) : status.isFinished = true := by
  unfold stopStatus at h
  split at h
  · cases h
    rfl
  · split at h
    · cases h
      rfl
    · split at h
      · split at h
        · cases h
          rfl
        · cases h
      · cases h

theorem checkStop_isFinished {status : RequestStatus}
    (h : r.checkStop maxModelLen = some (some status)) : status.isFinished = true := by
  unfold checkStop at h
  split at h
  · cases h
  · obtain ⟨p, -, h⟩ := bind_eq_some_iff.mp h
    split at h
    · cases h
    · obtain ⟨token, -, h⟩ := bind_eq_some_iff.mp h
      exact stopStatus_isFinished (Option.some.inj h)

theorem updateWithOutput_appends {appended : List ℤ}
    (h : r.updateWithOutput hasher maxModelLen generated = some (appended, stopped, r')) :
    Appends generated appended stopped r r' := by
  induction generated generalizing r appended with
  | nil =>
    cases h
    exact ⟨rfl, by simp, by simp, prefix_rfl, fun _ => ⟨rfl, rfl⟩, fun h => by cases h⟩
  | cons token generated ih =>
    simp only [updateWithOutput, bind, bind_eq_some_iff] at h
    obtain ⟨r1, happend, stop, hstop, h⟩ := h
    obtain ⟨hun, hstatus, hall, hout⟩ := appendOutputTokenId_spec happend
    cases stop with
    | some status =>
      cases h
      refine ⟨hun, hall, hout, ?_, fun h => (by cases h), fun _ => ⟨by simp, ?_⟩⟩
      · exact ⟨generated, rfl⟩
      · exact checkStop_isFinished hstop
    | none =>
      obtain ⟨⟨rest, st, r2⟩, hrest, h⟩ := bind_eq_some_iff.mp h
      cases h
      have htail := ih hrest
      refine ⟨htail.untokened.trans hun, ?_, ?_, ?_, fun hst => ?_, fun hst => ?_⟩
      · rw [htail.allTokenIds, hall, append_assoc]
        rfl
      · rw [htail.outputTokenIds, hout, append_assoc]
        rfl
      · exact cons_prefix_cons.mpr ⟨rfl, htail.initial⟩
      · obtain ⟨rfl, hs⟩ := htail.goesOn hst
        exact ⟨rfl, hs.trans hstatus⟩
      · exact ⟨by simp, (htail.stops hst).2⟩

/-! ## Taking an output -/

theorem rejectDrafts_core (drafts generated : List ℤ) (r : Request) :
    (r.rejectDrafts drafts generated).core = r.core := by
  unfold rejectDrafts
  split <;> rfl

theorem rejectDrafts_tokens (drafts generated : List ℤ) (r : Request) :
    (r.rejectDrafts drafts generated).allTokenIds = r.allTokenIds ∧
      (r.rejectDrafts drafts generated).outputTokenIds = r.outputTokenIds := by
  unfold rejectDrafts
  split <;> exact ⟨rfl, rfl⟩

/-- What an output does to a request, apart from the counters. -/
structure TakesTokens (generated appended : List ℤ) (stopped : Bool) (r r' : Request) : Prop where
  core : r'.core = r.core
  allTokenIds : r'.allTokenIds = r.allTokenIds ++ appended
  outputTokenIds : r'.outputTokenIds = r.outputTokenIds ++ appended
  initial : appended <+: generated
  goesOn : stopped = false → r'.status = r.status
  stops : stopped = true → r'.isFinished = true

theorem Appends.takesTokens {appended : List ℤ} (h : Appends generated appended stopped r r') :
    TakesTokens generated appended stopped r r' where
  core := core_of_untokened h.untokened
  allTokenIds := h.allTokenIds
  outputTokenIds := h.outputTokenIds
  initial := h.initial
  goesOn hst := (h.goesOn hst).2
  stops hst := (h.stops hst).2

/-- No token is appended. -/
theorem TakesTokens.nothing (generated : List ℤ) (stopped : Bool) (hcore : r'.core = r.core)
    (hall : r'.allTokenIds = r.allTokenIds) (hout : r'.outputTokenIds = r.outputTokenIds)
    (hgo : stopped = false → r'.status = r.status) (hst : stopped = true → r'.isFinished = true) :
    TakesTokens generated [] stopped r r' :=
  ⟨hcore, by rw [hall, append_nil], by rw [hout, append_nil], nil_prefix, hgo, hst⟩

theorem takeAsync_takesTokens (h : r.takeAsync cfg hasher generated = some (stopped, r')) :
    ∃ appended, TakesTokens generated appended stopped r r' := by
  unfold takeAsync at h
  split at h
  · cases h
    exact ⟨[], .nothing generated false rfl rfl rfl (fun _ => rfl) fun h => by cases h⟩
  · obtain ⟨⟨appended, st, r1⟩, hup, h⟩ := bind_eq_some_iff.mp h
    dsimp only at h
    split at h
    · cases h
    · cases h
      have htakes := (updateWithOutput_appends hup).takesTokens
      exact ⟨appended, { htakes with }⟩

theorem takeOutput_takesTokens {pooler : Bool}
    (h : r.takeOutput cfg hasher generated pooler = some (stopped, r')) :
    ∃ appended, TakesTokens generated appended stopped r r' := by
  unfold takeOutput at h
  split at h
  · split at h
    · exact takeAsync_takesTokens h
    · obtain ⟨⟨appended, st, r1⟩, hup, h⟩ := bind_eq_some_iff.mp h
      cases h
      exact ⟨appended, (updateWithOutput_appends hup).takesTokens⟩
  · split at h
    · cases h
      exact ⟨[], .nothing generated true rfl rfl rfl (fun h => by cases h) fun _ => rfl⟩
    · cases h
      exact ⟨[], .nothing generated false rfl rfl rfl (fun _ => rfl) fun h => by cases h⟩

/-- The request with more tokens. -/
def extend (r : Request) (tokens : List ℤ) : Request :=
  { r with
    outputTokenIds := r.outputTokenIds ++ tokens
    allTokenIds := r.allTokenIds ++ tokens }

/-- The request stops with an output: with its pooler output, or `check_stop` holds after one of the
tokens and they are not thrown away. -/
def StopsWith (cfg : SchedulerConfig) (generated : List ℤ) (pooler : Bool) (r : Request) : Prop :=
  (generated = [] ∧ pooler = true ∧ r.pooling = true) ∨
    (¬(cfg.asyncScheduling = true ∧ r.discardLatestAsyncTokens = true) ∧
      ∃ front ∈ generated.inits, front ≠ [] ∧
        ((r.extend front).checkStop cfg.maxModelLen).join.isSome = true)

instance (generated : List ℤ) (pooler : Bool) : Decidable (r.StopsWith cfg generated pooler) :=
  inferInstanceAs (Decidable (_ ∨ _ ∧ ∃ front ∈ _, _))

theorem updateWithOutput_stops {appended : List ℤ}
    (h : r.updateWithOutput hasher maxModelLen generated = some (appended, true, r')) :
    (r'.checkStop maxModelLen).join.isSome = true := by
  induction generated generalizing r appended with
  | nil => cases h
  | cons token generated ih =>
    simp only [updateWithOutput, bind, bind_eq_some_iff] at h
    obtain ⟨r1, -, stop, hstop, h⟩ := h
    cases stop with
    | some status =>
      cases h
      have hsame : ({ r1 with status } : Request).checkStop maxModelLen = some (some status) :=
        hstop
      rw [hsame]
      rfl
    | none =>
      obtain ⟨⟨rest, st, r2⟩, hrest, h⟩ := bind_eq_some_iff.mp h
      cases h
      exact ih hrest

/-- `check_stop` depends on the tokens and on what they do not change. -/
theorem Appends.checkStop {appended : List ℤ} (h : Appends generated appended stopped r r') :
    r'.checkStop maxModelLen = (r.extend appended).checkStop maxModelLen := by
  have htokens : ∀ r : Request, { r.untokened with
      outputTokenIds := r.outputTokenIds, allTokenIds := r.allTokenIds }.checkStop maxModelLen =
        r.checkStop maxModelLen := fun _ => rfl
  rw [← htokens, h.untokened, h.outputTokenIds, h.allTokenIds, ← htokens (r.extend appended)]
  rfl

theorem stopsWith_of_updateWithOutput {appended : List ℤ} {pooler : Bool}
    (hkept : ¬(cfg.asyncScheduling = true ∧ r.discardLatestAsyncTokens = true))
    (h : r.updateWithOutput hasher cfg.maxModelLen generated = some (appended, true, r')) :
    r.StopsWith cfg generated pooler := by
  have happ := updateWithOutput_appends h
  refine .inr ⟨hkept, appended, (mem_inits _ _).mpr happ.initial, (happ.stops rfl).1, ?_⟩
  rw [← happ.checkStop]
  exact updateWithOutput_stops h

theorem takeOutput_stopsWith {pooler : Bool}
    (h : r.takeOutput cfg hasher generated pooler = some (true, r')) :
    r.StopsWith cfg generated pooler := by
  unfold takeOutput at h
  split at h
  · split at h
    · unfold takeAsync at h
      split at h
      · cases h
      · rename_i hkept
        obtain ⟨⟨appended, st, r1⟩, hup, h⟩ := bind_eq_some_iff.mp h
        dsimp only at h
        split at h
        · cases h
        · cases h
          exact stopsWith_of_updateWithOutput (fun h => hkept h.2) hup
    · rename_i hsync
      obtain ⟨⟨appended, st, r1⟩, hup, h⟩ := bind_eq_some_iff.mp h
      cases h
      exact stopsWith_of_updateWithOutput (fun h => hsync h.1) hup
  · rename_i hnone
    split at h
    · rename_i hpool
      rw [Bool.and_eq_true] at hpool
      exact .inl ⟨not_not.mp hnone, hpool.2, hpool.1⟩
    · cases h

/-! ## The next input of a session -/

/-- A session after its next input. -/
structure Continues (update : StreamingUpdate) (r r' : Request) : Prop where
  requestId : r'.requestId = r.requestId
  priority : r'.priority = r.priority
  pooling : r'.pooling = r.pooling
  maxTokens : r'.maxTokens = r.maxTokens
  loraRequest : r'.loraRequest = r.loraRequest
  resumable : r'.resumable = r.resumable
  streamingQueue : r'.streamingQueue = r.streamingQueue
  numComputedTokens : r'.numComputedTokens = r.numComputedTokens
  allTokenIds : r'.allTokenIds = r.keptTokens ++ update.promptTokenIds
  outputTokenIds : r'.outputTokenIds = []
  promptTokenIds : r'.promptTokenIds =
    r.promptTokenIds ++ r.keptTokens.drop r.numPromptTokens ++ update.promptTokenIds
  arrivalTime : r'.arrivalTime = update.arrivalTime
  samplingParams : r'.samplingParams = update.samplingParams
  status : r'.status = .waiting

theorem updateAsSession_continues {update : StreamingUpdate}
    (h : r.updateAsSession hasher update = some r') : Continues update r r' := by
  obtain ⟨r1, hr1, h⟩ := bind_eq_some_iff.mp h
  cases h
  obtain ⟨hs, -, hr1⟩ := bind_eq_some_iff.mp hr1
  cases hr1
  exact ⟨rfl, rfl, rfl, rfl, rfl, rfl, rfl, rfl, rfl, rfl, rfl, rfl, rfl, rfl⟩

/-- Only resumable requests are inputs of a session. -/
theorem toStreamingUpdate_eq_some {update : StreamingUpdate}
    (h : r.toStreamingUpdate = some update) :
    r.resumable = true ∧ update.promptTokenIds = r.promptTokenIds ∧
      update.arrivalTime = r.arrivalTime ∧ update.samplingParams = r.samplingParams := by
  unfold toStreamingUpdate at h
  split at h
  · rename_i hres
    cases h
    exact ⟨hres, rfl, rfl, rfl⟩
  · cases h

end Nvllm.Sched.Request
