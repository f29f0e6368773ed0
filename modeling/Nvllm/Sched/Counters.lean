import Nvllm.Sched.Flights

/-! # Computed tokens and tokens in flight

A step that reaches the last known token of a request samples a token after it, so its output is due
while it is in flight. `Even r due` relates the number of computed tokens of a request to its number
of tokens and to the number of tokens that are due. Scheduling (`Deals.even`) and outputs
(`Even.take`) keep it, with and without async scheduling; the difference is that only async
scheduling counts what is due in `num_output_placeholders`.
-/

namespace Nvllm.Sched

open Nvllm.KVCache List

/-! ## What is due -/

/-- The tokens that a step brings to a request at most: one and its drafts, unless the step is a
prefill chunk. -/
def expects (f : Flight) (id : RequestId) (v : Ref) : ℤ :=
  if f.2.requests.get? id = some v ∧ (f.2.req v).isPrefillChunk = false ∧
      (f.1.numScheduledTokens.get? id).isSome = true then
    1 + (f.1.scheduledSpecDecodeTokens.getD id []).length
  else 0

theorem expects_nonneg (f : Flight) (id : RequestId) (v : Ref) : 0 ≤ expects f id v := by
  unfold expects
  split <;> omega

variable {f : Flight} {id : RequestId} {v : Ref}

theorem expects_of_none (h : f.1.numScheduledTokens.get? id = none) : expects f id v = 0 := by
  refine if_neg fun hif => ?_
  have hsome := hif.2.2
  rw [h] at hsome
  cases hsome

theorem expects_of_chunk (h : (f.2.req v).isPrefillChunk = true) : expects f id v = 0 := by
  refine if_neg fun hif => ?_
  have hfalse := hif.2.1
  rw [h] at hfalse
  cases hfalse

theorem expects_of_some {n : ℤ} (hv : f.2.requests.get? id = some v)
    (hchunk : (f.2.req v).isPrefillChunk = false) (hn : f.1.numScheduledTokens.get? id = some n) :
    expects f id v = 1 + (f.1.scheduledSpecDecodeTokens.getD id []).length :=
  if_pos ⟨hv, hchunk, by rw [hn]; rfl⟩

namespace Engine

/-- The tokens that the steps in flight will bring to a request. -/
def expected (e : Engine) (id : RequestId) (v : Ref) : ℤ :=
  (e.flights.map fun f => expects f id v).sum

theorem expected_nonneg (e : Engine) (id : RequestId) (v : Ref) : 0 ≤ e.expected id v := by
  apply sum_nonneg
  intro x hx
  obtain ⟨f, -, rfl⟩ := mem_map.mp hx
  exact expects_nonneg f id v

variable {e : Engine} {f : Flight}

theorem expected_of_cons {e' : Engine} (h : e.flights = f :: e'.flights) (id : RequestId)
    (v : Ref) : e.expected id v = expects f id v + e'.expected id v := by
  rw [expected, h, map_cons, sum_cons, expected]

theorem expected_of_concat {e' : Engine} (h : e'.flights = e.flights ++ [f]) (id : RequestId)
    (v : Ref) : e'.expected id v = e.expected id v + expects f id v := by
  rw [expected, h, map_append, sum_append, map_singleton, sum_singleton,
    expected]

theorem expected_eq_zero {id : RequestId} {v : Ref}
    (h : ∀ f ∈ e.flights, expects f id v = 0) : e.expected id v = 0 := by
  rw [expected, map_congr_left h]
  simp

/-- What the workers may report for the oldest step in flight: a step that leaves known tokens
uncomputed samples nothing, another one samples a token after the drafts that are accepted. -/
def MayReport (e : Engine) (m : ModelRunnerOutput) : Prop :=
  ∀ f ∈ e.flights.head?, ∀ en ∈ f.1.numScheduledTokens.entries, ∀ v ∈ f.2.requests.get? en.1,
    if (f.2.req v).isPrefillChunk then m.sampledTokenIds en.1 = []
    else if (f.2.req v).pooling then m.sampledTokenIds en.1 = [] ∧ m.poolerOutput en.1 = true
    else m.sampledTokenIds en.1 ≠ [] ∧ (m.sampledTokenIds en.1).length ≤
      1 + (f.1.scheduledSpecDecodeTokens.getD en.1 []).length

instance (e : Engine) (m : ModelRunnerOutput) : Decidable (e.MayReport m) :=
  inferInstanceAs (Decidable (∀ f ∈ e.flights.head?, ∀ en ∈ f.1.numScheduledTokens.entries,
    ∀ v ∈ f.2.requests.get? en.1, _))

/-- What the oldest step brings to a request. -/
inductive Brings (m : ModelRunnerOutput) (f : Flight) (id : RequestId) (v : Ref) : Prop
  | chunk : (f.2.req v).isPrefillChunk = true → m.sampledTokenIds id = [] → Brings m f id v
  | pooled : (f.2.req v).isPrefillChunk = false → (f.2.req v).pooling = true →
      m.sampledTokenIds id = [] → m.poolerOutput id = true → Brings m f id v
  | sampled : (f.2.req v).isPrefillChunk = false → (f.2.req v).pooling = false →
      m.sampledTokenIds id ≠ [] → (m.sampledTokenIds id).length ≤
        1 + (f.1.scheduledSpecDecodeTokens.getD id []).length → Brings m f id v

theorem MayReport.brings {m : ModelRunnerOutput} {rest : List Flight} {n : ℤ} {id : RequestId}
    {v : Ref} (h : e.MayReport m) (hfl : e.flights = f :: rest)
    (hn : f.1.numScheduledTokens.get? id = some n) (hv : f.2.requests.get? id = some v) :
    Brings m f id v := by
  have hhead : f ∈ e.flights.head? := by
    rw [hfl]
    rfl
  have hsampled := h f hhead (id, n) (Dict.mem_of_get? hn) v hv
  split at hsampled
  · exact .chunk ‹_› hsampled
  · rename_i hchunk
    rw [Bool.not_eq_true] at hchunk
    split at hsampled
    · exact .pooled hchunk ‹_› hsampled.1 hsampled.2
    · rename_i hpool
      exact .sampled hchunk (Bool.eq_false_of_not_eq_true hpool) hsampled.1 hsampled.2

end Engine

/-! ## One request -/

/-- A running request is computed up to the tokens that are known and due. After a step that is no
prefill chunk only the last one of them is missing. -/
structure Even (r : Request) (due : ℤ) : Prop where
  nonneg : 0 ≤ due
  waiting : r.status ≠ .running → 0 ≤ r.numComputedTokens
  nonempty : r.status = .running → 1 ≤ r.numTokens
  computed_le : r.status = .running → r.numComputedTokens ≤ r.numTokens + due
  computed : r.status = .running → r.isPrefillChunk = false →
    r.numComputedTokens - due = r.numTokens - 1

namespace Scheduler

variable {cfg : SchedulerConfig} {out : SchedulerOutput} {r r' : Request} {due : ℤ}

/-- A request that runs is scheduled up to its last token, or to the end of its drafts. -/
theorem even_of_settle {n : ℤ} {numDrafts : ℕ} (hnonneg : 0 ≤ due)
    (hdue : r.numOutputPlaceholders = due) (hrun : r.status = .running)
    (hnonempty : 1 ≤ r.numTokens)
    (hdrafts : ¬ r.numComputedTokens + n < r.numTokens + due →
      (numDrafts : ℤ) = n + r.numComputedTokens - r.numTokens - due) :
    Even (r.settle cfg n numDrafts) (due +
      if (r.settle cfg n numDrafts).isPrefillChunk = false then 1 + (numDrafts : ℤ) else 0) := by
  have hcomp := Request.settle_numComputedTokens cfg n numDrafts r
  have htokens := Request.settle_numTokens cfg n numDrafts r
  have hstatus := (Request.settle_status cfg n numDrafts r).trans hrun
  have hflag : (r.settle cfg n numDrafts).isPrefillChunk =
      decide (r.numComputedTokens + n < r.numTokens + due) := by
    rw [Request.settle_isPrefillChunk, ← hdue]
  by_cases hchunk : r.numComputedTokens + n < r.numTokens + due
  · rw [decide_eq_true hchunk] at hflag
    refine ⟨by omega, fun h => absurd hstatus h, fun _ => by omega, fun _ => by omega,
      fun _ h => ?_⟩
    rw [hflag] at h
    cases h
  · rw [decide_eq_false hchunk] at hflag
    rw [hflag, if_pos rfl]
    exact ⟨by omega, fun h => absurd hstatus h, fun _ => by omega, fun _ => by omega,
      fun _ _ => by omega⟩

theorem even_of_running {n : ℤ} (hr : Even r due) (hdue : r.numOutputPlaceholders = due)
    (hrun : r.status = .running) (hn : Pass.RunningTokens cfg r n)
    (hr' : r' = r.withoutDrafts.settle cfg n (Pass.draftsAmong r n).length) :
    Even r' (due + if r'.isPrefillChunk = false then 1 + ((Pass.draftsAmong r n).length : ℤ)
      else 0) := by
  rw [hr']
  refine even_of_settle hr.nonneg hdue hrun (hr.nonempty hrun) fun hchunk => ?_
  -- all tokens and all drafts up to the end of the step are scheduled
  replace hchunk : ¬ r.numComputedTokens + n < r.numTokens + due := hchunk
  show _ = n + r.numComputedTokens - r.numTokens - due
  have hle := hr.computed_le hrun
  have hroom := hn.le
  unfold Pass.room at hroom
  rw [Pass.draftsAmong, length_take]
  have hspec : (r.numTokensWithSpec : ℤ) = r.numTokens + r.specTokenIds.length := by
    unfold Request.numTokensWithSpec Request.numTokens
    omega
  omega

/-- A request that enters is scheduled up to its last token at most. -/
theorem even_of_entered {n c : ℤ} (hr : Even r due) (hdue : r.numOutputPlaceholders = due)
    (hrun : r.status ≠ .running) (hn : Pass.EnterTokens r n c)
    (hr' : r' = (r.placed .running c).settle cfg n 0) :
    Even r' (due + if r'.isPrefillChunk = false then 1 else 0) := by
  have hnonneg := hr.nonneg
  have hpos := hn.pos
  have hle := hn.le
  have hc : 0 ≤ c := by
    have hwait := hr.waiting hrun
    rcases hn.computed with ⟨-, hc⟩ | hc
    · exact hc
    · omega
  rw [hr']
  refine even_of_settle (r := r.placed .running c) hnonneg hdue rfl ?_ fun hchunk => ?_
  · show 1 ≤ r.numTokens
    omega
  · replace hchunk : ¬ c + n < r.numTokens + due := hchunk
    show ((0 : ℕ) : ℤ) = n + c - r.numTokens - due
    omega

theorem Deals.ne_running {status : RequestStatus} (h : status.mayEnter = true) :
    status ≠ .running := by
  rintro rfl
  cases h

/-- **Scheduling keeps requests even**, if what is due is counted when the request is scheduled. -/
theorem Deals.even (hr : Even r due)
    (hdue : (out.numScheduledTokens.get? r.requestId).isSome = true →
      r.numOutputPlaceholders = due) (h : Deals cfg out r r') :
    Even r' (due + if r'.isPrefillChunk = false ∧
      (out.numScheduledTokens.get? r.requestId).isSome = true then
        1 + ((out.scheduledSpecDecodeTokens.getD r.requestId []).length : ℤ) else 0) := by
  cases h with
  | left status hn hstatus hr' =>
    rw [hn, if_neg (by simp), Int.add_zero, hr']
    rcases hstatus with rfl | ⟨hgrammar, rfl⟩
    · exact hr
    · have hwait := hr.waiting (by rw [hgrammar]; decide)
      exact ⟨hr.nonneg, fun _ => hwait, by rintro ⟨⟩, by rintro ⟨⟩, by rintro ⟨⟩⟩
  | preempted hn _ hr' =>
    rw [hn, if_neg (by simp), Int.add_zero, hr']
    exact ⟨hr.nonneg, fun _ => Int.le_refl 0, by rintro ⟨⟩, by rintro ⟨⟩, by rintro ⟨⟩⟩
  | running n hn hd hrun hroom hr' =>
    rw [hn] at hdue
    rw [hn, hd]
    simpa using even_of_running hr (hdue rfl) hrun hroom hr'
  | entered n c hn hd henter hroom hr' =>
    rw [hn] at hdue
    rw [hn, hd]
    simpa using even_of_entered hr (hdue rfl) (Deals.ne_running henter) hroom hr'

/-- Async scheduling counts what is due. -/
theorem Deals.placeholders (h : Deals cfg out r r') :
    r'.numOutputPlaceholders = r.numOutputPlaceholders +
      if cfg.asyncScheduling = true ∧ r'.isPrefillChunk = false ∧
        (out.numScheduledTokens.get? r.requestId).isSome = true then
        1 + ((out.scheduledSpecDecodeTokens.getD r.requestId []).length : ℤ) else 0 := by
  cases h with
  | left status hn _ hr' =>
    rw [hn, hr']
    simp
  | preempted hn _ hr' =>
    rw [hn, hr']
    simp [Request.preempted]
  | running n hn hd _ _ hr' =>
    rw [hn, hd, hr', Request.settle_numOutputPlaceholders]
    simp [Request.withoutDrafts]
  | entered n c hn hd _ _ hr' =>
    rw [hn, hd, hr', Request.settle_numOutputPlaceholders]
    simp [Request.placed]

theorem Deals.discardLatestAsyncTokens (h : Deals cfg out r r') :
    r'.discardLatestAsyncTokens = r.discardLatestAsyncTokens := by
  cases h with
  | left status _ _ hr' => rw [hr']
  | preempted _ _ hr' => rw [hr']; rfl
  | running n _ _ _ _ hr' | entered n c _ _ _ _ hr' =>
    rw [hr', Request.settle_discardLatestAsyncTokens]; rfl

end Scheduler

/-! ## Outputs -/

namespace Request

variable {cfg : SchedulerConfig} {hasher : Request → Option (List Bytes)} {r r' : Request}
  {out : SchedulerOutput} {m : ModelRunnerOutput} {drafts generated : List ℤ} {stopped : Bool}

theorem rejectDrafts_nil (drafts : List ℤ) : r.rejectDrafts drafts [] = r :=
  if_neg fun h => h.2 rfl

/-- A field that rejected drafts do not change. -/
theorem rejectDrafts_field {α : Type} (f : Request → α) (hf : ∀ (r : Request) (c p : ℤ),
      f { r with numComputedTokens := c, numOutputPlaceholders := p } = f r)
    (drafts generated : List ℤ) : f (r.rejectDrafts drafts generated) = f r := by
  unfold rejectDrafts
  split
  · exact hf r _ _
  · rfl

theorem rejectDrafts_numComputedTokens (hg : generated ≠ [])
    (hlen : generated.length ≤ 1 + drafts.length) :
    (r.rejectDrafts drafts generated).numComputedTokens = if 0 < r.numComputedTokens then
      r.numComputedTokens - (1 + drafts.length - generated.length) else r.numComputedTokens := by
  have hpos : 0 < generated.length := length_pos_of_ne_nil hg
  unfold rejectDrafts
  by_cases hd : drafts = []
  · rw [if_neg fun h => h.1 hd]
    have hzero : drafts.length = 0 := by rw [hd]; rfl
    split <;> omega
  · rw [if_pos ⟨hd, hg⟩]
    dsimp only
    split <;> omega

theorem rejectDrafts_numOutputPlaceholders (hg : generated ≠ [])
    (hlen : generated.length ≤ 1 + drafts.length)
    (hp : 1 + (drafts.length : ℤ) ≤ r.numOutputPlaceholders) :
    (r.rejectDrafts drafts generated).numOutputPlaceholders =
      r.numOutputPlaceholders - (1 + drafts.length - generated.length) := by
  have hpos : 0 < generated.length := length_pos_of_ne_nil hg
  unfold rejectDrafts
  by_cases hd : drafts = []
  · rw [if_neg fun h => h.1 hd]
    have hzero : drafts.length = 0 := by rw [hd]; rfl
    omega
  · rw [if_pos ⟨hd, hg⟩]
    dsimp only
    omega

/-- What the tokens of a step do to the tokens of a request and to the computed ones. -/
structure Counts (drafts generated appended : List ℤ) (r r1 : Request) : Prop where
  length_le : appended.length ≤ generated.length
  numTokens : r1.numTokens = r.numTokens + appended.length
  numComputedTokens : r1.numComputedTokens = if 0 < r.numComputedTokens then
    r.numComputedTokens - (1 + drafts.length - generated.length) else r.numComputedTokens
  isPrefillChunk : r1.isPrefillChunk = r.isPrefillChunk

/-- A field that neither rejected drafts nor tokens change. -/
theorem field_of_update {α : Type} (f : Request → α) (hun : ∀ r : Request, f r.untokened = f r)
    (hf : ∀ (r : Request) (c p : ℤ),
      f { r with numComputedTokens := c, numOutputPlaceholders := p } = f r)
    {appended : List ℤ} {maxModelLen : ℕ} {r1 : Request}
    (h : (r.rejectDrafts drafts generated).updateWithOutput hasher maxModelLen generated =
      some (appended, stopped, r1)) : f r1 = f r := by
  rw [← hun r1, (updateWithOutput_appends h).untokened, hun]
  exact rejectDrafts_field f hf _ _

theorem counts_of_update (hg : generated ≠ []) (hlen : generated.length ≤ 1 + drafts.length)
    {appended : List ℤ} {maxModelLen : ℕ} {r1 : Request}
    (h : (r.rejectDrafts drafts generated).updateWithOutput hasher maxModelLen generated =
      some (appended, stopped, r1)) : Counts drafts generated appended r r1 := by
  have happ := updateWithOutput_appends h
  refine ⟨happ.initial.length_le, ?_, ?_, field_of_update _ (fun _ => rfl) (fun _ _ _ => rfl) h⟩
  · rw [numTokens, happ.allTokenIds, (rejectDrafts_tokens drafts generated r).1,
      length_append]
    rfl
  · have hsame := congrArg Request.numComputedTokens happ.untokened
    exact hsame.trans (rejectDrafts_numComputedTokens hg hlen)

/-- An output without tokens. -/
theorem take_nil (hg : m.sampledTokenIds r.requestId = [])
    (h : r.take cfg hasher out m = some (stopped, r')) :
    (r.pooling && m.poolerOutput r.requestId) = stopped ∧ (stopped = false → r' = r) := by
  simp only [take, hg, rejectDrafts_nil, takeOutput, ne_eq, not_true, if_false] at h
  split at h
  · rename_i hpool
    cases h
    exact ⟨hpool, by rintro ⟨⟩⟩
  · rename_i hpool
    cases h
    exact ⟨Bool.eq_false_of_not_eq_true hpool, fun _ => rfl⟩

/-- An output with tokens that are not to be discarded. -/
theorem take_cons (hkept : cfg.asyncScheduling = true → r.discardLatestAsyncTokens = false)
    (hg : m.sampledTokenIds r.requestId ≠ []) (h : r.take cfg hasher out m = some (stopped, r')) :
    ∃ appended r1, (r.rejectDrafts (out.scheduledSpecDecodeTokens.getD r.requestId [])
        (m.sampledTokenIds r.requestId)).updateWithOutput hasher cfg.maxModelLen
        (m.sampledTokenIds r.requestId) = some (appended, stopped, r1) ∧
      r' = { r1 with numOutputPlaceholders := r1.numOutputPlaceholders -
        if cfg.asyncScheduling = true then (appended.length : ℤ) else 0 } ∧
      (cfg.asyncScheduling = true → 0 ≤ r'.numOutputPlaceholders) := by
  rw [take, takeOutput, if_pos hg] at h
  by_cases hasync : cfg.asyncScheduling = true
  · have hsame := rejectDrafts_field (r := r) Request.discardLatestAsyncTokens (fun _ _ _ => rfl)
      (out.scheduledSpecDecodeTokens.getD r.requestId []) (m.sampledTokenIds r.requestId)
    rw [if_pos hasync, takeAsync, hsame, hkept hasync, if_neg Bool.false_ne_true] at h
    obtain ⟨⟨appended, st, r1⟩, hup, h⟩ := Option.bind_eq_some_iff.mp h
    dsimp only at h
    split at h
    · cases h
    · rename_i hneg
      cases h
      refine ⟨appended, r1, hup, ?_, fun _ => not_lt.mp hneg⟩
      rw [if_pos hasync]
  · rw [if_neg hasync] at h
    obtain ⟨⟨appended, st, r1⟩, hup, h⟩ := Option.bind_eq_some_iff.mp h
    cases h
    refine ⟨appended, r', hup, ?_, fun h => absurd h hasync⟩
    rw [if_neg hasync, Int.sub_zero]

end Request

/-- **Outputs keep requests even**: what the step brought is no longer due. -/
theorem Even.take {r r1 : Request} {due : ℤ} {drafts generated : List ℤ} (hr : Even r due)
    (hwait : r.status ≠ .running → r.numComputedTokens = 0)
    (hdue : 1 + (drafts.length : ℤ) ≤ due) (hstatus : r1.status = r.status)
    (h : Request.Counts drafts generated generated r r1) : Even r1 (due - (1 + drafts.length)) := by
  have htokens := h.numTokens
  have hcomp := h.numComputedTokens
  refine ⟨by omega, fun hst => ?_, fun hst => ?_, fun hst => ?_, fun hst hch => ?_⟩ <;>
    rw [hstatus] at hst
  · have hzero := hwait hst
    rw [hcomp, hzero, if_neg (Int.lt_irrefl 0)]
  · have hone := hr.nonempty hst
    omega
  · have hle := hr.computed_le hst
    rw [hcomp, htokens]
    split <;> omega
  · have heq := hr.computed hst (h.isPrefillChunk ▸ hch)
    have hone := hr.nonempty hst
    rw [hcomp, htokens]
    split <;> omega

/-! ## Runs -/

namespace Engine

open Scheduler

variable {cfg : SchedulerConfig} {hasher : Request → Option (List Bytes)} {e e' : Engine}
  {v : Ref} {id : RequestId} {r' : Request} {out : SchedulerOutput} {m : ModelRunnerOutput}
  {s0 : Scheduler} {n : ℤ}

/-- No step in flight has an entry for the id. -/
def Absent (e : Engine) (id : RequestId) : Prop :=
  ∀ f ∈ e.flights, f.1.numScheduledTokens.get? id = none

theorem expected_of_absent (h : e.Absent id) : e.expected id v = 0 :=
  expected_eq_zero fun f hf => expects_of_none (h f hf)

theorem Absent.concat {f : Flight} (h : e.Absent id) (hfl : e'.flights = e.flights ++ [f])
    (hn : f.1.numScheduledTokens.get? id = none) : e'.Absent id := by
  intro g hg
  rw [hfl, mem_append, mem_singleton] at hg
  rcases hg with hg | rfl
  · exact h g hg
  · exact hn

theorem not_absent (hfl : e.flights = (out, s0) :: e'.flights)
    (hn : out.numScheduledTokens.get? id = some n) : ¬e.Absent id := by
  intro h
  have hnone := h (out, s0) (hfl ▸ mem_cons_self)
  rw [show (out, s0).1.numScheduledTokens.get? id = some n from hn] at hnone
  cases hnone

/-- No step in flight is for a new request. -/
theorem Matched.absent {q : Request.EngineCoreRequest} {a : Answers} (h : e.Matched)
    (hfresh : e.Fresh (.addRequest q a)) (hnone : e.s.requests.get? q.requestId = none) :
    e.Absent q.requestId := by
  intro f hf
  refine hfresh hnone f.1 ?_
  rw [← h.tracked]
  exact mem_map_of_mem hf

/-- The counters of a request fit the steps in flight. -/
structure Counted (cfg : SchedulerConfig) (e : Engine) (id : RequestId) (v : Ref) : Prop where
  even : Even (e.s.req v) (e.expected id v)
  placeholders : (e.s.req v).numOutputPlaceholders =
    if cfg.asyncScheduling = true then e.expected id v else 0
  kept : cfg.asyncScheduling = true → (e.s.req v).discardLatestAsyncTokens = false
  calm : (e.s.req v).status ≠ .running → (e.s.req v).numComputedTokens = 0 ∨ e.Absent id

/-- The request and what is to come are the same, up to drafts and queued inputs. -/
theorem Counted.of_same (h : Counted cfg e id v)
    (hexp : e'.expected id v = e.expected id v) (hrest : ∀ f ∈ e'.flights, f ∈ e.flights)
    {l : List ℤ} {q : Option (List (Option StreamingUpdate))}
    (hr : e'.s.req v = { e.s.req v with specTokenIds := l, streamingQueue := q }) :
    Counted cfg e' id v := by
  have heven := h.even
  refine ⟨?_, ?_, ?_, ?_⟩ <;> rw [hr]
  · rw [hexp]
    exact { heven with }
  · rw [hexp]
    exact h.placeholders
  · exact h.kept
  · exact fun hst => (h.calm hst).imp_right fun habs f hf => habs f (hrest f hf)

/-- A request without steps in flight that does not run. -/
theorem Counted.of_absent (habsent : e.Absent id) (hrun : (e.s.req v).status ≠ .running)
    (hcomp : 0 ≤ (e.s.req v).numComputedTokens) (hplace : (e.s.req v).numOutputPlaceholders = 0)
    (hkept : cfg.asyncScheduling = true → (e.s.req v).discardLatestAsyncTokens = false) :
    Counted cfg e id v where
  even := by
    rw [expected_of_absent habsent]
    exact ⟨Int.le_refl 0, fun _ => hcomp, fun h => absurd h hrun, fun h => absurd h hrun,
      fun h => absurd h hrun⟩
  placeholders := by
    rw [hplace, expected_of_absent habsent, ite_self]
  kept := hkept
  calm _ := .inr habsent

theorem Counted.arrives {q : Request.EngineCoreRequest} (habsent : e.Absent id)
    (harr : Request.Arrives q (e.s.req v)) : Counted cfg e id v := by
  have hrun : (e.s.req v).status ≠ .running := by
    rcases harr.status with hst | hst <;> rw [hst] <;> decide
  exact .of_absent habsent hrun harr.numComputedTokens.ge harr.numOutputPlaceholders
    fun _ => harr.discardLatestAsyncTokens

theorem Counted.scheduled (h : Counted cfg e id v)
    (hfl : e'.flights = e.flights ++ [(out, e'.s)]) (hid : (e.s.req v).requestId = id)
    (hv' : e'.s.requests.get? id = some v)
    (hdue : (out.numScheduledTokens.get? id).isSome = true →
      (e.s.req v).numOutputPlaceholders = e.expected id v)
    (hdeals : Deals cfg out (e.s.req v) (e'.s.req v)) : Counted cfg e' id v := by
  subst hid
  have hexp := expected_of_concat hfl (e.s.req v).requestId v
  simp only [expects, hv', true_and] at hexp
  refine ⟨?_, ?_, fun hasync => hdeals.discardLatestAsyncTokens.trans (h.kept hasync),
    fun hst => ?_⟩
  · rw [hexp]
    exact hdeals.even h.even hdue
  · rw [hdeals.placeholders, h.placeholders, hexp]
    by_cases hasync : cfg.asyncScheduling = true
    · simp only [hasync, true_and, if_true]
    · simp only [hasync, false_and, if_false, Bool.false_eq_true, Int.add_zero]
  · cases hdeals with
    | left status hn hstatus hr' =>
      rw [hr'] at hst ⊢
      have hrun : (e.s.req v).status ≠ .running := by
        rcases hstatus with rfl | ⟨hgrammar, -⟩
        · exact hst
        · rw [hgrammar]
          decide
      exact (h.calm hrun).imp_right fun habs => habs.concat hfl hn
    | preempted _ _ hr' => exact .inl (by rw [hr']; rfl)
    | running n _ _ hrun _ hr' =>
      rw [hr', Request.settle_status] at hst
      exact absurd hrun hst
    | entered n c _ _ _ _ hr' =>
      rw [hr', Request.settle_status] at hst
      exact absurd rfl hst

/-- The oldest step lands and brings nothing. -/
theorem Counted.of_unchanged (h : Counted cfg e id v) {f : Flight}
    (hfl : e.flights = f :: e'.flights) (hzero : expects f id v = 0)
    (hr : e'.s.req v = e.s.req v) : Counted cfg e' id v := by
  refine h.of_same ?_ (fun g hg => ?_) hr
  · rw [expected_of_cons hfl, hzero, Int.zero_add]
  · rw [hfl]
    exact mem_cons_of_mem _ hg

/-- The oldest step in flight samples for the request. -/
structure Due (e e' : Engine) (out : SchedulerOutput) (m : ModelRunnerOutput) (id : RequestId)
    (v : Ref) (s0 : Scheduler) : Prop where
  flights : e.flights = (out, s0) :: e'.flights
  requestId : (e.s.req v).requestId = id
  brings : expects (out, s0) id v = 1 + (out.scheduledSpecDecodeTokens.getD id []).length
  chunk : (s0.req v).isPrefillChunk = false
  entry : (out.numScheduledTokens.get? id).isSome = true
  generated : m.sampledTokenIds id ≠ []
  length_le : (m.sampledTokenIds id).length ≤
    1 + (out.scheduledSpecDecodeTokens.getD id []).length

/-- What the oldest step in flight brings to a request that it has an entry for. -/
theorem Matched.due (hm : e.Matched) (hreport : e.MayReport m)
    (hfl : e.flights = (out, s0) :: e'.flights) (hv : e.s.requests.get? id = some v)
    (hlive : (e.s.req v).isFinished = false) (hn : out.numScheduledTokens.get? id = some n) :
    m.sampledTokenIds id = [] ∧ (expects (out, s0) id v = 0 ∨
      ((e.s.req v).pooling && m.poolerOutput id) = true) ∨ Due e e' out m id v s0 := by
  have hmem : (out, s0) ∈ e.flights := by
    rw [hfl]
    exact mem_cons_self
  have hget := hm.same (out, s0) hmem id n v hn hv
  cases hreport.brings hfl hn hget with
  | chunk hchunk hnil => exact .inl ⟨hnil, .inl (expects_of_chunk hchunk)⟩
  | pooled _ hpooling hnil hpooler =>
    have hpool := (hm.pooling (out, s0) hmem id v hget hv hlive).symm.trans hpooling
    exact .inl ⟨hnil, .inr (by rw [hpool, hpooler]; rfl)⟩
  | sampled hchunk _ hg hlen =>
    exact .inr ⟨hfl, hm.orderly.known id v hv, expects_of_some (f := (out, s0)) hget hchunk hn,
      hchunk, by rw [hn]; rfl, hg, hlen⟩

/-- A request after all tokens of an output. -/
structure Taken (cfg : SchedulerConfig) (e' : Engine) (id : RequestId) (v : Ref)
    (drafts generated : List ℤ) (r r' : Request) : Prop where
  counts : Request.Counts drafts generated generated r r'
  placeholders : r'.numOutputPlaceholders =
    if cfg.asyncScheduling = true then e'.expected id v else 0
  kept : cfg.asyncScheduling = true → r'.discardLatestAsyncTokens = false
  promptTokenIds : r'.promptTokenIds = r.promptTokenIds
  allTokenIds : r'.allTokenIds = r.allTokenIds ++ generated
  outputTokenIds : r'.outputTokenIds = r.outputTokenIds ++ generated

theorem Counted.taken (h : Counted cfg e id v) (hdue : Due e e' out m id v s0) {stopped : Bool}
    (htake : (e.s.req v).take cfg hasher out m = some (stopped, r'))
    (hall : ∀ appended r1, ((e.s.req v).rejectDrafts (out.scheduledSpecDecodeTokens.getD id [])
      (m.sampledTokenIds id)).updateWithOutput hasher cfg.maxModelLen (m.sampledTokenIds id) =
        some (appended, stopped, r1) → appended = m.sampledTokenIds id) :
    Taken cfg e' id v (out.scheduledSpecDecodeTokens.getD id []) (m.sampledTokenIds id)
      (e.s.req v) r' := by
  have hid := hdue.requestId
  have hg := hdue.generated
  have hlen := hdue.length_le
  obtain ⟨appended, r1, hup, rfl, -⟩ := Request.take_cons h.kept (hid ▸ hg) htake
  rw [hid] at hup
  obtain rfl := hall appended r1 hup
  have hcounts := Request.counts_of_update hg hlen hup
  have happ := Request.updateWithOutput_appends hup
  obtain ⟨htok, hout⟩ := Request.rejectDrafts_tokens (out.scheduledSpecDecodeTokens.getD id [])
    (m.sampledTokenIds id) (e.s.req v)
  have hplace := h.placeholders
  have hsame := congrArg Request.numOutputPlaceholders happ.untokened
  replace hsame : r1.numOutputPlaceholders = ((e.s.req v).rejectDrafts
    (out.scheduledSpecDecodeTokens.getD id [])
      (m.sampledTokenIds id)).numOutputPlaceholders := hsame
  have hprompt : r1.promptTokenIds = (e.s.req v).promptTokenIds :=
    Request.field_of_update _ (fun _ => rfl) (fun _ _ _ => rfl) hup
  refine ⟨{ hcounts with }, ?_, fun hasync => ?_, hprompt, happ.allTokenIds.trans (by rw [htok]),
    happ.outputTokenIds.trans (by rw [hout])⟩
  · show r1.numOutputPlaceholders - _ = _
    by_cases hasync : cfg.asyncScheduling = true
    · rw [if_pos hasync] at hplace
      rw [if_pos hasync, if_pos hasync]
      have hrest := expected_nonneg e' id v
      have hsum := expected_of_cons hdue.flights id v
      have hexp := hdue.brings
      have hp := Request.rejectDrafts_numOutputPlaceholders (r := e.s.req v) hg hlen (by omega)
      omega
    · rw [if_neg hasync] at hplace
      rw [if_neg hasync, if_neg hasync, Int.sub_zero, hsame]
      unfold Request.rejectDrafts
      split
      · dsimp only
        rw [hplace, if_neg (Int.lt_irrefl 0)]
      · exact hplace
  · exact (Request.field_of_update _ (fun _ => rfl) (fun _ _ _ => rfl) hup).trans (h.kept hasync)

/-- The oldest step lands, and the request goes on: as it is, or with all tokens of the output. -/
theorem Counted.goesOn (h : Counted cfg e id v) (hm : e.Matched) (hreport : e.MayReport m)
    (hfl : e.flights = (out, s0) :: e'.flights) (hv : e.s.requests.get? id = some v)
    (hlive : (e.s.req v).isFinished = false) (hn : out.numScheduledTokens.get? id = some n)
    (htake : (e.s.req v).take cfg hasher out m = some (false, e'.s.req v)) :
    (expects (out, s0) id v = 0 ∧ e'.s.req v = e.s.req v) ∨
      ((e'.s.req v).status = (e.s.req v).status ∧
        Taken cfg e' id v (out.scheduledSpecDecodeTokens.getD id []) (m.sampledTokenIds id)
          (e.s.req v) (e'.s.req v) ∧ Counted cfg e' id v) := by
  rcases hm.due hreport hfl hv hlive hn with ⟨hnil, hzero⟩ | hdue
  · have hid := hm.orderly.known id v hv
    obtain ⟨hstop, hr⟩ := Request.take_nil (hid ▸ hnil) htake
    rw [hid] at hstop
    refine .inl ⟨hzero.resolve_right fun hpool => ?_, hr rfl⟩
    -- a pooling request stops
    rw [hpool] at hstop
    cases hstop
  · have ht := h.taken hdue htake fun appended r1 hup =>
      ((Request.updateWithOutput_appends hup).goesOn rfl).1
    obtain ⟨appended, htakes⟩ := Request.takeOutput_takesTokens htake
    have hstatus : (e'.s.req v).status = (e.s.req v).status :=
      (htakes.goesOn rfl).trans (rejectDrafts_status _ _ _)
    have hwait : (e.s.req v).status ≠ .running → (e.s.req v).numComputedTokens = 0 :=
      fun hst => (h.calm hst).resolve_right (not_absent hfl hn)
    have hsum := expected_of_cons hfl id v
    rw [hdue.brings] at hsum
    have hpos := expected_nonneg e' id v
    have heven := h.even.take hwait (by omega) hstatus ht.counts
    refine .inr ⟨hstatus, ht, ?_, ht.placeholders, ht.kept, fun hst => .inl ?_⟩
    · have hleft : e.expected id v - (1 + (out.scheduledSpecDecodeTokens.getD id []).length) =
          e'.expected id v := by omega
      rwa [hleft] at heven
    · rw [ht.counts.numComputedTokens, hwait (hstatus ▸ hst), if_neg (Int.lt_irrefl 0)]

end Engine

end Nvllm.Sched
