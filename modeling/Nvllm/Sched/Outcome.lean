import Nvllm.Sched.Deals

/-! # What `schedule` does to each request

The end of a pass counts the scheduled tokens as computed (and, with async scheduling, adds
placeholders for the tokens that are expected). With the books of the pass this gives one statement
about `schedule` without KV connector: what becomes of each registered request, what the output says
about it, and that the queues stay in order (`schedule_schedules`).
-/

namespace Nvllm.Sched

open Nvllm.KVCache List Option

/-- `_update_after_schedule` for a request with `n` tokens, of which some are drafts. -/
def Request.settle (cfg : SchedulerConfig) (n : ℤ) (numDrafts : ℕ) (r : Request) : Request :=
  if cfg.asyncScheduling then (r.advance n).expect numDrafts cfg.numSpecTokens else r.advance n

namespace Request

variable (cfg : SchedulerConfig) (n : ℤ) (numDrafts : ℕ) (r : Request)

@[simp] theorem settle_numComputedTokens :
    (r.settle cfg n numDrafts).numComputedTokens = r.numComputedTokens + n := by
  unfold settle expect
  split
  · split <;> rfl
  · rfl

@[simp] theorem settle_isPrefillChunk : (r.settle cfg n numDrafts).isPrefillChunk =
    decide (r.numComputedTokens + n < r.numTokens + r.numOutputPlaceholders) := by
  unfold settle expect
  split
  · split <;> rfl
  · rfl

@[simp] theorem settle_status : (r.settle cfg n numDrafts).status = r.status := by
  unfold settle expect
  split
  · split <;> rfl
  · rfl

@[simp] theorem settle_discardLatestAsyncTokens :
    (r.settle cfg n numDrafts).discardLatestAsyncTokens = r.discardLatestAsyncTokens := by
  unfold settle expect
  split
  · split <;> rfl
  · rfl

theorem settle_fixed : (r.settle cfg n numDrafts).fixed = r.fixed := by
  unfold settle expect
  split
  · split <;> rfl
  · rfl

@[simp] theorem settle_numTokens : (r.settle cfg n numDrafts).numTokens = r.numTokens := by
  have hall := congrArg Request.numTokens (settle_fixed cfg n numDrafts r)
  exact hall

/-- Async scheduling expects the tokens of the step. -/
theorem settle_numOutputPlaceholders : (r.settle cfg n numDrafts).numOutputPlaceholders =
    r.numOutputPlaceholders + if cfg.asyncScheduling = true ∧
      (r.settle cfg n numDrafts).isPrefillChunk = false then 1 + (numDrafts : ℤ) else 0 := by
  rw [settle_isPrefillChunk, settle]
  split
  · rename_i hasync
    rw [expect]
    split
    · rename_i hchunk
      replace hchunk : decide (r.numComputedTokens + n < r.numTokens + r.numOutputPlaceholders) =
        true := hchunk
      rw [hchunk, if_neg (fun h => Bool.noConfusion h.2)]
      exact (Int.add_zero _).symm
    · rename_i hchunk
      replace hchunk : decide (r.numComputedTokens + n < r.numTokens + r.numOutputPlaceholders) =
        false := Bool.eq_false_of_not_eq_true hchunk
      rw [hchunk, if_pos ⟨hasync, rfl⟩]
      show r.numOutputPlaceholders + 1 + numDrafts = _
      omega
  · rename_i hsync
    rw [if_neg fun h => hsync h.1]
    exact (Int.add_zero _).symm

end Request

namespace Scheduler

variable {cfg : SchedulerConfig} {a : Answers} {s s' s'' : Scheduler} {v : Ref}
  {out : SchedulerOutput}

/-! ## The loops after the pass -/

/-- The registered requests with an entry are changed by `f`. -/
structure Settles (f : RequestId → ℤ → Request → Request) (es : List (RequestId × ℤ))
    (s s' : Scheduler) : Prop where
  requests : s'.requests = s.requests
  settled : ∀ v n, s.Registered v → ((s.req v).requestId, n) ∈ es →
    s'.req v = f (s.req v).requestId n (s.req v)
  others : ∀ v, (s.Registered v → ∀ n, ((s.req v).requestId, n) ∉ es) → s'.req v = s.req v

theorem Settles.nil (f : RequestId → ℤ → Request → Request) : Settles f [] s s :=
  ⟨rfl, fun _ _ _ h => absurd h not_mem_nil, fun _ _ => rfl⟩

variable {es : List (RequestId × ℤ)}

/-- One entry and then the rest. -/
theorem Settles.cons {f : RequestId → ℤ → Request → Request} {id : RequestId} {n : ℤ} (hk : s.Known)
    (hv : s.requests.get? id = some v) (hnot : id ∉ es.map Prod.fst)
    (hf : ∀ id n r, (f id n r).requestId = r.requestId)
    (h : Settles f es (s.modify v (f id n)) s') : Settles f ((id, n) :: es) s s' := by
  have hid : (s.req v).requestId = id := hk id v hv
  have hself : (s.modify v (f id n)).req v = f id n (s.req v) := req_modify_self s v _
  -- the entries of the rest belong to other requests
  have hrest : ∀ m, (id, m) ∉ es := fun m hm => hnot (mem_map.mpr ⟨_, hm, rfl⟩)
  have hvdone : s'.req v = f id n (s.req v) := by
    rw [h.others v fun _ m hm => ?_, hself]
    rw [hself, hf, hid] at hm
    exact hrest m hm
  have hother : ∀ w, w ≠ v → (s.modify v (f id n)).req w = s.req w :=
    fun w hw => req_modify_of_ne s _ hw
  refine ⟨h.requests, fun w m hw hmem => ?_, fun w hw => ?_⟩
  · by_cases hwv : w = v
    · rw [hwv, hid] at hmem ⊢
      rcases mem_cons.mp hmem with heq | hmem
      · cases heq
        exact hvdone
      · exact absurd hmem (hrest m)
    · have hne : (s.req w).requestId ≠ id := by
        intro heq
        rw [Registered, heq, hv] at hw
        exact hwv (Option.some.inj hw).symm
      have hmem' : ((s.req w).requestId, m) ∈ es := by
        rcases mem_cons.mp hmem with heq | hmem
        · exact absurd (congrArg Prod.fst heq) hne
        · exact hmem
      have hdone := h.settled w m
      rw [Registered, hother w hwv] at hdone
      exact hdone hw hmem'
  · have hwv : w ≠ v := by
      rintro rfl
      refine hw ?_ n ?_
      · rw [Registered, hid]
        exact hv
      · rw [hid]
        exact mem_cons_self
    rw [h.others w fun hreg m hm => ?_, hother w hwv]
    rw [Registered, hother w hwv] at hreg
    rw [hother w hwv] at hm
    exact hw hreg m (mem_cons_of_mem _ hm)

theorem Known.modify (hk : s.Known) {f : Request → Request}
    (hf : ∀ r, (f r).requestId = r.requestId) : (s.modify v f).Known := by
  intro id w hw
  rw [field_modify Request.requestId (hf _)]
  exact hk id w hw

theorem advance_settles (hk : s.Known) (hnodup : (es.map Prod.fst).Nodup)
    (h : advance cfg es s = some s') : Settles (fun _ => Request.advance) es s s' := by
  induction es generalizing s with
  | nil =>
    cases h
    exact .nil _
  | cons e es ih =>
    obtain ⟨id, n⟩ := e
    simp only [advance, bind, bind_eq_some_iff] at h
    obtain ⟨v, hv, s1, hs1, h⟩ := h
    obtain ⟨enc, rfl⟩ := freeEncoderInputs_spec hs1
    obtain ⟨hnot, hnodup⟩ := nodup_cons.mp hnodup
    have hk1 := hk.modify (v := v) (f := Request.advance n) fun _ => rfl
    have hrest := ih (s := { s.modify v (Request.advance n) with enc }) hk1 hnodup h
    exact .cons hk hv hnot (fun _ _ _ => rfl) { hrest with }

theorem expect_requestId (numDrafts numSpecTokens : ℕ) (r : Request) :
    (r.expect numDrafts numSpecTokens).requestId = r.requestId := by
  unfold Request.expect
  split <;> rfl

theorem addPlaceholders_settles {drafts : Dict RequestId (List ℤ)} (hk : s.Known)
    (hnodup : (es.map Prod.fst).Nodup) (h : addPlaceholders cfg drafts es s = some s') :
    Settles (fun id _ => Request.expect (drafts.getD id []).length cfg.numSpecTokens) es s s' := by
  induction es generalizing s with
  | nil =>
    cases h
    exact .nil _
  | cons e es ih =>
    obtain ⟨id, n⟩ := e
    simp only [addPlaceholders, bind, bind_eq_some_iff] at h
    obtain ⟨v, hv, h⟩ := h
    obtain ⟨hnot, hnodup⟩ := nodup_cons.mp hnodup
    have hf := expect_requestId (drafts.getD id []).length cfg.numSpecTokens
    exact .cons hk hv hnot (fun id _ => expect_requestId (drafts.getD id []).length _)
      (ih (hk.modify hf) hnodup h)

theorem updateAfterSchedule_settles {tokens : Dict RequestId ℤ} {drafts : Dict RequestId (List ℤ)}
    (hk : s.Known) (h : s.updateAfterSchedule cfg tokens drafts = some s') :
    Settles (fun id n => Request.settle cfg n (drafts.getD id []).length) tokens.entries s s' := by
  simp only [updateAfterSchedule, bind, bind_eq_some_iff] at h
  obtain ⟨s1, hs1, h⟩ := h
  have hone := advance_settles hk tokens.nodup hs1
  have hsame := (advance_spec hs1).1
  have hid : ∀ v, (s1.req v).requestId = (s.req v).requestId :=
    hsame.field Request.requestId fun _ => rfl
  have hreg : ∀ v, s1.Registered v ↔ s.Registered v := by
    intro v
    rw [Registered, Registered, hid, hone.requests]
  have hk1 : s1.Known := by
    intro id v hv
    rw [hid]
    exact hk id v (hone.requests ▸ hv)
  split at h
  · rename_i hasync
    have htwo := addPlaceholders_settles (s := { s1 with finishedReqIds := [] }) hk1 tokens.nodup h
    refine ⟨htwo.requests.trans hone.requests, fun v n hv hn => ?_, fun v hv => ?_⟩
    · have hset : s'.req v = (s1.req v).expect
          (drafts.getD (s1.req v).requestId []).length cfg.numSpecTokens :=
        htwo.settled v n ((hreg v).mpr hv) (by rw [← hid] at hn; exact hn)
      rw [hset, hid, hone.settled v n hv hn, Request.settle, if_pos hasync]
    · have hsame : s'.req v = s1.req v := by
        refine htwo.others v fun hregv n hn => ?_
        refine hv ((hreg v).mp hregv) n ?_
        rw [← hid]
        exact hn
      rw [hsame]
      exact hone.others v hv
  · rename_i hsync
    cases h
    refine ⟨hone.requests, fun v n hv hn => ?_, hone.others⟩
    rw [Request.settle, if_neg hsync]
    exact hone.settled v n hv hn

/-! ## The pass as a whole -/

/-- What `schedule` does to a registered request. -/
inductive Deals (cfg : SchedulerConfig) (out : SchedulerOutput) (r r' : Request) : Prop
  | left (status : RequestStatus) : out.numScheduledTokens.get? r.requestId = none →
      status = r.status ∨ r.status = .waitingForStructuredOutputGrammar ∧ status = .waiting →
      r' = { r with status } → Deals cfg out r r'
  | preempted : out.numScheduledTokens.get? r.requestId = none → r.status = .running →
      r' = r.preempted → Deals cfg out r r'
  | running (n : ℤ) : out.numScheduledTokens.get? r.requestId = some n →
      out.scheduledSpecDecodeTokens.getD r.requestId [] = Pass.draftsAmong r n →
      r.status = .running → Pass.RunningTokens cfg r n →
      r' = r.withoutDrafts.settle cfg n (Pass.draftsAmong r n).length → Deals cfg out r r'
  | entered (n c : ℤ) : out.numScheduledTokens.get? r.requestId = some n →
      out.scheduledSpecDecodeTokens.getD r.requestId [] = [] → r.status.mayEnter = true →
      Pass.EnterTokens r n c →
      r' = (r.placed .running c).settle cfg n 0 → Deals cfg out r r'

/-- Only the fields of scheduling change. -/
theorem Deals.fixed {r r' : Request} (h : Deals cfg out r r') : r'.fixed = r.fixed := by
  cases h with
  | left status _ _ hr => rw [hr]; rfl
  | preempted _ _ hr => rw [hr]; rfl
  | running n _ _ _ _ hr | entered n c _ _ _ _ hr => rw [hr, Request.settle_fixed]; rfl

/-- A pass leaves a session that waits for its input as it is. -/
theorem Deals.idle {r r' : Request} (h : Deals cfg out r r')
    (hst : r'.status = .waitingForStreamingReq) :
    out.numScheduledTokens.get? r.requestId = none ∧ r' = r := by
  cases h with
  | left status hn hstatus hr =>
    rw [hr] at hst ⊢
    rcases hstatus with rfl | ⟨-, rfl⟩
    · exact ⟨hn, rfl⟩
    · cases hst
  | preempted _ _ hr =>
    rw [hr] at hst
    cases hst
  | running n _ _ hrun _ hr =>
    rw [hr, Request.settle_status] at hst
    exact absurd (hrun.symm.trans hst) (by decide)
  | entered n c _ _ _ _ hr =>
    rw [hr, Request.settle_status] at hst
    cases hst

theorem Deals.live {r r' : Request} (h : Deals cfg out r r') (hlive : r'.isFinished = false) :
    r.isFinished = false := by
  cases h with
  | left status _ hstatus hr =>
    rcases hstatus with rfl | ⟨hgrammar, -⟩
    · rw [hr] at hlive
      exact hlive
    · exact congrArg RequestStatus.isFinished hgrammar
  | preempted _ hrun _ | running n _ _ hrun _ _ => exact congrArg RequestStatus.isFinished hrun
  | entered n c _ _ henter _ _ =>
    revert henter
    rw [Request.isFinished]
    cases r.status <;> first | exact fun _ => rfl | rintro ⟨⟩

structure Schedules (cfg : SchedulerConfig) (out : SchedulerOutput) (s s' : Scheduler) : Prop where
  same : s.SameRequests s'
  orderly : s'.Orderly
  deals : ∀ v, s.Registered v → Deals cfg out (s.req v) (s'.req v)
  stale : ∀ v, ¬s.Registered v → s'.req v = s.req v
  keys : ∀ id n, out.numScheduledTokens.get? id = some n → ∃ v, s.requests.get? id = some v

theorem finishPass_cases {p : Pass} (h : finishPass cfg p = some (out, s')) :
    p.checks cfg ∧ out.numScheduledTokens = p.numScheduledTokens ∧
      out.scheduledSpecDecodeTokens = p.scheduledSpecDecodeTokens ∧
      ∃ s1 : Scheduler, s1.req = p.s.req ∧ s1.requests = p.s.requests ∧
        s1.updateAfterSchedule cfg p.numScheduledTokens p.scheduledSpecDecodeTokens = some s' := by
  unfold finishPass at h
  split at h
  · rename_i hchecks
    simp only [bind, bind_eq_some_iff] at h
    obtain ⟨out', hout, s1, hs1, h⟩ := h
    cases h
    simp only [Pass.output, bind, bind_eq_some_iff] at hout
    obtain ⟨new, -, run, -, res, -, hout⟩ := hout
    cases hout
    refine ⟨hchecks, rfl, rfl, _, ?_, ?_, hs1⟩ <;> rfl
  · cases h

theorem schedule_orderly {p : Pass} (ho : s.Orderly) (hb : Pass.Booked cfg s p)
    (hfin : finishPass cfg p = some (out, s')) (h : s.schedule cfg a = some (out, s'))
    (hstale : ∀ v, ¬s.Registered v → s'.req v = s.req v) : s'.Orderly := by
  obtain ⟨hsame, hmoves⟩ := schedule_moves h
  obtain ⟨-, hq⟩ := finishPass_spec hfin
  have hrun : s'.running = p.s.running := congrArg Queues.running (hq [])
  have hstatus : ∀ v, (s'.req v).status = (p.s.req v).status :=
    fun v => congrFun (congrArg Queues.status (hq [])) v
  refine ⟨ho.toNumbered.of_moves hsame hmoves, hrun ▸ hb.nodup, fun v hv => ?_,
    fun v hv hlive => ?_⟩
  · rw [hstatus]
    exact hb.running v (hrun ▸ hv)
  · rw [hsame.field Request.requestId fun _ => rfl, hsame.requests]
    by_contra hnot
    have hreq := hstale v hnot
    exact hnot (ho.registered v (InQueue.of_moves hmoves hv) (hreq ▸ hlive))

/-- **A pass, request by request.** -/
theorem schedule_schedules (ho : s.Orderly) (hconn : cfg.connector = false)
    (h : s.schedule cfg a = some (out, s')) : Schedules cfg out s s' := by
  have hs := h
  rw [schedule_eq] at hs
  obtain ⟨p, hpass, hfin⟩ := bind_eq_some_iff.mp hs
  have hb := Pass.pass_booked ho hconn hpass
  obtain ⟨-, htokens, hdrafts, s1, hreq1, hreqs1, hafter⟩ := finishPass_cases hfin
  have hstart : s.SameRequests (Pass.start cfg s).s := ⟨rfl, rfl, rfl, rfl⟩
  have hsame : s.SameRequests p.s := hstart.trans (Pass.pass_follows hpass).1.same
  have hid : ∀ v, (s1.req v).requestId = (s.req v).requestId := by
    intro v
    rw [hreq1]
    exact hsame.field Request.requestId (fun _ => rfl) v
  have hreg : ∀ v, s1.Registered v ↔ s.Registered v := by
    intro v
    rw [Registered, Registered, hid, hreqs1, hsame.requests]
  have hk1 : s1.Known := by
    intro id v hv
    rw [hid]
    rw [hreqs1, hsame.requests] at hv
    exact ho.known id v hv
  have hset := updateAfterSchedule_settles hk1 hafter
  have hnone : ∀ v, p.numScheduledTokens.get? (s.req v).requestId = none →
      s'.req v = p.s.req v := by
    intro v hn
    rw [hset.others v fun _ n hmem => ?_, hreq1]
    rw [hid] at hmem
    rw [Dict.get?_of_mem hmem] at hn
    cases hn
  have hsome : ∀ v n, s.Registered v → p.numScheduledTokens.get? (s.req v).requestId = some n →
      s'.req v = (p.s.req v).settle cfg n
        (p.scheduledSpecDecodeTokens.getD (s.req v).requestId []).length := by
    intro v n hv hn
    have hone := hset.settled v n ((hreg v).mpr hv) (by rw [hid]; exact Dict.mem_of_get? hn)
    rw [hid] at hone
    rw [hone, hreq1]
  have hstale : ∀ v, ¬s.Registered v → s'.req v = s.req v := by
    intro v hv
    rw [hset.others v fun hregv => absurd ((hreg v).mp hregv) hv, hreq1]
    exact hb.stale v hv
  refine ⟨(schedule_moves h).1, schedule_orderly ho hb hfin h hstale, fun v hv => ?_, hstale, ?_⟩
  · cases hb.dealt v hv with
    | left status hcases he =>
      have hn : p.numScheduledTokens.get? (s.req v).requestId = none :=
        congrArg Pass.Entry.tokens he
      refine .left status (htokens ▸ hn) hcases ?_
      rw [hnone v hn]
      exact congrArg Pass.Entry.req he
    | preempted hrun he =>
      have hn : p.numScheduledTokens.get? (s.req v).requestId = none :=
        congrArg Pass.Entry.tokens he
      refine .preempted (htokens ▸ hn) hrun ?_
      rw [hnone v hn]
      exact congrArg Pass.Entry.req he
    | running n drafts hd hrun hroom he =>
      simp only [Pass.entry, Pass.Entry.mk.injEq] at he
      obtain ⟨hreq, hn, rfl, -⟩ := he
      refine .running n (htokens ▸ hn) (hdrafts ▸ hd) hrun hroom ?_
      rw [hsome v n hv hn, hreq, Dict.getD, hd]
    | entered n c henter hroom he =>
      simp only [Pass.entry, Pass.Entry.mk.injEq] at he
      obtain ⟨hreq, hn, hd, -⟩ := he
      have hnil : p.scheduledSpecDecodeTokens.getD (s.req v).requestId [] = [] := by
        rw [Dict.getD, hd]
        rfl
      refine .entered n c (htokens ▸ hn) (hdrafts ▸ hnil) henter hroom ?_
      rw [hsome v n hv hn, hreq, hnil]
      rfl
  · rw [htokens]
    exact hb.keys

end Scheduler

end Nvllm.Sched
