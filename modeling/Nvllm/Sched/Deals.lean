import Nvllm.Sched.NewTokens
import Nvllm.Sched.Orderly
import Nvllm.Sched.PassBook

/-! # What a pass deals out

For every registered request a pass of a scheduler without KV connector does one of four things: it
leaves the request (or promotes a blocked one), preempts it, schedules it while it runs, or lets it
enter the running requests (`Dealt`). `schedule_deals` says what becomes of the request and what
the output says about it. The ids of registered requests differ, so the books of one request are
not touched when another one is dealt with.
-/

namespace Nvllm.Sched

open Nvllm.KVCache List

theorem RequestStatus.isFinished_of_isBlocked {status : RequestStatus}
    (h : status.isBlocked = true) : status.isFinished = false := by
  cases status <;> first | rfl | cases h

/-- The statuses of a request that may become a running one in a pass without KV connector. -/
def RequestStatus.mayEnter : RequestStatus → Bool
  | .waiting | .preempted | .waitingForStructuredOutputGrammar => true
  | _ => false

namespace Scheduler

/-- The request is registered under its id. -/
def Registered (s : Scheduler) (v : Ref) : Prop := s.requests.get? (s.req v).requestId = some v

instance (s : Scheduler) (v : Ref) : Decidable (s.Registered v) :=
  inferInstanceAs (Decidable (_ = _))

theorem Orderly.registered_running {s : Scheduler} (h : s.Orderly) {v : Ref}
    (hv : v ∈ s.running) : s.Registered v :=
  h.registered v (.inl hv) (h.isFinished_running hv)

theorem Registered.requestId_ne {s : Scheduler} {v w : Ref} (hv : s.Registered v)
    (hw : s.Registered w) (hne : v ≠ w) : (s.req v).requestId ≠ (s.req w).requestId := by
  intro heq
  rw [Registered, heq, hw] at hv
  exact hne (Option.some.inj hv).symm

end Scheduler

namespace Pass

variable {cfg : SchedulerConfig} {a : Answers} {s : Scheduler} {p p' : Pass} {v w : Ref}
  {goOn : Bool}

/-- What the books of a pass say about one request. -/
structure Entry where
  req : Request
  tokens : Option ℤ
  drafts : Option (List ℤ)
  running : Bool
  entered : Bool
  preempted : Bool

/-- The entry of the request `v` of the scheduler `s`. -/
def entry (s : Scheduler) (p : Pass) (v : Ref) : Entry where
  req := p.s.req v
  tokens := p.numScheduledTokens.get? (s.req v).requestId
  drafts := p.scheduledSpecDecodeTokens.get? (s.req v).requestId
  running := v ∈ p.scheduledRunningReqs
  entered := v ∈ p.scheduledNewReqs ++ p.scheduledResumedReqs
  preempted := v ∈ p.preemptedReqs

variable (cfg) in
/-- What the pass has done so far to a request. -/
inductive Dealt (r : Request) (e : Entry) : Prop
  | left (status : RequestStatus) :
      status = r.status ∨ r.status = .waitingForStructuredOutputGrammar ∧ status = .waiting →
      e = ⟨{ r with status }, none, none, false, false, false⟩ → Dealt r e
  | preempted : r.status = .running → e = ⟨r.preempted, none, none, false, false, true⟩ → Dealt r e
  | running (n : ℤ) (drafts : Option (List ℤ)) : drafts.getD [] = draftsAmong r n →
      r.status = .running → RunningTokens cfg r n →
      e = ⟨r.withoutDrafts, some n, drafts, true, false, false⟩ → Dealt r e
  | entered (n c : ℤ) : r.status.mayEnter = true → EnterTokens r n c →
      e = ⟨r.placed .running c, some n, none, false, true, false⟩ → Dealt r e

variable (cfg) in
/-- The books are in order. -/
structure Booked (s : Scheduler) (p : Pass) : Prop where
  nodup : p.s.running.Nodup
  running : ∀ v ∈ p.s.running, (p.s.req v).status = .running
  scheduled : p.scheduled.Nodup
  stale : ∀ v, ¬s.Registered v → p.s.req v = s.req v
  dealt : ∀ v, s.Registered v → Dealt cfg (s.req v) (p.entry s v)
  keys : ∀ id n, p.numScheduledTokens.get? id = some n → ∃ v, s.requests.get? id = some v

/-- The lists and dictionaries of the pass. -/
def books (p : Pass) : Dict RequestId ℤ × Dict RequestId (List ℤ) × List Ref × List Ref × List Ref ×
    List Ref :=
  (p.numScheduledTokens, p.scheduledSpecDecodeTokens, p.scheduledNewReqs, p.scheduledResumedReqs,
    p.scheduledRunningReqs, p.preemptedReqs)

/-- Nothing changes but caches and waiting queues. -/
theorem Booked.of_same (h : Booked cfg s p) (hreq : p'.s.req = p.s.req)
    (hrun : p'.s.running = p.s.running) (hbooks : p'.books = p.books) : Booked cfg s p' := by
  simp only [books, Prod.mk.injEq] at hbooks
  obtain ⟨htokens, hdrafts, hnew, hres, hsched, hpre⟩ := hbooks
  refine ⟨hrun ▸ h.nodup, fun v hv => ?_, ?_, fun v hv => ?_, fun v hv => ?_, htokens ▸ h.keys⟩
  · rw [hreq]
    exact h.running v (hrun ▸ hv)
  · rw [Pass.scheduled, hnew, hres, hsched]
    exact h.scheduled
  · rw [hreq]
    exact h.stale v hv
  · rw [entry, hreq, htokens, hdrafts, hnew, hres, hsched, hpre]
    exact h.dealt v hv

/-- One registered request is dealt with. -/
theorem Booked.of_one (h : Booked cfg s p) (hv : s.Registered v) (hnodup : p'.s.running.Nodup)
    (hrun : ∀ w ∈ p'.s.running, w ≠ v → w ∈ p.s.running)
    (hrunv : v ∈ p'.s.running → (p'.s.req v).status = .running) (hsched : p'.scheduled.Nodup)
    (hothers : ∀ w, w ≠ v → p'.s.req w = p.s.req w)
    (hagree : ∀ w, w ≠ v → s.Registered w → p'.entry s w = p.entry s w)
    (hdealt : Dealt cfg (s.req v) (p'.entry s v))
    (hkeys : ∀ id n, p'.numScheduledTokens.get? id = some n →
      id = (s.req v).requestId ∨ ∃ n', p.numScheduledTokens.get? id = some n') :
    Booked cfg s p' where
  nodup := hnodup
  running w hw := by
    by_cases hwv : w = v
    · rw [hwv]
      exact hrunv (hwv ▸ hw)
    · rw [hothers w hwv]
      exact h.running w (hrun w hw hwv)
  scheduled := hsched
  stale w hw := by
    rw [hothers w fun heq => hw (heq ▸ hv)]
    exact h.stale w hw
  dealt w hw := by
    by_cases hwv : w = v
    · rw [hwv]
      exact hdealt
    · rw [hagree w hwv hw]
      exact h.dealt w hw
  keys id n hn := by
    rcases hkeys id n hn with rfl | ⟨n', hn'⟩
    · exact ⟨v, hv⟩
    · exact h.keys id n' hn'

/-! ## Preemption -/

variable (cfg) in
/-- In the loop over the running requests. -/
structure RunBooked (s : Scheduler) (p : Pass) : Prop extends Booked cfg s p where
  subset : p.s.running ⊆ s.running
  new : p.scheduledNewReqs = []
  resumed : p.scheduledResumedReqs = []

/-- A running request that is not scheduled in this pass is as it was. -/
theorem RunBooked.untouched (h : RunBooked cfg s p) (ho : s.Orderly) (hv : v ∈ p.s.running)
    (hnot : v ∉ p.scheduledRunningReqs) :
    p.entry s v = ⟨s.req v, none, none, false, false, false⟩ := by
  have hstatus : (p.entry s v).req.status = .running := h.running v hv
  cases h.dealt v (ho.registered_running (h.subset hv)) with
  | left status hcases he =>
    rcases hcases with rfl | ⟨-, rfl⟩
    · exact he
    · rw [he] at hstatus
      cases hstatus
  | preempted _ he =>
    rw [he] at hstatus
    cases hstatus
  | running n drafts _ _ _ he => exact absurd (of_decide_eq_true (congrArg Entry.running he)) hnot
  | entered n c _ _ he =>
    have hmem := of_decide_eq_true (congrArg Entry.entered he)
    rw [h.new, h.resumed] at hmem
    exact absurd hmem not_mem_nil

theorem Booked.req_scheduled (h : Booked cfg s p) (hv : s.Registered v)
    (hmem : v ∈ p.scheduledRunningReqs) : p.s.req v = (s.req v).withoutDrafts := by
  have hrun : (p.entry s v).running = true := decide_eq_true hmem
  cases h.dealt v hv with
  | running n drafts _ _ _ he => exact congrArg Entry.req he
  | left _ _ he | preempted _ he | entered _ _ _ _ he =>
    rw [he] at hrun
    cases hrun

theorem RunBooked.scheduled_eq (h : RunBooked cfg s p) : p.scheduled = p.scheduledRunningReqs := by
  rw [Pass.scheduled, h.new, h.resumed]
  rfl

/-- Under `FCFS` the last running request is preempted, which is not scheduled yet. -/
theorem Placed.not_mem_of_fcfs (hp : Placed v p) (hnodup : p.s.running.Nodup)
    (hpre : Preempts cfg w p p') (hfcfs : cfg.policy = .fcfs) : w ∉ p.scheduledRunningReqs := by
  obtain ⟨pre, post, hrun, -, hsub⟩ := hp
  rcases victim_cases hpre.running with ⟨hprio, -⟩ | ⟨-, hlast, -⟩
  · rw [hfcfs] at hprio
    cases hprio
  · intro hmem
    rw [hrun, getLast?_append_cons] at hlast
    rw [hrun] at hnodup
    have hdisj := disjoint_of_nodup_append hnodup
    exact hdisj (hsub.subset hmem) (mem_of_getLast? hlast)

theorem Preempts.runBooked (ho : s.Orderly) (hp : RunBooked cfg s p)
    (hfcfs : cfg.policy = .fcfs → w ∉ p.scheduledRunningReqs) (h : Preempts cfg w p p') :
    RunBooked cfg s p' := by
  have hwrun := h.mem_running
  have hreg := ho.registered_running (hp.subset hwrun)
  have hwstatus : (s.req w).status = .running := ho.running w (hp.subset hwrun)
  obtain ⟨hperm, hsubl⟩ := victim_spec h.running
  have hnotin : w ∉ p'.s.running := (nodup_cons.mp (hperm.nodup_iff.mp hp.nodup)).1
  have hnodup' : p'.s.running.Nodup := hsubl.nodup hp.nodup
  have hruns := h.runs
  have hsubset : p'.s.running ⊆ s.running := fun x hx => hp.subset (hsubl.subset hx)
  refine ⟨?_, hsubset, hruns.new.trans hp.new, hruns.resumed.trans hp.resumed⟩
  cases h with
  | plain rest st _ hplain hs =>
    have hnot : w ∉ p.scheduledRunningReqs := by
      cases hpol : cfg.policy with
      | fcfs => exact hfcfs hpol
      | priority => exact fun hmem => hplain ⟨hpol, hmem⟩
    have he := hp.untouched ho hwrun hnot
    obtain ⟨hself, hothers⟩ := preemptRequest_req hs
    refine hp.toBooked.of_one hreg hnodup' (fun x hx _ => hsubl.subset hx)
      (fun hx => absurd hx hnotin) hp.scheduled hothers (fun x hx _ => ?_) (.preempted hwstatus ?_)
      fun id n hn => .inr ⟨n, hn⟩
    · simp [entry, hothers x hx, hx]
    · have hreq : p.s.req w = s.req w := congrArg Entry.req he
      simp only [entry, Entry.mk.injEq] at he ⊢
      simp [hself, hreq, he, hp.new, hp.resumed]
  | scheduled rest st n embeds blocks _ hpolicy hmem _ _ _ hs =>
    obtain ⟨hself, hothers⟩ := preemptRequest_req hs
    have hreq := hp.toBooked.req_scheduled hreg hmem
    have hid : (p.s.req w).requestId = (s.req w).requestId := by rw [hreq]; rfl
    have hschednodup : p.scheduledRunningReqs.Nodup := hp.scheduled_eq ▸ hp.scheduled
    -- the request gives its tokens back
    refine hp.toBooked.of_one hreg hnodup' (fun x hx _ => hsubl.subset hx)
      (fun hx => absurd hx hnotin) ?_ hothers (fun x hx hxreg => ?_) (.preempted hwstatus ?_)
      fun id m hm => .inr ⟨m, Dict.get?_of_erase hm⟩
    · show (p.scheduledNewReqs ++ p.scheduledResumedReqs ++
        p.scheduledRunningReqs.erase w).Nodup
      rw [hp.new, hp.resumed]
      exact hschednodup.erase w
    · have hne := hxreg.requestId_ne hreg hx
      simp [entry, takeBack, hothers x hx, hid, Dict.get?_erase_of_ne _ hne, mem_erase_of_ne hx, hx]
    · simp [entry, takeBack, hself, hid, hp.new, hp.resumed, hschednodup.not_mem_erase]
      rw [hreq]
      rfl

/-! ## Running requests -/

theorem RunBooked.of_caches (h : RunBooked cfg s p) (kv : KVCacheManager)
    (enc : EncoderCacheManager) : RunBooked cfg s { p with s := { p.s with kv, enc } } :=
  ⟨h.toBooked.of_same rfl rfl rfl, h.subset, h.new, h.resumed⟩

theorem Allocates.runBooked {n : ℤ} {newBlocks : Option (List (List BlockId))} (ho : s.Orderly)
    (h : Allocates cfg v n p newBlocks p') (hp : RunBooked cfg s p) (hpl : Placed v p) :
    RunBooked cfg s p' := by
  induction h with
  | @granted p r bs kv _ _ => exact hp.of_caches kv p.s.enc
  | @itself p p' r kv _ _ hpre =>
    have hkv := hp.of_caches kv p.s.enc
    exact hpre.runBooked ho hkv fun hfcfs =>
      Placed.not_mem_of_fcfs hpl hkv.nodup hpre hfcfs
  | @other p p1 p' newBlocks r kv w _ _ hpre hne _ ih =>
    have hkv := hp.of_caches kv p.s.enc
    have hone := hpre.runBooked ho hkv fun hfcfs =>
      Placed.not_mem_of_fcfs hpl hkv.nodup hpre hfcfs
    exact ih hone (hpre.placed hne hpl)

/-- The request that is looked at is not scheduled yet. -/
theorem Placed.not_mem (hp : Placed v p) (hnodup : p.s.running.Nodup) :
    v ∈ p.s.running ∧ v ∉ p.scheduledRunningReqs := by
  obtain ⟨pre, post, hrun, -, hsub⟩ := hp
  rw [hrun] at hnodup ⊢
  refine ⟨mem_append_right _ mem_cons_self, fun hmem => ?_⟩
  exact disjoint_of_nodup_append hnodup (hsub.subset hmem) mem_cons_self

theorem scheduleRunning_runBooked (ho : s.Orderly) (hp : RunBooked cfg s p) (hpl : Placed v p)
    {t : EncoderTry} {bs : List (List BlockId)}
    (htokens : RunningTokens cfg (s.req v) t.numNewTokens)
    (h : p.scheduleRunning v t bs = some p') : RunBooked cfg s p' := by
  obtain ⟨hvrun, hnot⟩ := hpl.not_mem hp.nodup
  have he := hp.untouched ho hvrun hnot
  simp only [entry, Entry.mk.injEq] at he
  obtain ⟨hreq, -, hd, -, -, hpre⟩ := he
  simp only [scheduleRunning, hreq, bind, Option.bind_eq_some_iff] at h
  obtain ⟨enc, -, h⟩ := h
  cases h
  have hreg := ho.registered_running (hp.subset hvrun)
  have hstatus : (s.req v).status = .running := ho.running v (hp.subset hvrun)
  have hself : (p.s.modify v Request.withoutDrafts).req v = (s.req v).withoutDrafts := by
    rw [Scheduler.req_modify_self, hreq]
  have hothers : ∀ w, w ≠ v → (p.s.modify v Request.withoutDrafts).req w = p.s.req w :=
    fun w hw => Scheduler.req_modify_of_ne _ _ hw
  refine ⟨hp.toBooked.of_one hreg hp.nodup (fun w hw _ => hw) (fun _ => ?_) ?_ hothers
    (fun w hw hwreg => ?_) (.running t.numNewTokens _ ?_ hstatus htokens
      ((Entry.mk.injEq ..).mpr ⟨hself, Dict.get?_set_self .., rfl, ?_, ?_, hpre⟩))
    (fun id n hn => ?_), hp.subset, hp.new, hp.resumed⟩
  · exact (congrArg Request.status hself).trans hstatus
  · rw [hp.new, hp.resumed]
    have hnodup : p.scheduledRunningReqs.Nodup := hp.scheduled_eq ▸ hp.scheduled
    show (p.scheduledRunningReqs ++ [v]).Nodup
    exact nodup_append'.mpr ⟨hnodup, nodup_singleton v,
      disjoint_singleton.mpr hnot⟩
  · have hne := hwreg.requestId_ne hreg hw
    have hdrafts : ∀ {b : Prop} [Decidable b] {l : List ℤ}, Dict.get? (if b then
        p.scheduledSpecDecodeTokens else p.scheduledSpecDecodeTokens.set (s.req v).requestId l)
        (s.req w).requestId = p.scheduledSpecDecodeTokens.get? (s.req w).requestId := by
      intro b _ l
      split
      · rfl
      · rw [Dict.get?_set_of_ne _ _ hne]
    simp [entry, hothers w hw, Dict.get?_set_of_ne _ _ hne, hdrafts, hw]
  · dsimp only
    split
    · rename_i hnil
      rw [hd, hnil]
      rfl
    · rw [Dict.get?_set_self]
      rfl
  · exact decide_eq_true (mem_append_right _ mem_cons_self)
  · rw [hp.new, hp.resumed]
    rfl
  · have hn' : (p.numScheduledTokens.set (s.req v).requestId t.numNewTokens).get? id = some n := hn
    rw [Dict.get?_set] at hn'
    split at hn'
    · exact .inl ‹_›
    · exact .inr ⟨n, hn'⟩

theorem RunningTurn.runBooked (ho : s.Orderly) (hv : p.s.running[p.reqIndex]? = some v)
    (hbudget : 0 < p.tokenBudget) (hp : RunBooked cfg s p) (hw : p.Walked)
    (h : RunningTurn cfg a v p goOn p') : RunBooked cfg s p' := by
  have hpl := hw.placed hv
  obtain ⟨hvrun, hnot⟩ := hpl.not_mem hp.nodup
  have hreq : p.s.req v = s.req v := congrArg Entry.req (hp.untouched ho hvrun hnot)
  cases h with
  | capped _ => exact ⟨hp.toBooked.of_same rfl rfl rfl, hp.subset, hp.new, hp.resumed⟩
  | noTokens t _ _ _ =>
    exact ⟨hp.toBooked.of_same rfl rfl rfl, hp.subset, hp.new, hp.resumed⟩
  | preempted t p' _ _ _ halloc => exact halloc.runBooked ho (hp.of_caches p.s.kv t.enc) hpl
  | scheduled t bs p1 p' _ ht hne halloc hs =>
    have hp1 := halloc.runBooked ho (hp.of_caches p.s.kv t.enc) hpl
    have hlow := tryRunning_tokens hbudget ht
    rw [hreq] at hlow
    exact scheduleRunning_runBooked ho hp1 (halloc.placed hpl) ⟨hlow, hne⟩ hs

theorem booked_start (ho : s.Orderly) : RunBooked cfg s (start cfg s) where
  nodup := ho.nodup
  running := ho.running
  scheduled := nodup_nil
  stale _ _ := rfl
  dealt v _ := .left (s.req v).status (.inl rfl) rfl
  keys _ _ h := by cases h
  subset := Subset.refl _
  new := rfl
  resumed := rfl

theorem runningPart_booked (ho : s.Orderly) (h : s.runningPart cfg a = some p) :
    RunBooked cfg s p := by
  refine runningLoop_rule (p := start cfg s) (fun p => RunBooked cfg s p ∧ p.Walked)
    (RunBooked cfg s) ?_ ?_ (fun p hp _ => hp.1) (Nat.le_add_left _ _) h
    ⟨booked_start ho, nil_sublist _⟩
  · intro p v p' hv hbudget hp hturn
    exact ⟨hturn.runBooked ho hv hbudget hp.1 hp.2, hturn.walked hv hp.2⟩
  · intro p v p' hv hbudget hp hturn
    exact hturn.runBooked ho hv hbudget hp.1 hp.2

/-! ## Waiting requests -/

variable (cfg) in
/-- In the loop over the waiting requests, which only runs if nothing was preempted. -/
structure WaitBooked (s : Scheduler) (p : Pass) : Prop extends Booked cfg s p where
  preempted : p.preemptedReqs = []

theorem WaitBooked.of_same (h : WaitBooked cfg s p) (hbooks : SameBooks p p')
    (hreq : p'.s.req = p.s.req) : WaitBooked cfg s p' where
  toBooked := h.toBooked.of_same hreq hbooks.running (by rw [← hbooks.books]; rfl)
  preempted := by
    rw [← h.preempted, ← hbooks.books]

variable {q : Scheduler.QueueName}

/-- A live request in a waiting queue is registered. -/
theorem Booked.registered_of_mem (h : Booked cfg s p) (ho : s.Orderly)
    (hfollows : Follows cfg (start cfg s) p) (hv : v ∈ p.s.queue q)
    (hlive : (p.s.req v).isFinished = false) : s.Registered v := by
  by_contra hnot
  have hreq := h.stale v hnot
  have hmem : v ∈ p.queues.members := by
    apply mem_append_right
    cases q with
    | waiting => exact mem_append_left _ (mem_append_left _ hv)
    | skipped => exact mem_append_left _ (mem_append_right _ hv)
  have hin : s.InQueue v := by
    have hmem' := hfollows.moves.members_perm.mem_iff.mp hmem
    simpa [start, queues, Scheduler.queues, Queues.members, Queues.inWaiting, Scheduler.InQueue]
      using hmem'
  exact hnot (ho.registered v hin (hreq ▸ hlive))

/-- A request that does not run is as it was, up to a promotion. -/
theorem WaitBooked.untouched (h : WaitBooked cfg s p) (hv : s.Registered v)
    (hstatus : (p.s.req v).status ≠ .running) :
    ∃ status, (status = (s.req v).status ∨
        (s.req v).status = .waitingForStructuredOutputGrammar ∧ status = .waiting) ∧
      p.entry s v = ⟨{ s.req v with status }, none, none, false, false, false⟩ := by
  have hstatus : (p.entry s v).req.status ≠ .running := hstatus
  cases h.dealt v hv with
  | left status hcases he => exact ⟨status, hcases, he⟩
  | preempted _ he =>
    have hmem := of_decide_eq_true (congrArg Entry.preempted he)
    rw [h.preempted] at hmem
    cases hmem
  | running n drafts _ hrun _ he =>
    rw [he] at hstatus
    exact absurd hrun hstatus
  | entered n c _ _ he =>
    rw [he] at hstatus
    exact absurd rfl hstatus

theorem skipWaiting_req (h : p.skipWaiting cfg q v = some p') : p'.s.req = p.s.req := by
  simp only [skipWaiting, bind, Option.bind_eq_some_iff] at h
  obtain ⟨⟨w, rest⟩, -, h⟩ := h
  cases h
  exact Scheduler.req_setQueue _ _ _

theorem enterRunning_req {c : Computed} {t : EncoderTry}
    (h : p.enterRunning cfg q v c t = some p') :
    p'.s.req v = (p.s.req v).placed .running c.numComputedTokens ∧
      ∀ w, w ≠ v → p'.s.req w = p.s.req w := by
  simp only [enterRunning, bind, Option.bind_eq_some_iff] at h
  obtain ⟨⟨w, rest⟩, -, enc, -, ⟨new, resumed⟩, -, h⟩ := h
  cases h
  refine ⟨?_, fun w hw => ?_⟩
  · rw [Scheduler.req_modify_self, Scheduler.req_setQueue]
  · rw [Scheduler.req_modify_of_ne _ _ hw, Scheduler.req_setQueue]

theorem Entered.booked {n c : ℤ} (hp : WaitBooked cfg s p) (hv : s.Registered v)
    (h : Entered cfg v n p p') (htokens : EnterTokens (p.s.req v) n c)
    (hreq : p'.s.req v = (p.s.req v).placed .running c)
    (hothers : ∀ w, w ≠ v → p'.s.req w = p.s.req w) : Booked cfg s p' := by
  have hstatus : (p.s.req v).status ≠ .running := by
    rcases h.status with hst | hst <;> rw [hst] <;> decide
  obtain ⟨status, hcases, he⟩ := hp.untouched hv hstatus
  simp only [entry, Entry.mk.injEq, decide_eq_false_iff_not] at he
  obtain ⟨heq, -, hd, hnotrun, hnotent, -⟩ := he
  have hid : (p.s.req v).requestId = (s.req v).requestId := by rw [heq]
  have hmem : ∀ w, w ∈ p'.scheduledNewReqs ++ p'.scheduledResumedReqs ↔
      w = v ∨ w ∈ p.scheduledNewReqs ++ p.scheduledResumedReqs := by
    rw [h.new, h.resumed]
    split <;> simp only [mem_append, mem_singleton, append_nil] <;> grind
  have hmay : (s.req v).status.mayEnter = true := by
    rcases hcases with rfl | ⟨hst, -⟩
    · have hst := h.status
      rw [heq] at hst
      rcases hst with hst | hst
      · exact congrArg RequestStatus.mayEnter hst
      · exact congrArg RequestStatus.mayEnter hst
    · exact congrArg RequestStatus.mayEnter hst
  rw [heq] at htokens
  refine hp.toBooked.of_one hv ?_ (fun w hw hne => ?_) (fun _ => ?_) ?_ hothers
    (fun w hw hwreg => ?_) (.entered n c hmay { htokens with } ?_) fun id m hm => ?_
  · rw [h.running]
    exact nodup_append'.mpr ⟨hp.nodup, nodup_singleton v,
      disjoint_singleton.mpr fun hrun => hstatus (hp.running v hrun)⟩
  · rw [h.running, mem_append, mem_singleton] at hw
    exact hw.resolve_right hne
  · rw [hreq]
    rfl
  · refine h.scheduled_perm.nodup_iff.mpr (nodup_cons.mpr ⟨fun hmem => ?_, hp.scheduled⟩)
    exact (mem_append.mp hmem).elim hnotent hnotrun
  · have hne := hwreg.requestId_ne hv hw
    simp only [entry, hothers w hw, h.numScheduledTokens, hid, Dict.get?_set_of_ne _ _ hne,
      h.scheduledSpecDecodeTokens, h.scheduledRunningReqs, hmem w, hw, false_or, h.preemptedReqs]
  · simp only [entry, hreq, heq, h.numScheduledTokens, Dict.get?_set_self,
      h.scheduledSpecDecodeTokens, hd, h.scheduledRunningReqs, hnotrun, hmem v, h.preemptedReqs,
      hp.preempted]
    simp
    rfl
  · rw [h.numScheduledTokens, Dict.get?_set] at hm
    split at hm
    · rename_i heq'
      left
      rw [heq', hid]
    · exact .inr ⟨m, hm⟩

theorem WaitingReady.booked (hconn : cfg.connector = false) (hp : WaitBooked cfg s p)
    (hreg : (p.s.req v).isFinished = false → s.Registered v)
    (h : WaitingReady cfg a q v p goOn p') : WaitBooked cfg s p' := by
  cases h with
  | loraBlocked p' _ hskip | unknown p' _ hskip =>
    exact hp.of_same (skipWaiting_books hskip) (skipWaiting_req hskip)
  | noTokens c t _ _ => exact hp.of_same ⟨rfl, rfl, ⟨rfl, rfl, rfl, rfl⟩⟩ rfl
  | noBlocks c t p1 enc _ _ halloc _ =>
    obtain ⟨kv, rfl⟩ := allocateWaiting_cases halloc
    exact hp.of_same ⟨rfl, rfl, ⟨rfl, rfl, rfl, rfl⟩⟩ rfl
  | loading c t p1 p' hc _ _ hload _ =>
    obtain ⟨c', hc', hload', -⟩ := lookUpComputed_cases hconn hc
    cases hc'
    rw [hload] at hload'
    cases hload'
  | entered c t p1 p' _ hc ht halloc _ henter =>
    obtain ⟨kv, rfl⟩ := allocateWaiting_cases halloc
    have hp1 : WaitBooked cfg s { p with s := { p.s with enc := t.enc, kv } } :=
      hp.of_same ⟨rfl, rfl, ⟨rfl, rfl, rfl, rfl⟩⟩ rfl
    obtain ⟨hself, hothers⟩ := enterRunning_req henter
    have hentered := enterRunning_entered henter
    have hlive : (p.s.req v).isFinished = false := by
      rcases hentered.status with hst | hst
      · exact congrArg RequestStatus.isFinished hst
      · exact congrArg RequestStatus.isFinished hst
    refine ⟨hentered.booked hp1 (hreg hlive) (enterTokens hconn hc ht) hself hothers, ?_⟩
    rw [hentered.preemptedReqs]
    exact hp.preempted

theorem tryPromote_grammar {s' : Scheduler} (hconn : cfg.connector = false)
    (h : s.tryPromoteBlockedWaitingRequest cfg a v = some (true, s')) :
    (s.req v).status = .waitingForStructuredOutputGrammar ∧
      s' = s.modify v fun r => { r with status := .waiting } := by
  cases tryPromote_cases h with
  | grammar hstatus => exact ⟨hstatus, rfl⟩
  | received s1 _ hs1 =>
    rw [Scheduler.updateWaitingForRemoteKv, if_pos hconn] at hs1
    cases hs1

/-- A blocked request is promoted. -/
theorem WaitBooked.promote (hp : WaitBooked cfg s p) (hv : s.Registered v)
    (hgrammar : (p.s.req v).status = .waitingForStructuredOutputGrammar) :
    WaitBooked cfg s { p with s := p.s.modify v fun r => { r with status := .waiting } } := by
  have hstatus : (p.s.req v).status ≠ .running := by
    rw [hgrammar]
    decide
  obtain ⟨status, hcases, he⟩ := hp.untouched hv hstatus
  have heq : p.s.req v = { s.req v with status } := congrArg Entry.req he
  have hothers : ∀ w, w ≠ v →
      (p.s.modify v fun r => { r with status := .waiting }).req w = p.s.req w :=
    fun w hw => Scheduler.req_modify_of_ne _ _ hw
  refine ⟨hp.toBooked.of_one hv hp.nodup (fun w hw _ => hw)
    (fun hrun => absurd (hp.running v hrun) hstatus) hp.scheduled hothers
    (fun w hw _ => ?_) (.left .waiting (.inr ⟨?_, rfl⟩) ?_) fun id n hm => .inr ⟨n, hm⟩,
    hp.preempted⟩
  · simp only [entry, hothers w hw]
  · rcases hcases with rfl | ⟨hst, -⟩
    · rw [heq] at hgrammar
      exact hgrammar
    · exact hst
  · show { p.entry s v with req := (p.s.modify v fun r => { r with status := .waiting }).req v } = _
    rw [he, Scheduler.req_modify_self, heq]

theorem waitingTurn_booked (ho : s.Orderly) (hconn : cfg.connector = false)
    (hp : WaitBooked cfg s p) (hfollows : Follows cfg (start cfg s) p)
    (h : WaitingTurn cfg a p goOn p') : WaitBooked cfg s p' := by
  cases h with
  | blocked q v p' _ _ _ hskip =>
    exact hp.of_same (skipWaiting_books hskip) (skipWaiting_req hskip)
  | ready q v goOn p' _ hpeek _ hready =>
    exact hready.booked hconn hp
      (hp.toBooked.registered_of_mem ho hfollows (mem_of_head? hpeek))
  | promoted q v s1 goOn p' _ hpeek hblocked hpro hready =>
    have hreg := hp.toBooked.registered_of_mem ho hfollows (mem_of_head? hpeek)
      (RequestStatus.isFinished_of_isBlocked hblocked)
    obtain ⟨hgrammar, rfl⟩ := tryPromote_grammar hconn hpro
    exact hready.booked hconn (hp.promote hreg hgrammar) fun _ => hreg

theorem waitingPart_booked (ho : s.Orderly) (hconn : cfg.connector = false)
    (hp : Booked cfg s p) (hfollows : Follows cfg (start cfg s) p)
    (h : p.waitingPart cfg a = some p') : Booked cfg s p' := by
  unfold waitingPart at h
  split at h
  · rename_i hif
    obtain ⟨p1, hloop, h⟩ := Option.bind_eq_some_iff.mp h
    cases h
    have hp1 : WaitBooked cfg s p1 ∧ Follows cfg (start cfg s) p1 :=
      waitingLoop_invariant (fun p => WaitBooked cfg s p ∧ Follows cfg (start cfg s) p)
        (fun _ _ _ _ hp hturn => ⟨waitingTurn_booked ho hconn hp.1 hp.2 hturn,
          hp.2.trans hturn.follows⟩) hloop ⟨⟨hp, hif.1⟩, hfollows⟩
    exact hp1.1.toBooked.of_same rfl rfl rfl
  · cases h
    exact hp

theorem recordLoras_booked (hp : Booked cfg s p) (h : p.recordLoras cfg = some p') :
    Booked cfg s p' := by
  obtain ⟨loras, rfl⟩ := recordLoras_cases h
  exact hp.of_same rfl rfl rfl

/-- **The books of a pass.** -/
theorem pass_booked (ho : s.Orderly) (hconn : cfg.connector = false)
    (h : s.pass cfg a = some p) : Booked cfg s p := by
  simp only [Scheduler.pass, bind, Option.bind_eq_some_iff] at h
  obtain ⟨p1, hrun, p2, hloras, hwait⟩ := h
  exact waitingPart_booked ho hconn
    (recordLoras_booked (runningPart_booked ho hrun).toBooked hloras)
    ((runningPart_runs hrun).toFollows.trans (recordLoras_follows hloras)) hwait

end Pass

end Nvllm.Sched
