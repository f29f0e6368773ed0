import Nvllm.Sched.QueueMoves

/-! # The books of a pass

A pass lists the requests that it schedules. Under both policies the running ones among them stand
before the index in `running`, although `PRIORITY` takes requests out of the list in front of the
index (`Walked`). A waiting request that enters is running when the pass ends (`Entered`).
-/

namespace Nvllm.Sched

open Nvllm.KVCache List Option

namespace Pass

variable {cfg : SchedulerConfig} {a : Answers} {p p' : Pass} {v w : Ref} {goOn : Bool}

/-- The requests that are scheduled so far. -/
def scheduled (p : Pass) : List Ref :=
  p.scheduledNewReqs ++ p.scheduledResumedReqs ++ p.scheduledRunningReqs

/-! ## Running requests -/

/-- The scheduled requests stand before the index, in their order. -/
def Walked (p : Pass) : Prop := p.scheduledRunningReqs.Sublist (p.s.running.take p.reqIndex)

/-- The request `v` is looked at; the scheduled ones stand before it. -/
def Placed (v : Ref) (p : Pass) : Prop :=
  ∃ pre post, p.s.running = pre ++ v :: post ∧ pre.length ≤ p.reqIndex ∧
    p.scheduledRunningReqs.Sublist pre

theorem Walked.placed (h : p.Walked) (hv : p.s.running[p.reqIndex]? = some v) : Placed v p := by
  obtain ⟨hlt, rfl⟩ := List.getElem?_eq_some_iff.mp hv
  refine ⟨p.s.running.take p.reqIndex, p.s.running.drop (p.reqIndex + 1), ?_,
    length_take_le _ _, h⟩
  rw [← drop_eq_getElem_cons hlt, take_append_drop]

theorem Walked.of_le (h : p.scheduledRunningReqs.Sublist (p.s.running.take p.reqIndex))
    (hrun : p'.s.running = p.s.running) (hsched : p'.scheduledRunningReqs = p.scheduledRunningReqs)
    (hle : p.reqIndex ≤ p'.reqIndex) : p'.Walked := by
  rw [Walked, hrun, hsched]
  exact h.trans (take_sublist_take_left hle)

/-- The last request is preempted, which is not `v`. -/
theorem dropLast_append_cons {pre post : List Ref} (h : (pre ++ v :: post).getLast? = some w)
    (hne : w ≠ v) : (pre ++ v :: post).dropLast = pre ++ v :: post.dropLast := by
  cases post with
  | nil =>
    rw [getLast?_concat] at h
    exact absurd (Option.some.inj h).symm hne
  | cons x post => simp

theorem Preempts.placed (h : Preempts cfg w p p') (hne : w ≠ v) (hp : Placed v p) :
    Placed v p' := by
  obtain ⟨pre, post, hrun, hlen, hsub⟩ := hp
  have hvictim := victim_cases h.running
  cases h with
  | plain rest s _ hplain _ =>
    rcases hvictim with ⟨hpolicy, -, hrest⟩ | ⟨-, hlast, hrest⟩
    · have hnot : w ∉ p.scheduledRunningReqs := fun hw => hplain ⟨hpolicy, hw⟩
      rw [hrun, erase_append] at hrest
      split at hrest
      · refine ⟨pre.erase w, post, hrest, (length_erase_le).trans hlen, ?_⟩
        rw [← erase_of_not_mem hnot]
        exact hsub.erase w
      · rw [erase_cons_tail (by simpa using hne.symm)] at hrest
        exact ⟨pre, post.erase w, hrest, hlen, hsub⟩
    · rw [hrun] at hlast hrest
      rw [dropLast_append_cons hlast hne] at hrest
      exact ⟨pre, post.dropLast, hrest, hlen, hsub⟩
  | scheduled rest s n embeds _ _ hpolicy hmem _ _ _ _ =>
    rcases hvictim with ⟨-, -, hrest⟩ | ⟨hfcfs, -, -⟩
    · have hpre : w ∈ pre := hsub.subset hmem
      rw [hrun, erase_append_left _ hpre] at hrest
      refine ⟨pre.erase w, post, hrest, ?_, hsub.erase w⟩
      show (pre.erase w).length ≤ p.reqIndex - 1
      rw [length_erase_of_mem hpre]
      omega
    · rw [hpolicy] at hfcfs
      cases hfcfs

variable {n : ℤ} {newBlocks : Option (List (List BlockId))} {q : Scheduler.QueueName}

theorem Allocates.placed {bs : List (List BlockId)} (h : Allocates cfg v n p (some bs) p')
    (hp : Placed v p) : Placed v p' := by
  generalize hbs : some bs = newBlocks at h
  induction h with
  | granted r bs kv _ _ => exact hp
  | itself r kv _ _ hpre => cases hbs
  | other r kv w _ _ hpre hne _ ih => exact ih (hpre.placed hne hp) hbs

theorem Preempts.subsets (h : Preempts cfg v p p') :
    p'.s.running ⊆ p.s.running ∧ p'.scheduledRunningReqs ⊆ p.scheduledRunningReqs := by
  refine ⟨(victim_spec h.running).2.subset, ?_⟩
  cases h with
  | plain rest s _ _ _ => exact Subset.refl _
  | scheduled rest s n embeds _ _ _ _ _ _ _ _ => exact erase_subset

theorem Allocates.subsets (h : Allocates cfg v n p newBlocks p') :
    p'.s.running ⊆ p.s.running ∧ p'.scheduledRunningReqs ⊆ p.scheduledRunningReqs := by
  induction h with
  | granted r bs kv _ _ => exact ⟨Subset.refl _, Subset.refl _⟩
  | itself r kv _ _ hpre => exact hpre.subsets
  | other r kv w _ _ hpre _ _ ih =>
    exact ⟨Subset.trans ih.1 hpre.subsets.1, Subset.trans ih.2 hpre.subsets.2⟩

theorem Allocates.preemptedReqs (h : Allocates cfg v n p newBlocks p') :
    (newBlocks = none → p'.preemptedReqs ≠ []) ∧
      (p'.preemptedReqs = [] →
        p.preemptedReqs = [] ∧ ∃ kv, p' = { p with s := { p.s with kv } }) := by
  have hne : ∀ {p p' : Pass} {w : Ref}, Preempts cfg w p p' → p'.preemptedReqs ≠ [] := by
    intro p p' w hpre
    rw [hpre.preemptedReqs]
    exact append_ne_nil_of_right_ne_nil _ (cons_ne_nil w [])
  induction h with
  | granted r bs kv _ _ => exact ⟨nofun, fun h => ⟨h, kv, rfl⟩⟩
  | itself r kv _ _ hpre => exact ⟨fun _ => hne hpre, fun h => absurd h (hne hpre)⟩
  | other r kv w _ _ hpre _ _ ih => exact ⟨ih.1, fun h => absurd (ih.2 h).1 (hne hpre)⟩

theorem scheduleRunning_walked {t : EncoderTry} {newBlocks : List (List BlockId)}
    (hp : Placed v p) (h : p.scheduleRunning v t newBlocks = some p') : p'.Walked := by
  simp only [scheduleRunning, bind, bind_eq_some_iff] at h
  obtain ⟨enc, -, h⟩ := h
  cases h
  obtain ⟨pre, post, hrun, hlen, hsub⟩ := hp
  calc (p.scheduledRunningReqs ++ [v]).Sublist (pre ++ [v]) := hsub.append (.refl _)
    Sublist _ (p.s.running.take (pre.length + 1)) := by
      rw [hrun, take_length_add_append]
      exact Sublist.refl _
    Sublist _ (p.s.running.take (p.reqIndex + 1)) :=
      take_sublist_take_left (Nat.succ_le_succ hlen)

theorem RunningTurn.walked (hv : p.s.running[p.reqIndex]? = some v) (hp : p.Walked)
    (h : RunningTurn cfg a v p true p') : p'.Walked := by
  cases h with
  | capped _ | noTokens t _ _ _ => exact Walked.of_le hp rfl rfl (Nat.le_succ _)
  | scheduled t bs p1 p' _ _ _ halloc hs =>
    have hplaced : Placed v { p with s := { p.s with enc := t.enc } } := hp.placed hv
    exact scheduleRunning_walked (halloc.placed hplaced) hs

/-- Only requests that were running at the start are running or scheduled by the first loop. -/
theorem RunningTurn.subsets (h : RunningTurn cfg a v p goOn p') :
    p'.s.running ⊆ p.s.running ∧ p'.scheduledRunningReqs ⊆ v :: p.scheduledRunningReqs := by
  cases h with
  | capped _ | noTokens t _ _ _ => exact ⟨Subset.refl _, subset_cons_self _ _⟩
  | preempted t p' _ _ _ halloc => exact halloc.subsets.imp_right (subset_cons_of_subset v)
  | scheduled t bs p1 p' _ _ _ halloc hs =>
    simp only [scheduleRunning, bind, bind_eq_some_iff] at hs
    obtain ⟨enc, -, hs⟩ := hs
    cases hs
    refine ⟨halloc.subsets.1, append_subset.mpr ⟨subset_cons_of_subset v halloc.subsets.2, ?_⟩⟩
    exact cons_subset.mpr ⟨mem_cons_self, nil_subset _⟩

theorem runningPart_subset {s : Scheduler} (h : s.runningPart cfg a = some p) :
    p.s.running ⊆ s.running ∧ p.scheduledRunningReqs ⊆ s.running :=
  runningPart_invariant
    (fun p => p.s.running ⊆ s.running ∧ p.scheduledRunningReqs ⊆ s.running)
    (fun _ _ _ _ hv hp hturn => ⟨Subset.trans hturn.subsets.1 hp.1,
      Subset.trans hturn.subsets.2 (cons_subset.mpr ⟨hp.1 hv, hp.2⟩)⟩)
    h ⟨Subset.refl _, nil_subset _⟩

/-! ## Waiting requests -/

/-- Nothing is scheduled between the two. -/
structure SameBooks (p p' : Pass) : Prop where
  books : { p' with s := p.s, stepSkippedWaiting := p.stepSkippedWaiting } = p
  running : p'.s.running = p.s.running
  same : p.s.SameRequests p'.s

theorem skipWaiting_books (h : p.skipWaiting cfg q v = some p') : SameBooks p p' := by
  simp only [skipWaiting, bind, bind_eq_some_iff] at h
  obtain ⟨⟨w, rest⟩, -, h⟩ := h
  cases h
  cases q <;> exact ⟨rfl, rfl, ⟨rfl, rfl, rfl, rfl⟩⟩

theorem loadAsync_books {c : Computed} (h : p.loadAsync cfg q v c = some p') : SameBooks p p' := by
  simp only [loadAsync, bind, bind_eq_some_iff] at h
  obtain ⟨⟨w, rest⟩, -, h⟩ := h
  cases h
  have hsame : p.s.SameRequests ((p.s.setQueue q rest).modify v
      (Request.placed .waitingForRemoteKvs c.numComputedTokens)) :=
    (Scheduler.SameRequests.setQueue p.s q rest).trans (.modify _ v _ rfl)
  cases q <;> exact ⟨rfl, rfl, hsame⟩

theorem SameBooks.trans {p'' : Pass} (h : SameBooks p p') (h' : SameBooks p' p'') :
    SameBooks p p'' where
  books := by
    rw [← h.books]
    exact congrArg (fun p1 : Pass => { p1 with
      s := p.s, stepSkippedWaiting := p.stepSkippedWaiting }) h'.books
  running := h'.running.trans h.running
  same := h.same.trans h'.same

/-- The request `v` becomes a running one and is scheduled for `n` tokens. -/
structure Entered (cfg : SchedulerConfig) (v : Ref) (n : ℤ) (p p' : Pass) : Prop where
  status : (p.s.req v).status = .waiting ∨ (p.s.req v).status = .preempted
  new : p'.scheduledNewReqs =
    p.scheduledNewReqs ++ if (p.s.req v).status = .waiting then [v] else []
  resumed : p'.scheduledResumedReqs =
    p.scheduledResumedReqs ++ if (p.s.req v).status = .waiting then [] else [v]
  scheduledRunningReqs : p'.scheduledRunningReqs = p.scheduledRunningReqs
  preemptedReqs : p'.preemptedReqs = p.preemptedReqs
  running : p'.s.running = p.s.running ++ [v]
  scheduledLoras : p'.scheduledLoras =
    match cfg.maxLoras, (p.s.req v).loraRequest with
    | some _, some l => p.scheduledLoras.insert l.loraIntId
    | _, _ => p.scheduledLoras
  numScheduledTokens : p'.numScheduledTokens =
    p.numScheduledTokens.set (p.s.req v).requestId n
  tokenBudget : p'.tokenBudget = p.tokenBudget - n
  scheduledSpecDecodeTokens : p'.scheduledSpecDecodeTokens = p.scheduledSpecDecodeTokens
  same : p.s.SameRequests p'.s

theorem enterRunning_entered {c : Computed} {t : EncoderTry}
    (h : p.enterRunning cfg q v c t = some p') : Entered cfg v t.numNewTokens p p' := by
  simp only [enterRunning, bind, bind_eq_some_iff] at h
  obtain ⟨⟨w, rest⟩, -, enc, -, ⟨new, resumed⟩, hnew, h⟩ := h
  cases h
  have hsame : p.s.SameRequests ((p.s.setQueue q rest).modify v
      (Request.placed .running c.numComputedTokens)) :=
    (Scheduler.SameRequests.setQueue p.s q rest).trans (.modify _ v _ rfl)
  have hrun : ((p.s.setQueue q rest).modify v
      (Request.placed .running c.numComputedTokens)).running = p.s.running := by
    cases q <;> rfl
  have hcases : ((p.s.req v).status = .waiting ∨ (p.s.req v).status = .preempted) ∧
      new = (if (p.s.req v).status = .waiting then [v] else []) ∧
      resumed = if (p.s.req v).status = .waiting then [] else [v] := by
    unfold newOrResumed at hnew
    split at hnew
    · rename_i hst
      cases hnew
      rw [hst]
      exact ⟨.inl rfl, rfl, rfl⟩
    · rename_i hst
      cases hnew
      rw [hst]
      exact ⟨.inr rfl, rfl, rfl⟩
    · cases hnew
  obtain ⟨hstatus, rfl, rfl⟩ := hcases
  exact ⟨hstatus, rfl, rfl, rfl, rfl, congrArg (· ++ [v]) hrun, rfl, rfl, rfl, rfl,
    hsame.trans ⟨rfl, rfl, rfl, rfl⟩⟩

theorem Entered.scheduled_perm (h : Entered cfg v n p p') :
    p'.scheduled.Perm (v :: p.scheduled) := by
  rw [scheduled, scheduled, h.new, h.resumed, h.scheduledRunningReqs]
  split
  · rw [append_nil, append_assoc, append_assoc, append_assoc,
      singleton_append]
    exact perm_middle
  · rw [append_nil, ← append_assoc, append_assoc _ [v], singleton_append]
    exact perm_middle

variable (cfg) in
/-- A turn schedules nothing, or the request at the head of a queue becomes a running one. -/
inductive Enters (p p' : Pass) : Prop
  | none : SameBooks p p' → Enters p p'
  | one (v : Ref) (n : ℤ) (p1 : Pass) :
      SameBooks p p1 → p1.loraBlocked cfg (p1.s.req v) = false → Entered cfg v n p1 p' →
      Enters p p'

theorem Enters.of_sameBooks {p1 : Pass} (h : SameBooks p p1) (h' : Enters cfg p1 p') :
    Enters cfg p p' := by
  cases h' with
  | none h' => exact .none (h.trans h')
  | one v n p2 h' hlora hentered => exact .one v n p2 (h.trans h') hlora hentered

theorem WaitingReady.enters (h : WaitingReady cfg a q v p goOn p') : Enters cfg p p' := by
  cases h with
  | loraBlocked p' _ hskip | unknown p' _ hskip => exact .none (skipWaiting_books hskip)
  | noTokens c t _ _ => exact .none ⟨rfl, rfl, ⟨rfl, rfl, rfl, rfl⟩⟩
  | noBlocks c t p1 enc _ _ halloc _ =>
    obtain ⟨kv, rfl⟩ := allocateWaiting_cases halloc
    exact .none ⟨rfl, rfl, ⟨rfl, rfl, rfl, rfl⟩⟩
  | loading c t p1 p' _ _ halloc _ hload =>
    obtain ⟨kv, rfl⟩ := allocateWaiting_cases halloc
    have hkv : SameBooks p { p with s := { p.s with enc := t.enc, kv } } :=
      ⟨rfl, rfl, ⟨rfl, rfl, rfl, rfl⟩⟩
    exact .none (hkv.trans (loadAsync_books hload))
  | entered c t p1 p' hlora _ _ halloc _ henter =>
    obtain ⟨kv, rfl⟩ := allocateWaiting_cases halloc
    exact .one v t.numNewTokens { p with s := { p.s with enc := t.enc, kv } }
      ⟨rfl, rfl, ⟨rfl, rfl, rfl, rfl⟩⟩ hlora (enterRunning_entered henter)

theorem WaitingTurn.enters (h : WaitingTurn cfg a p goOn p') : Enters cfg p p' := by
  cases h with
  | blocked q v p' _ _ _ hskip => exact .none (skipWaiting_books hskip)
  | ready q v goOn p' _ _ _ hready => exact hready.enters
  | promoted q v s goOn p' _ _ _ hpro hready =>
    obtain ⟨hsame, -, -, status, -, -, hq⟩ := Scheduler.tryPromote_spec hpro
    have hrun : s.running = p.s.running := congrArg Queues.running (hq [])
    have hbooks : SameBooks p { p with s } := ⟨rfl, hrun, hsame⟩
    exact .of_sameBooks hbooks hready.enters

theorem SameBooks.scheduled (h : SameBooks p p') : p'.scheduled = p.scheduled := by
  rw [← h.books]
  rfl

end Pass

namespace Scheduler

variable (cfg : SchedulerConfig) (a : Answers)

/-- The pass before its last checks. -/
def pass (s : Scheduler) : Option Pass := do
  let p ← s.runningPart cfg a
  let p ← p.recordLoras cfg
  p.waitingPart cfg a

theorem schedule_eq (s : Scheduler) : s.schedule cfg a = (s.pass cfg a).bind (finishPass cfg) := by
  simp only [schedule, pass, bind, bind_assoc]

end Scheduler

namespace Pass

variable {cfg : SchedulerConfig} {a : Answers} {p p' : Pass}

theorem pass_follows {s : Scheduler} (h : s.pass cfg a = some p) :
    Follows cfg (start cfg s) p ∧ p.stepSkippedWaiting = [] := by
  simp only [Scheduler.pass, bind, bind_eq_some_iff] at h
  obtain ⟨p1, hrun, p2, hloras, hwait⟩ := h
  have hruns := runningPart_runs hrun
  have hstep : p2.stepSkippedWaiting = [] := by
    obtain ⟨loras, rfl⟩ := recordLoras_cases hloras
    exact hruns.step
  obtain ⟨hw, hstep3⟩ := waitingPart_follows hstep hwait
  exact ⟨(hruns.toFollows.trans (recordLoras_follows hloras)).trans hw, hstep3⟩

end Pass

end Nvllm.Sched
