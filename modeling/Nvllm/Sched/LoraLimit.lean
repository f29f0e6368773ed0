import Nvllm.Sched.Orderly
import Nvllm.Sched.PassBook

/-! # The limit of LoRA adapters

A waiting request is admitted if its adapter is among those of the running requests that the pass
has scheduled, or if there is room for one more. A running request that gets no token in the pass
does not count there, so the running requests may come to have more adapters than the limit, and a
later pass that schedules all of them fails with an assertion error.

The limit holds if the running requests keep to it. This is so in a run in which, at every pass,
all running requests with an adapter are ready to get a token, or all requests together, running or
waiting, keep to the limit.
-/

namespace Nvllm.Sched

open Nvllm.KVCache Nvllm.Run List Option

namespace Scheduler

/-- The adapters of the given requests. -/
def loras (s : Scheduler) (vs : List Ref) : Finset ℕ :=
  (vs.filterMap fun v => (s.req v).lora).toFinset

variable {cfg : SchedulerConfig} {hasher : Request → Option (List Bytes)} {a : Answers}
  {s s' s'' : Scheduler} {v : Ref}

theorem mem_loras {vs : List Ref} {l : ℕ} : l ∈ s.loras vs ↔ ∃ v ∈ vs, (s.req v).lora = some l := by
  rw [loras, List.mem_toFinset, mem_filterMap]

theorem loras_subset {vs ws : List Ref} (hsub : vs ⊆ ws)
    (hlora : ∀ v ∈ vs, (s'.req v).lora = (s.req v).lora) : s'.loras vs ⊆ s.loras ws := by
  intro l hl
  obtain ⟨v, hv, hvl⟩ := mem_loras.mp hl
  exact mem_loras.mpr ⟨v, hsub hv, (hlora v hv).symm.trans hvl⟩

/-! ## Conditions -/

/-- The running request gets a token if there is budget and memory. -/
@[mk_iff]
structure Ready (cfg : SchedulerConfig) (r : Request) : Prop where
  notCapped : Pass.capped r = false
  tokens : r.numComputedTokens < r.numTokensWithSpec + r.numOutputPlaceholders
  length : r.numComputedTokens < (cfg.maxModelLen : ℤ) - 1
  textOnly : r.hasEncoderInputs = false
  noSplit : cfg.needMambaBlockAlignedSplit = false

instance (cfg : SchedulerConfig) (r : Request) : Decidable (Ready cfg r) :=
  decidable_of_iff' _ (ready_iff cfg r)

/-- All running requests with an adapter are ready, or all requests together keep to the limit. -/
def LoraSafe (cfg : SchedulerConfig) (s : Scheduler) : Prop :=
  (∀ v ∈ s.running, (s.req v).lora ≠ none → Ready cfg (s.req v)) ∨
    ∀ maxLoras ∈ cfg.maxLoras,
      (s.loras (s.running ++ s.waiting ++ s.skippedWaiting)).card ≤ maxLoras

instance (cfg : SchedulerConfig) (s : Scheduler) : Decidable (s.LoraSafe cfg) :=
  inferInstanceAs (Decidable ((∀ v ∈ _, _ → _) ∨ ∀ l ∈ _, _))

end Scheduler

/-! ## The loop over the running requests -/

namespace Pass

variable {cfg : SchedulerConfig} {a : Answers} {p p' : Pass} {v : Ref} {goOn : Bool}

variable {n : ℤ} {maxLoras : ℕ}

theorem cutLong_pos (h : 0 < n) : 0 < cutLong cfg n := by
  unfold cutLong
  split
  · rename_i hcut
    exact hcut.1
  · exact h

theorem tryRunning_pos {t : EncoderTry} (hready : Scheduler.Ready cfg (p.s.req v))
    (hbudget : 0 < p.tokenBudget) (h : p.tryRunning cfg a v = some t) : t.numNewTokens ≠ 0 := by
  have hpos : 0 < p.runningTokens cfg (p.s.req v) := by
    have hcut : 0 < cutLong cfg ((p.s.req v).numTokensWithSpec +
        (p.s.req v).numOutputPlaceholders - (p.s.req v).numComputedTokens) :=
      cutLong_pos (by have := hready.tokens; omega)
    have hlen := hready.length
    exact lt_min (lt_min hcut hbudget) (by omega)
  simp only [tryRunning, bind, bind_eq_some_iff] at h
  obtain ⟨t1, ht1, n, hn, h⟩ := h
  cases h
  rw [tryScheduleEncoderInputs, if_pos (.inr hready.textOnly)] at ht1
  cases ht1
  rw [mambaBlockAlignedSplit, if_pos hready.noSplit] at hn
  cases hn
  exact ne_of_gt hpos

/-- While nothing is preempted, every request before the index that has an adapter is scheduled. -/
def Covers (s : Scheduler) (p : Pass) : Prop :=
  p.preemptedReqs = [] → p.s.running = s.running ∧
    (∀ w, w ∉ p.scheduledRunningReqs → p.s.req w = s.req w) ∧
    ∀ w ∈ p.s.running.take p.reqIndex, (s.req w).lora ≠ none → w ∈ p.scheduledRunningReqs

/-- The index goes on from `v`. -/
theorem covers_next {l scheduled : List Ref} {i : ℕ} {P : Ref → Prop} (hv : l[i]? = some v)
    (h : ∀ w ∈ l.take i, P w → w ∈ scheduled) (hnext : P v → v ∈ scheduled) :
    ∀ w ∈ l.take (i + 1), P w → w ∈ scheduled := by
  intro w hw
  rw [take_add_one, hv] at hw
  rcases mem_append.mp hw with hw | hw
  · exact h w hw
  · rw [toList_some, mem_singleton] at hw
    rw [hw]
    exact hnext

theorem RunningTurn.covers {s : Scheduler}
    (hready : ∀ w ∈ s.running, (s.req w).lora ≠ none → Scheduler.Ready cfg (s.req w))
    (hv : p.s.running[p.reqIndex]? = some v) (hbudget : 0 < p.tokenBudget) (hp : Covers s p)
    (h : RunningTurn cfg a v p true p') : Covers s p' := by
  -- a request with an adapter that is not scheduled yet is neither capped nor without tokens
  have hskip : p.preemptedReqs = [] → (s.req v).lora ≠ none → v ∉ p.scheduledRunningReqs →
      Pass.capped (p.s.req v) = false ∧
        ∀ t, p.tryRunning cfg a v = some t → t.numNewTokens ≠ 0 := by
    intro hnil hlora hnot
    obtain ⟨hrun, hreq, -⟩ := hp hnil
    have hr := hready v (hrun ▸ mem_of_getElem? hv) hlora
    rw [← hreq v hnot] at hr
    exact ⟨hr.notCapped, fun t ht => tryRunning_pos hr hbudget ht⟩
  cases h with
  | capped hcap =>
    intro hnil
    obtain ⟨hrun, hreq, hsched⟩ := hp hnil
    refine ⟨hrun, hreq, covers_next hv hsched fun hlora => ?_⟩
    by_contra hnot
    rw [(hskip hnil hlora hnot).1] at hcap
    cases hcap
  | noTokens t _ ht hzero =>
    intro hnil
    obtain ⟨hrun, hreq, hsched⟩ := hp hnil
    refine ⟨hrun, hreq, covers_next hv hsched fun hlora => ?_⟩
    by_contra hnot
    exact (hskip hnil hlora hnot).2 t ht hzero
  | scheduled t bs p1 p' _ _ _ halloc hs =>
    simp only [scheduleRunning, bind, bind_eq_some_iff] at hs
    obtain ⟨enc, -, hs⟩ := hs
    cases hs
    intro hnil
    obtain ⟨hnil', kv, rfl⟩ := halloc.preemptedReqs.2 hnil
    obtain ⟨hrun, hreq, hsched⟩ := hp hnil'
    refine ⟨hrun, fun w hw => ?_, covers_next hv (fun w hw hlora => ?_) fun _ => ?_⟩
    · have hne : w ≠ v := fun heq => hw (heq ▸ mem_append_right _ mem_cons_self)
      have hnot : w ∉ p.scheduledRunningReqs := fun hmem => hw (mem_append_left _ hmem)
      exact (Scheduler.req_modify_of_ne _ _ hne).trans (hreq w hnot)
    · exact mem_append_left _ (hsched w hw hlora)
    · exact mem_append_right _ mem_cons_self

/-- If the loop ends without a preemption and with budget, all running requests with an adapter
are scheduled. -/
theorem runningPart_covers {s : Scheduler}
    (hready : ∀ w ∈ s.running, (s.req w).lora ≠ none → Scheduler.Ready cfg (s.req w))
    (h : s.runningPart cfg a = some p) :
    p.preemptedReqs ≠ [] ∨ p.tokenBudget ≤ 0 ∨
      ∀ w ∈ p.s.running, (s.req w).lora ≠ none → w ∈ p.scheduledRunningReqs := by
  refine runningLoop_rule (p := start cfg s) (Covers s) (fun p => p.preemptedReqs ≠ [] ∨
    p.tokenBudget ≤ 0 ∨ ∀ w ∈ p.s.running, (s.req w).lora ≠ none → w ∈ p.scheduledRunningReqs)
    ?_ ?_ ?_ (Nat.le_add_left _ _) h ?_
  · intro p v p' hv hbudget hp hturn
    exact hturn.covers hready hv hbudget hp
  · intro p v p' hv _ _ hturn
    cases hturn with
    | preempted t p' _ _ _ halloc => exact .inl (halloc.preemptedReqs.1 rfl)
  · intro p hp hend
    rcases hend with hend | hend
    · by_cases hnil : p.preemptedReqs = []
      · obtain ⟨-, -, hsched⟩ := hp hnil
        rw [take_of_length_le hend] at hsched
        exact .inr (.inr hsched)
      · exact .inl hnil
    · exact .inr (.inl hend)
  · exact fun _ => ⟨rfl, fun _ _ => rfl, fun w hw => absurd hw not_mem_nil⟩

/-! ## The loop over the waiting requests -/

/-- The adapters of the requests `vs p` are recorded and keep to the limit. -/
structure RecordsLoras (maxLoras : ℕ) (vs : Pass → List Ref) (p : Pass) : Prop where
  nodup : p.scheduledLoras.Nodup
  le : p.scheduledLoras.length ≤ maxLoras
  recorded : ∀ v ∈ vs p, ∀ l, (p.s.req v).lora = some l → l ∈ p.scheduledLoras

theorem SameBooks.scheduledLoras (h : SameBooks p p') : p'.scheduledLoras = p.scheduledLoras := by
  rw [← h.books]

theorem SameBooks.lora (h : SameBooks p p') (v : Ref) : (p'.s.req v).lora = (p.s.req v).lora :=
  h.same.field Request.lora (fun _ => rfl) v

theorem Entered.lora (h : Entered cfg v n p p') (w : Ref) : (p'.s.req w).lora = (p.s.req w).lora :=
  h.same.field Request.lora (fun _ => rfl) w

/-- The adapter of a request that becomes a running one is recorded. -/
theorem Entered.records (hmax : cfg.maxLoras = some maxLoras) (h : Entered cfg v n p p')
    (hfree : p.loraBlocked cfg (p.s.req v) = false) (hnodup : p.scheduledLoras.Nodup)
    (hle : p.scheduledLoras.length ≤ maxLoras) :
    p'.scheduledLoras.Nodup ∧ p'.scheduledLoras.length ≤ maxLoras ∧
      p.scheduledLoras ⊆ p'.scheduledLoras ∧
      ∀ l, (p.s.req v).lora = some l → l ∈ p'.scheduledLoras := by
  have hloras := h.scheduledLoras
  unfold loraBlocked at hfree
  unfold Request.lora
  rw [hmax] at hloras hfree
  cases hr : (p.s.req v).loraRequest with
  | none =>
    rw [hr] at hloras
    rw [hloras]
    exact ⟨hnodup, hle, Subset.refl _, nofun⟩
  | some lr =>
    rw [hr] at hloras hfree
    dsimp only at hloras hfree
    rw [hloras]
    refine ⟨hnodup.insert, ?_, fun l hl => mem_insert_of_mem hl, fun l hl => ?_⟩
    · by_cases hmem : lr.loraIntId ∈ p.scheduledLoras
      · rw [insert_of_mem hmem]
        exact hle
      · -- there is room for one more
        have hne : p.scheduledLoras.length ≠ maxLoras := by
          intro heq
          simp [heq, hmem] at hfree
        rw [length_insert_of_not_mem hmem]
        omega
    · rw [bind_some] at hl
      split at hl
      · cases hl
        exact mem_insert_self
      · cases hl

theorem Enters.recordsLoras {vs : Pass → List Ref} (hmax : cfg.maxLoras = some maxLoras)
    (hsame : ∀ {p p' : Pass}, SameBooks p p' → vs p' = vs p)
    (henters : ∀ {p p' : Pass} {v : Ref} {n : ℤ}, Entered cfg v n p p' →
      ∀ w ∈ vs p', w = v ∨ w ∈ vs p) (h : Enters cfg p p') (hp : p.RecordsLoras maxLoras vs) :
    p'.RecordsLoras maxLoras vs := by
  have hbooked : ∀ {p1 : Pass}, SameBooks p p1 → p1.RecordsLoras maxLoras vs := by
    intro p1 hbooks
    have hloras := hbooks.scheduledLoras
    refine ⟨hloras ▸ hp.nodup, hloras ▸ hp.le, fun v hv l hl => ?_⟩
    rw [hsame hbooks] at hv
    rw [hbooks.lora] at hl
    rw [hloras]
    exact hp.recorded v hv l hl
  cases h with
  | none hbooks => exact hbooked hbooks
  | one w n p1 hbooks hfree hentered =>
    have hp1 := hbooked hbooks
    obtain ⟨hnodup, hle, hsub, hnew⟩ := hentered.records hmax hfree hp1.nodup hp1.le
    refine ⟨hnodup, hle, fun v hv l hl => ?_⟩
    rw [hentered.lora] at hl
    rcases henters hentered v hv with rfl | hv
    · exact hnew l hl
    · exact hsub (hp1.recorded v hv l hl)

theorem Enters.recordsScheduled (hmax : cfg.maxLoras = some maxLoras) (h : Enters cfg p p') :
    p.RecordsLoras maxLoras scheduled → p'.RecordsLoras maxLoras scheduled :=
  h.recordsLoras hmax (fun hbooks => hbooks.scheduled)
    fun hentered _ hw => mem_cons.mp (hentered.scheduled_perm.mem_iff.mp hw)

theorem Enters.recordsRunning (hmax : cfg.maxLoras = some maxLoras) (h : Enters cfg p p') :
    p.RecordsLoras maxLoras (·.s.running) → p'.RecordsLoras maxLoras (·.s.running) := by
  refine h.recordsLoras hmax (fun hbooks => hbooks.running) fun hentered w hw => ?_
  rw [hentered.running, mem_append, mem_singleton] at hw
  exact hw.symm

/-- Without budget no request is admitted. -/
theorem waitingLoop_of_noBudget {fuel : ℕ} (hbudget : p.tokenBudget ≤ 0)
    (h : p.waitingLoop cfg a fuel = some p') : p' = p := by
  cases fuel with
  | zero =>
    cases h
    rfl
  | succ fuel =>
    unfold waitingLoop at h
    rw [if_neg fun hadm => absurd hadm.2.1 (not_lt.mpr hbudget)] at h
    cases h
    rfl

/-! ## The whole pass -/

theorem recordLoras_eq_some (hmax : cfg.maxLoras = some maxLoras)
    (h : p.recordLoras cfg = some p') :
    p.runningLoras.length ≤ maxLoras ∧ p' = { p with scheduledLoras := p.runningLoras } := by
  unfold recordLoras at h
  rw [hmax] at h
  dsimp only at h
  split at h
  · rename_i hle
    cases h
    exact ⟨hle, rfl⟩
  · cases h

theorem mem_runningLoras {l : ℕ} :
    l ∈ p.runningLoras ↔ ∃ v ∈ p.scheduledRunningReqs, (p.s.req v).lora = some l := by
  rw [runningLoras, mem_dedup, mem_filterMap]
  rfl

variable {s : Scheduler} {maxLoras : ℕ}

theorem runningPart_lora (h : s.runningPart cfg a = some p) (v : Ref) :
    (p.s.req v).lora = (s.req v).lora := by
  exact (runningPart_runs h).same.field Request.lora (fun _ => rfl) v

/-- The assertion holds if the running requests keep to the limit. -/
theorem recordLoras_isSome (hmax : cfg.maxLoras = some maxLoras)
    (hlimit : (s.loras s.running).card ≤ maxLoras) (h : s.runningPart cfg a = some p) :
    p.recordLoras cfg ≠ none := by
  have hle : p.runningLoras.length ≤ maxLoras := by
    have hsub : p.runningLoras.toFinset ⊆ s.loras s.running := by
      intro l hl
      obtain ⟨v, hv, hvl⟩ := mem_runningLoras.mp (List.mem_toFinset.mp hl)
      rw [runningPart_lora h] at hvl
      exact Scheduler.mem_loras.mpr ⟨v, (runningPart_subset h).2 hv, hvl⟩
    have hnodup : p.runningLoras.Nodup := nodup_dedup _
    calc p.runningLoras.length = p.runningLoras.toFinset.card :=
          (toFinset_card_of_nodup hnodup).symm
      _ ≤ (s.loras s.running).card := Finset.card_le_card hsub
      _ ≤ maxLoras := hlimit
  unfold recordLoras
  rw [hmax]
  dsimp only
  rw [if_pos hle]
  exact some_ne_none _

/-- After the adapters were recorded. -/
theorem recordLoras_records {p1 : Pass} (hmax : cfg.maxLoras = some maxLoras)
    (hrun : s.runningPart cfg a = some p1) (h : p1.recordLoras cfg = some p) :
    p.RecordsLoras maxLoras scheduled := by
  obtain ⟨hle, rfl⟩ := recordLoras_eq_some hmax h
  refine ⟨nodup_dedup _, hle, fun v hv l hl => ?_⟩
  have hruns := runningPart_runs hrun
  have hsched : v ∈ p1.scheduledRunningReqs := by
    have hv' : v ∈ p1.scheduled := hv
    rw [scheduled, hruns.new, hruns.resumed] at hv'
    exact hv'
  exact mem_runningLoras.mpr ⟨v, hsched, hl⟩

/-- The requests that a pass schedules keep to the limit. -/
theorem pass_records (hmax : cfg.maxLoras = some maxLoras) (h : s.pass cfg a = some p) :
    p.RecordsLoras maxLoras scheduled := by
  simp only [Scheduler.pass, bind, bind_eq_some_iff] at h
  obtain ⟨p1, hrun, p2, hloras, hwait⟩ := h
  have hp2 := recordLoras_records hmax hrun hloras
  unfold waitingPart at hwait
  split at hwait
  · obtain ⟨p3, hloop, hwait⟩ := bind_eq_some_iff.mp hwait
    cases hwait
    have hp3 : p3.RecordsLoras maxLoras scheduled := waitingLoop_invariant _
      (fun _ _ _ _ hp hturn => hturn.enters.recordsScheduled hmax hp) hloop hp2
    exact { hp3 with }
  · cases hwait
    exact hp2

theorem RecordsLoras.card_le {vs : Pass → List Ref} (hp : p.RecordsLoras maxLoras vs) :
    (p.s.loras (vs p)).card ≤ maxLoras := by
  have hsub : p.s.loras (vs p) ⊆ p.scheduledLoras.toFinset := by
    intro l hl
    obtain ⟨v, hv, hvl⟩ := Scheduler.mem_loras.mp hl
    exact List.mem_toFinset.mpr (hp.recorded v hv l hvl)
  calc (p.s.loras (vs p)).card ≤ p.scheduledLoras.toFinset.card := Finset.card_le_card hsub
    _ ≤ p.scheduledLoras.length := toFinset_card_le _
    _ ≤ maxLoras := hp.le

/-- After a safe pass the running requests keep to the limit. -/
theorem pass_card_le (hmax : cfg.maxLoras = some maxLoras) (hsafe : s.LoraSafe cfg)
    (hlimit : (s.loras s.running).card ≤ maxLoras) (h : s.pass cfg a = some p) :
    (p.s.loras p.s.running).card ≤ maxLoras := by
  rcases hsafe with hready | hall
  · simp only [Scheduler.pass, bind, bind_eq_some_iff] at h
    obtain ⟨p1, hrun, p2, hloras, hwait⟩ := h
    have hp2 := recordLoras_records hmax hrun hloras
    obtain ⟨-, rfl⟩ := recordLoras_eq_some hmax hloras
    have hshrunk : (p1.s.loras p1.s.running).card ≤ maxLoras :=
      (Finset.card_le_card (Scheduler.loras_subset (runningPart_subset hrun).1
        fun v _ => runningPart_lora hrun v)).trans hlimit
    unfold waitingPart at hwait
    split at hwait
    · rename_i hcond
      obtain ⟨p3, hloop, hwait⟩ := bind_eq_some_iff.mp hwait
      cases hwait
      rcases runningPart_covers hready hrun with hne | hbudget | hcov
      · exact absurd hcond.1 hne
      · have hsame := waitingLoop_of_noBudget
          (p := { p1 with scheduledLoras := p1.runningLoras }) hbudget hloop
        rw [hsame]
        exact hshrunk
      · have hrec : RecordsLoras maxLoras (·.s.running)
            { p1 with scheduledLoras := p1.runningLoras } := by
          refine ⟨hp2.nodup, hp2.le, fun v hv l hl => ?_⟩
          have hl' : (s.req v).lora ≠ none := by
            rw [← runningPart_lora hrun, hl]
            exact some_ne_none l
          exact mem_runningLoras.mpr ⟨v, hcov v hv hl', hl⟩
        have hp3 : p3.RecordsLoras maxLoras (·.s.running) := waitingLoop_invariant _
          (fun _ _ _ _ hp hturn => hturn.enters.recordsRunning hmax hp) hloop hrec
        exact hp3.card_le
    · cases hwait
      exact hshrunk
  · obtain ⟨hfollows, hstep⟩ := pass_follows h
    refine (Finset.card_le_card (Scheduler.loras_subset (fun v hv => ?_) fun v _ =>
      hfollows.same.field Request.lora (fun _ => rfl) v)).trans (hall maxLoras hmax)
    have hmem := hfollows.moves.members_perm.mem_iff.mp (mem_append_left _ hv)
    have hold : v ∈ s.running ++ (s.waiting ++ s.skippedWaiting ++ []) := hmem
    rwa [append_nil, ← append_assoc] at hold

end Pass

/-! ## Runs -/

namespace Scheduler

variable {cfg : SchedulerConfig} {hasher : Request → Option (List Bytes)} {a : Answers}
  {s s' : Scheduler} {maxLoras : ℕ}

/-- The running requests keep to the limit; references are given out in order. -/
structure LoraBound (maxLoras : ℕ) (s : Scheduler) : Prop extends Numbered s where
  limit : (s.loras s.running).card ≤ maxLoras

theorem LoraBound.of_narrows (h : s.LoraBound maxLoras) (hn : Narrows s s') :
    s'.LoraBound maxLoras where
  toNumbered := h.toNumbered.narrowed hn
  limit := (Finset.card_le_card (loras_subset hn.running fun v _ => hn.lora v)).trans h.limit

theorem LoraBound.addNewRequest (h : s.LoraBound maxLoras) (r : Request) :
    (s.addNewRequest cfg r).LoraBound maxLoras := by
  obtain ⟨r', hadds⟩ := addNewRequest_adds cfg s r
  refine ⟨h.toNumbered.addNewRequest r, ?_⟩
  rw [hadds.running]
  refine (Finset.card_le_card (loras_subset (Subset.refl _) fun v hv => ?_)).trans h.limit
  rw [hadds.others v (Nat.ne_of_lt (h.bounded v (.inl hv)))]

theorem LoraBound.addRequest (h : s.LoraBound maxLoras) {q : Request.EngineCoreRequest}
    (hs : s.addRequest cfg hasher a q = some s') : s'.LoraBound maxLoras := by
  obtain ⟨r, -, hadds⟩ := addRequest_cases hs
  cases hadds with
  | new _ => exact h.addNewRequest r
  | queued v queue _ _ _ => exact h.of_narrows (.modify rfl rfl rfl)
  | continued v update r' _ hstatus _ hr' =>
    have hcont := Request.updateAsSession_continues hr'
    have hlora : r'.lora = (s.req v).lora := by
      rw [Request.lora, hcont.loraRequest]
      rfl
    have hfin : r'.isFinished = (s.req v).isFinished := by
      rw [Request.isFinished, hcont.status, Request.isFinished, hstatus]
      rfl
    have hn : Narrows s (s.modify v fun _ => r') := .modify hlora hcont.requestId hfin
    exact h.of_narrows { hn with }
  | closed v s' _ _ hfin => exact h.of_narrows (finishRequests_narrows h.known hfin)

theorem LoraBound.schedule (hmax : cfg.maxLoras = some maxLoras) (h : s.LoraBound maxLoras)
    (hsafe : s.LoraSafe cfg) {out : SchedulerOutput} (hs : s.schedule cfg a = some (out, s')) :
    s'.LoraBound maxLoras := by
  obtain ⟨hsame, hmoves⟩ := schedule_moves hs
  refine ⟨h.toNumbered.of_moves hsame hmoves, ?_⟩
  · rw [schedule_eq] at hs
    obtain ⟨p, hp, hfin⟩ := bind_eq_some_iff.mp hs
    obtain ⟨hsame', hq⟩ := finishPass_spec hfin
    have hrun : s'.running = p.s.running := congrArg Queues.running (hq [])
    rw [hrun]
    refine (Finset.card_le_card (loras_subset (Subset.refl _) fun v _ => ?_)).trans
      (Pass.pass_card_le hmax hsafe h.limit hp)
    exact hsame'.field Request.lora (fun _ => rfl) v

/-- A pass from this state keeps to the limit: the assertion on the running requests holds, and the
scheduled requests have no more adapters than there may be. -/
structure KeepsLimit (cfg : SchedulerConfig) (a : Answers) (maxLoras : ℕ) (s : Scheduler) :
    Prop where
  asserted : ∀ p, s.runningPart cfg a = some p → p.recordLoras cfg ≠ none
  scheduled : ∀ p, s.pass cfg a = some p → (p.s.loras p.scheduled).card ≤ maxLoras

end Scheduler

namespace Engine

variable {cfg : SchedulerConfig} {hasher : Request → Option (List Bytes)} {maxLoras : ℕ}

/-- Before a pass, the adapters of the running requests are safe. -/
def LoraSafe (cfg : SchedulerConfig) (e : Engine) : Event → Prop
  | .schedule _ => e.s.LoraSafe cfg
  | _ => True

instance (e : Engine) (ev : Event) : Decidable (e.LoraSafe cfg ev) :=
  match ev with
  | .schedule _ => inferInstanceAs (Decidable (e.s.LoraSafe cfg))
  | .addRequest _ _ | .finishRequests _ _ _ | .updateFromOutput _ _ | .updateDraftTokenIds _
  | .resetPrefixCache _ | .resetEncoderCache | .setPauseState _ => isTrue trivial

theorem step_loraBound (hmax : cfg.maxLoras = some maxLoras) {e e' : Engine} {ev : Event}
    (h : e.s.LoraBound maxLoras) (hsafe : e.LoraSafe cfg ev)
    (hstep : e.step cfg hasher ev = some e') : e'.s.LoraBound maxLoras := by
  cases step_cases hstep with
  | addRequest q a s hs => exact h.addRequest hs
  | finishRequests ids status a s hs =>
    exact h.of_narrows (Scheduler.finishRequests_narrows h.known hs)
  | schedule a out s hs => exact h.schedule hmax hsafe hs
  | updateFromOutput m a out rest s hf hs =>
    exact h.of_narrows (Scheduler.updateFromOutput_narrows h.known hs)
  | updateDraftTokenIds drafts =>
    exact h.of_narrows
      (.of_sameQueues (Scheduler.updateDraftTokenIds_recounts drafts e.s).toSameQueues)
  | resetPrefixCache b s hs => exact h.of_narrows (Scheduler.resetPrefixCache_narrows hs)
  | resetEncoderCache | setPauseState p => exact { h with }

/-- **The limit of adapters.** In every state of a run whose passes are safe, the next pass keeps to
the limit. -/
theorem keepsLimit_of_loraSafe (hmax : cfg.maxLoras = some maxLoras) {kv : KVCacheManager}
    {enc : EncoderCacheManager} {e : Engine}
    (h : Reach (step cfg hasher) (LoraSafe cfg) (init kv enc) e) (a : Answers) :
    e.s.KeepsLimit cfg a maxLoras := by
  have hinv : e.s.LoraBound maxLoras := by
    refine h.invariant (fun e => e.s.LoraBound maxLoras) ?_ ?_
    · exact ⟨Scheduler.numbered_init kv enc, Nat.zero_le _⟩
    · exact fun e ev e' hinv hsafe hstep => step_loraBound hmax hinv hsafe hstep
  exact ⟨fun p hp => Pass.recordLoras_isSome hmax hinv.limit hp,
    fun p hp => (Pass.pass_records hmax hp).card_le⟩

/-- One adapter at a time. -/
def loraConfig : SchedulerConfig where
  maxNumRunningReqs := 4
  maxNumScheduledTokens := 16
  maxModelLen := 16
  blockSize := 4
  maxLoras := some 1

def loraInput (id adapter : ℕ) : Request.EngineCoreRequest where
  requestId := id
  promptTokenIds := [1, 2]
  loraRequest := some { loraName := "adapter", loraIntId := adapter }

/-- A second request comes while the step of the first one is executing; then both steps end. -/
def loraEvents (adapter : ℕ) : List Event :=
  [.addRequest (loraInput 1 1) {}, .schedule {}, .addRequest (loraInput 2 adapter) {},
    .schedule {}, .updateFromOutput { sampledTokenIds := fun _ => [7] } {},
    .updateFromOutput { sampledTokenIds := fun _ => [7] } {}]

/-- The first request gets no token in the second pass, so the second one is admitted with another
adapter. When both have a token, the third pass fails. -/
theorem skipped_adapter_is_forgotten : ∃ e0 e, startFull 16 16 = some e0 ∧
    run (step loraConfig fun _ => some []) e0 (loraEvents 2) = some e ∧
    e.s.running = [0, 1] ∧ (∃ p, e.s.runningPart loraConfig {} = some p ∧
      p.recordLoras loraConfig = none) ∧ e.s.schedule loraConfig {} = none ∧
    ¬e.s.KeepsLimit loraConfig {} 1 := by
  obtain ⟨e0, he0, e, he, hrunning, p, hp, hnone⟩ : ∃ e0 ∈ startFull 16 16,
      ∃ e ∈ run (step loraConfig fun _ => some []) e0 (loraEvents 2), e.s.running = [0, 1] ∧
        ∃ p ∈ e.s.runningPart loraConfig {}, p.recordLoras loraConfig = none := by
    decide +kernel
  rw [mem_def] at hp
  refine ⟨e0, e, he0, he, hrunning, ⟨p, hp, hnone⟩, ?_,
    fun hkeeps => hkeeps.asserted p hp hnone⟩
  simp only [Scheduler.schedule, bind, hp, bind_some, hnone, bind_none]

/-- A second request with the same adapter. -/
theorem same_adapter_keeps_limit : ∃ kv e,
    Reach (step loraConfig fun _ => some []) (LoraSafe loraConfig)
      (init kv (.init false 0)) e ∧ e.s.running = [0, 1] ∧ e.s.KeepsLimit loraConfig {} 1 := by
  obtain ⟨e0, he0, e, he, hrunning⟩ : ∃ e0 ∈ startFull 16 16,
      ∃ e ∈ run (guarded (LoraSafe loraConfig) (step loraConfig fun _ => some [])) e0
        (loraEvents 1), e.s.running = [0, 1] := by
    decide +kernel
  obtain ⟨kv, -, rfl⟩ := map_eq_some_iff.mp he0
  have hreach := Reach.of_guarded_run .init he
  exact ⟨kv, e, hreach, hrunning, keepsLimit_of_loraSafe rfl hreach {}⟩

end Engine

end Nvllm.Sched
