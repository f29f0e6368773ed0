import Nvllm.Sched.Schedule

/-! # What a turn of a pass can do

Inversion of the two loops of `schedule`, for results about the books of a pass (who is scheduled
and for how many tokens, the budgets) and about the caches. `RunningTurn` lists what a turn of the
loop over the running requests can do and `WaitingTurn` what a turn of the loop over the waiting
ones can do; `runningLoop_rule` and `waitingLoop_invariant` are the induction rules of the
loops. The fuel of the inner loops is enough, so running out of it is none of the cases.
-/

namespace Nvllm.Sched

open Nvllm.KVCache List Option

namespace Pass

variable {cfg : SchedulerConfig} {a : Answers} {p p' : Pass} {v : Ref} {goOn : Bool}

/-! ## Running requests -/

/-- The pass after a preempted request that was already scheduled gave its tokens back. -/
def takeBack (p : Pass) (v : Ref) (n : ℤ) (embeds : ℕ) : Pass :=
  { p with
    scheduledRunningReqs := p.scheduledRunningReqs.erase v
    tokenBudget := p.tokenBudget + n
    numScheduledTokens := p.numScheduledTokens.erase (p.s.req v).requestId
    reqToNewBlocks := p.reqToNewBlocks.erase (p.s.req v).requestId
    scheduledSpecDecodeTokens := p.scheduledSpecDecodeTokens.erase (p.s.req v).requestId
    scheduledEncoderInputs := p.scheduledEncoderInputs.erase (p.s.req v).requestId
    encoderComputeBudget := p.encoderComputeBudget + embeds
    reqIndex := p.reqIndex - 1 }

/-- One request is preempted. -/
inductive Preempts (cfg : SchedulerConfig) (v : Ref) (p : Pass) : Pass → Prop
  | plain (rest : List Ref) (s : Scheduler) : victim cfg p.s = some (v, rest) →
      ¬(cfg.policy = .priority ∧ v ∈ p.scheduledRunningReqs) →
      Scheduler.preemptRequest cfg { p.s with running := rest } v = some s →
      Preempts cfg v p { p with s, preemptedReqs := p.preemptedReqs ++ [v] }
  | scheduled (rest : List Ref) (s : Scheduler) (n : ℤ) (embeds : List ℕ)
      (blocks : List (List BlockId)) :
      victim cfg p.s = some (v, rest) → cfg.policy = .priority → v ∈ p.scheduledRunningReqs →
      p.numScheduledTokens.get? (p.s.req v).requestId = some n →
      p.reqToNewBlocks.get? (p.s.req v).requestId = some blocks →
      (p.scheduledEncoderInputs.getD (p.s.req v).requestId []).mapM
        (p.s.req v).getNumEncoderEmbeds = some embeds →
      Scheduler.preemptRequest cfg { p.s with running := rest } v = some s →
      Preempts cfg v p
        { p.takeBack v n embeds.sum with s, preemptedReqs := p.preemptedReqs ++ [v] }

theorem preempt_cases (h : p.preempt cfg = some (v, p')) : Preempts cfg v p p' := by
  simp only [preempt, bind, bind_eq_some_iff] at h
  obtain ⟨⟨w, rest⟩, hv, p1, hu, s, hs, h⟩ := h
  cases h
  unfold unschedule at hu
  split at hu
  · rename_i hsched
    simp only [bind, bind_eq_some_iff] at hu
    obtain ⟨n, hn, bs, hbs, embeds, hembeds, hu⟩ := hu
    cases hu
    exact .scheduled rest s n embeds bs hv hsched.1 hsched.2 hn hbs hembeds hs
  · rename_i hplain
    cases hu
    exact .plain rest s hv hplain hs

variable {s s' : Scheduler} {fuel : ℕ}

/-- Which request is preempted. -/
theorem victim_cases {rest : List Ref} (h : victim cfg s = some (v, rest)) :
    (cfg.policy = .priority ∧ latest s s.running = some v ∧ rest = s.running.erase v) ∨
      (cfg.policy = .fcfs ∧ s.running.getLast? = some v ∧ rest = s.running.dropLast) := by
  unfold victim at h
  split at h
  · rename_i hpolicy
    obtain ⟨w, hw, h⟩ := map_eq_some_iff.mp h
    cases h
    exact .inl ⟨hpolicy, hw, rfl⟩
  · rename_i hpolicy
    obtain ⟨w, hw, h⟩ := map_eq_some_iff.mp h
    cases h
    exact .inr ⟨hpolicy, hw, rfl⟩

theorem mem_of_latest {vs : List Ref} (h : latest s vs = some v) : v ∈ vs := by
  induction vs generalizing v with
  | nil => cases h
  | cons w vs ih =>
    unfold latest at h
    split at h
    · cases h
      exact mem_cons_self
    · rename_i u hu
      dsimp only at h
      split at h
      · cases h
        exact mem_cons_of_mem w (ih hu)
      · cases h
        exact mem_cons_self

theorem victim_spec {rest : List Ref} (h : victim cfg s = some (v, rest)) :
    s.running.Perm (v :: rest) ∧ rest.Sublist s.running := by
  rcases victim_cases h with ⟨-, hv, rfl⟩ | ⟨-, hv, rfl⟩
  · exact ⟨perm_cons_erase (mem_of_latest hv), erase_sublist⟩
  · have hrun : s.running.dropLast ++ [v] = s.running := dropLast_append_getLast? v hv
    refine ⟨?_, dropLast_sublist _⟩
    nth_rewrite 1 [← hrun]
    exact perm_append_singleton v _

theorem Preempts.mem_running (h : Preempts cfg v p p') : v ∈ p.s.running := by
  cases h with
  | plain rest s hv _ _ => exact (victim_spec hv).1.mem_iff.mpr mem_cons_self
  | scheduled rest s n embeds _ hv _ _ _ _ _ _ =>
    exact (victim_spec hv).1.mem_iff.mpr mem_cons_self

theorem preemptRequest_eq_some (h : s.preemptRequest cfg v = some s') :
    (s.req v).status = .running ∧ ∃ kv enc, s.kv.free (s.req v).requestId = some kv ∧
      s.enc.free (s.req v) = some enc ∧
      s' = (Scheduler.modify { s with kv, enc } v Request.preempted).prependWaiting cfg v := by
  unfold Scheduler.preemptRequest at h
  split at h
  · rename_i hrun
    simp only [bind, bind_eq_some_iff] at h
    obtain ⟨kv, hkv, enc, henc, h⟩ := h
    cases h
    exact ⟨hrun, kv, enc, hkv, henc, rfl⟩
  · cases h

theorem preemptRequest_req (h : s.preemptRequest cfg v = some s') :
    s'.req v = (s.req v).preempted ∧ ∀ w, w ≠ v → s'.req w = s.req w := by
  obtain ⟨-, kv, enc, -, -, rfl⟩ := preemptRequest_eq_some h
  exact ⟨Scheduler.req_modify_self _ _ _, fun w hw => Scheduler.req_modify_of_ne _ _ hw⟩

theorem preemptRequest_running (h : s.preemptRequest cfg v = some s') : s'.running = s.running := by
  obtain ⟨-, kv, enc, -, -, rfl⟩ := preemptRequest_eq_some h
  rfl

/-- The others stay. -/
theorem Preempts.running (h : Preempts cfg v p p') : victim cfg p.s = some (v, p'.s.running) := by
  cases h with
  | plain rest s hv _ hs | scheduled rest s n embeds _ hv _ _ _ _ _ hs =>
    rw [preemptRequest_running hs, hv]

theorem Preempts.preemptedReqs (h : Preempts cfg v p p') :
    p'.preemptedReqs = p.preemptedReqs ++ [v] := by
  cases h <;> rfl

/-- What `allocate_slots` is asked for a running request. -/
def slotsFor (cfg : SchedulerConfig) (n : ℤ) : KVCacheManager.SlotArgs :=
  { numNewTokens := n, numLookaheadTokens := cfg.numLookaheadTokens }

/-- The inner loop: requests are preempted until there are blocks or the request itself is
preempted. -/
inductive Allocates (cfg : SchedulerConfig) (v : Ref) (n : ℤ) :
    Pass → Option (List (List BlockId)) → Pass → Prop
  | granted {p : Pass} (r : KVRequest) (bs : List (List BlockId)) (kv : KVCacheManager) :
      (p.s.req v).toKV = some r →
      p.s.kv.allocateSlots r 0 p.s.kv.emptyHits (slotsFor cfg n) = some (some bs, kv) →
      Allocates cfg v n p (some bs) { p with s := { p.s with kv } }
  | itself {p p' : Pass} (r : KVRequest) (kv : KVCacheManager) :
      (p.s.req v).toKV = some r →
      p.s.kv.allocateSlots r 0 p.s.kv.emptyHits (slotsFor cfg n) = some (none, kv) →
      Preempts cfg v { p with s := { p.s with kv } } p' →
      Allocates cfg v n p none p'
  | other {p p1 p' : Pass} {newBlocks : Option (List (List BlockId))} (r : KVRequest)
      (kv : KVCacheManager) (w : Ref) : (p.s.req v).toKV = some r →
      p.s.kv.allocateSlots r 0 p.s.kv.emptyHits (slotsFor cfg n) = some (none, kv) →
      Preempts cfg w { p with s := { p.s with kv } } p1 → w ≠ v →
      Allocates cfg v n p1 newBlocks p' → Allocates cfg v n p newBlocks p'

/-- Every round takes a request other than `v` from the list, so the fuel is enough. -/
theorem allocateOrPreempt_cases {n : ℤ} {newBlocks : Option (List (List BlockId))}
    (hv : v ∈ p.s.running) (hfuel : p.s.running.length ≤ fuel)
    (h : p.allocateOrPreempt cfg v n fuel = some (newBlocks, p')) :
    Allocates cfg v n p newBlocks p' := by
  induction fuel generalizing p with
  | zero =>
    have hpos := length_pos_of_mem hv
    omega
  | succ fuel ih =>
    simp only [allocateOrPreempt, bind, bind_eq_some_iff] at h
    obtain ⟨r, hr, ⟨bs, kv⟩, hkv, h⟩ := h
    cases bs with
    | some bs =>
      cases h
      exact .granted r bs kv hr hkv
    | none =>
      obtain ⟨⟨w, p1⟩, hp, h⟩ := bind_eq_some_iff.mp h
      have hpre := preempt_cases hp
      dsimp only at h
      split at h
      · rename_i heq
        cases h
        rw [heq] at hpre
        exact .itself r kv hr hkv hpre
      · rename_i hne
        have hperm : p.s.running.Perm (w :: p1.s.running) := (victim_spec hpre.running).1
        have hlen := hperm.length_eq
        rw [length_cons] at hlen
        refine .other r kv w hr hkv hpre hne (ih ?_ (by omega) h)
        exact (mem_cons.mp (hperm.mem_iff.mp hv)).resolve_left (Ne.symm hne)

/-- A running request is skipped, is or is not scheduled. -/
inductive RunningTurn (cfg : SchedulerConfig) (a : Answers) (v : Ref) (p : Pass) :
    Bool → Pass → Prop
  | capped : capped (p.s.req v) = true →
      RunningTurn cfg a v p true { p with reqIndex := p.reqIndex + 1 }
  | noTokens (t : EncoderTry) : capped (p.s.req v) = false → p.tryRunning cfg a v = some t →
      t.numNewTokens = 0 →
      RunningTurn cfg a v p true
        { p with s := { p.s with enc := t.enc }, reqIndex := p.reqIndex + 1 }
  | preempted (t : EncoderTry) (p' : Pass) : capped (p.s.req v) = false →
      p.tryRunning cfg a v = some t → t.numNewTokens ≠ 0 →
      Allocates cfg v t.numNewTokens { p with s := { p.s with enc := t.enc } } none p' →
      RunningTurn cfg a v p false p'
  | scheduled (t : EncoderTry) (bs : List (List BlockId)) (p1 p' : Pass) :
      capped (p.s.req v) = false → p.tryRunning cfg a v = some t → t.numNewTokens ≠ 0 →
      Allocates cfg v t.numNewTokens { p with s := { p.s with enc := t.enc } } (some bs) p1 →
      p1.scheduleRunning v t bs = some p' →
      RunningTurn cfg a v p true p'

theorem runningTurn_cases (hv : v ∈ p.s.running) (h : p.runningTurn cfg a v = some (goOn, p')) :
    RunningTurn cfg a v p goOn p' := by
  unfold runningTurn at h
  split at h
  · rename_i hcap
    cases h
    exact .capped hcap
  · rename_i hcap
    rw [Bool.not_eq_true] at hcap
    simp only [bind, bind_eq_some_iff] at h
    obtain ⟨t, ht, h⟩ := h
    split at h
    · rename_i hzero
      cases h
      exact .noTokens t hcap ht hzero
    · rename_i hne
      obtain ⟨⟨newBlocks, p1⟩, halloc, h⟩ := bind_eq_some_iff.mp h
      have hcases := allocateOrPreempt_cases (p := { p with s := { p.s with enc := t.enc } }) hv
        (Nat.le_refl _) halloc
      cases newBlocks with
      | none =>
        cases h
        exact .preempted t p1 hcap ht hne hcases
      | some bs =>
        obtain ⟨p2, hs, h⟩ := bind_eq_some_iff.mp h
        cases h
        exact .scheduled t bs p1 p' hcap ht hne hcases hs

/-- A preemption brings the index no further from the end of the list. -/
theorem Preempts.shortens (h : Preempts cfg v p p') :
    p'.s.running.length + p.reqIndex ≤ p.s.running.length + p'.reqIndex := by
  have hlen := (victim_spec h.running).1.length_eq
  rw [length_cons] at hlen
  cases h with
  | plain rest s _ _ _ => exact Nat.add_le_add_right (by omega) _
  | scheduled rest s n embeds _ _ _ _ _ _ _ _ =>
    show s.running.length + p.reqIndex ≤ p.s.running.length + (p.reqIndex - 1)
    replace hlen : p.s.running.length = s.running.length + 1 := hlen
    omega

theorem Allocates.shortens {n : ℤ} {newBlocks : Option (List (List BlockId))}
    (h : Allocates cfg v n p newBlocks p') :
    p'.s.running.length + p.reqIndex ≤ p.s.running.length + p'.reqIndex := by
  induction h with
  | granted r bs kv _ _ => exact Nat.le_refl _
  | itself r kv _ _ hpre => exact hpre.shortens
  | @other p p1 p' newBlocks r kv w _ _ hpre _ _ ih =>
    have hone : p1.s.running.length + p.reqIndex ≤ p.s.running.length + p1.reqIndex :=
      hpre.shortens
    omega

theorem scheduleRunning_books {t : EncoderTry} {newBlocks : List (List BlockId)}
    (h : p.scheduleRunning v t newBlocks = some p') :
    p'.s.running = p.s.running ∧ p'.reqIndex = p.reqIndex + 1 := by
  simp only [scheduleRunning, bind, bind_eq_some_iff] at h
  obtain ⟨enc, -, h⟩ := h
  cases h
  exact ⟨rfl, rfl⟩

/-- A turn after which the loop goes on brings the index closer to the end of the list. -/
theorem RunningTurn.shortens (h : RunningTurn cfg a v p true p') :
    p'.s.running.length + p.reqIndex < p.s.running.length + p'.reqIndex := by
  cases h with
  | capped _ | noTokens t _ _ _ => exact Nat.lt_succ_self _
  | scheduled t bs p1 p' _ _ _ halloc hs =>
    obtain ⟨hrun, hidx⟩ := scheduleRunning_books hs
    have hone : p1.s.running.length + p.reqIndex ≤ p.s.running.length + p1.reqIndex :=
      halloc.shortens
    rw [hrun, hidx]
    omega

/-- The rule of the loop over the running requests: it keeps `Inv` while it goes on, and ends with
a preempted request, with the last request or without budget. -/
theorem runningLoop_rule (Inv Post : Pass → Prop)
    (hturn : ∀ p v p', p.s.running[p.reqIndex]? = some v → 0 < p.tokenBudget → Inv p →
      RunningTurn cfg a v p true p' → Inv p')
    (hlast : ∀ p v p', p.s.running[p.reqIndex]? = some v → 0 < p.tokenBudget → Inv p →
      RunningTurn cfg a v p false p' → Post p')
    (hend : ∀ p, Inv p → p.s.running.length ≤ p.reqIndex ∨ p.tokenBudget ≤ 0 → Post p)
    (hfuel : p.s.running.length ≤ p.reqIndex + fuel) (h : p.runningLoop cfg a fuel = some p')
    (hp : Inv p) : Post p' := by
  induction fuel generalizing p with
  | zero =>
    cases h
    exact hend p' hp (.inl hfuel)
  | succ fuel ih =>
    unfold runningLoop at h
    split at h
    · rename_i hnone
      cases h
      exact hend p' hp (.inl (getElem?_eq_none_iff.mp hnone))
    · rename_i v hv
      split at h
      · rename_i hbudget
        cases h
        exact hend p' hp (.inr hbudget)
      · rename_i hbudget
        obtain ⟨⟨goOn, p1⟩, hone, h⟩ := bind_eq_some_iff.mp h
        have hcases := runningTurn_cases (mem_of_getElem? hv) hone
        cases goOn with
        | true =>
          have hshort := hcases.shortens
          exact ih (by omega) h (hturn p v p1 hv (not_le.mp hbudget) hp hcases)
        | false =>
          cases h
          exact hlast p v p' hv (not_le.mp hbudget) hp hcases

/-- What every turn keeps holds after the loop over the running requests. -/
theorem runningPart_invariant (Inv : Pass → Prop)
    (hturn : ∀ p v goOn p', v ∈ p.s.running → Inv p → RunningTurn cfg a v p goOn p' → Inv p')
    (h : s.runningPart cfg a = some p') (hp : Inv (start cfg s)) : Inv p' :=
  runningLoop_rule (p := start cfg s) Inv Inv
    (fun p v p' hv _ => hturn p v true p' (mem_of_getElem? hv))
    (fun p v p' hv _ => hturn p v false p' (mem_of_getElem? hv)) (fun _ hp _ => hp)
    (Nat.le_add_left _ _) h hp

theorem recordLoras_cases (h : p.recordLoras cfg = some p') :
    ∃ scheduledLoras, p' = { p with scheduledLoras } := by
  unfold recordLoras at h
  split at h
  · cases h
    exact ⟨_, rfl⟩
  · split at h
    · cases h
      exact ⟨_, rfl⟩
    · cases h

/-! ## Waiting requests -/

/-- What can happen to the request at the head of a queue that is not blocked. -/
inductive WaitingReady (cfg : SchedulerConfig) (a : Answers) (q : Scheduler.QueueName) (v : Ref)
    (p : Pass) : Bool → Pass → Prop
  | loraBlocked (p' : Pass) : p.loraBlocked cfg (p.s.req v) = true →
      p.skipWaiting cfg q v = some p' → WaitingReady cfg a q v p true p'
  | unknown (p' : Pass) : p.lookUpComputed cfg a (p.s.req v) = some none →
      p.skipWaiting cfg q v = some p' → WaitingReady cfg a q v p true p'
  | noTokens (c : Computed) (t : EncoderTry) : p.lookUpComputed cfg a (p.s.req v) = some (some c) →
      p.tryWaiting cfg a (p.s.req v) c = some (false, t) →
      WaitingReady cfg a q v p false { p with s := { p.s with enc := t.enc } }
  | noBlocks (c : Computed) (t : EncoderTry) (p1 : Pass) (enc : EncoderCacheManager) :
      p.lookUpComputed cfg a (p.s.req v) = some (some c) →
      p.tryWaiting cfg a (p.s.req v) c = some (true, t) →
      allocateWaiting cfg { p with s := { p.s with enc := t.enc } } v c t = some (false, p1) →
      (if (p.s.req v).hasEncoderInputs then p1.s.enc.free (p.s.req v) else some p1.s.enc) =
        some enc →
      WaitingReady cfg a q v p false { p1 with s := { p1.s with enc } }
  | loading (c : Computed) (t : EncoderTry) (p1 p' : Pass) :
      p.lookUpComputed cfg a (p.s.req v) = some (some c) →
      p.tryWaiting cfg a (p.s.req v) c = some (true, t) →
      allocateWaiting cfg { p with s := { p.s with enc := t.enc } } v c t = some (true, p1) →
      c.loadKvAsync = true → p1.loadAsync cfg q v c = some p' →
      WaitingReady cfg a q v p true p'
  | entered (c : Computed) (t : EncoderTry) (p1 p' : Pass) :
      p.loraBlocked cfg (p.s.req v) = false →
      p.lookUpComputed cfg a (p.s.req v) = some (some c) →
      p.tryWaiting cfg a (p.s.req v) c = some (true, t) →
      allocateWaiting cfg { p with s := { p.s with enc := t.enc } } v c t = some (true, p1) →
      c.loadKvAsync = false → p1.enterRunning cfg q v c t = some p' →
      WaitingReady cfg a q v p true p'

theorem waitingReady_cases {q : Scheduler.QueueName}
    (h : p.waitingReady cfg a q v = some (goOn, p')) : WaitingReady cfg a q v p goOn p' := by
  unfold waitingReady at h
  dsimp only at h
  split at h
  · rename_i hlora
    obtain ⟨p1, hskip, h⟩ := bind_eq_some_iff.mp h
    cases h
    exact .loraBlocked p' hlora hskip
  · rename_i hlora
    rw [Bool.not_eq_true] at hlora
    obtain ⟨c, hc, h⟩ := bind_eq_some_iff.mp h
    cases c with
    | none =>
      obtain ⟨p1, hskip, h⟩ := bind_eq_some_iff.mp h
      cases h
      exact .unknown p' hc hskip
    | some c =>
      obtain ⟨⟨goOn', t⟩, ht, h⟩ := bind_eq_some_iff.mp h
      cases goOn' with
      | false =>
        cases h
        exact .noTokens c t hc ht
      | true =>
        obtain ⟨⟨granted, p1⟩, halloc, h⟩ := bind_eq_some_iff.mp h
        cases granted with
        | false =>
          obtain ⟨enc, henc, h⟩ := bind_eq_some_iff.mp h
          cases h
          exact .noBlocks c t p1 enc hc ht halloc henc
        | true =>
          obtain ⟨p2, hp2, h⟩ := bind_eq_some_iff.mp h
          cases h
          split at hp2
          · exact .loading c t p1 p' hc ht halloc ‹_› hp2
          · rename_i hasync
            rw [Bool.not_eq_true] at hasync
            exact .entered c t p1 p' hlora hc ht halloc hasync hp2

theorem allocateWaiting_cases {c : Computed} {t : EncoderTry} {granted : Bool}
    (h : p.allocateWaiting cfg v c t = some (granted, p')) :
    ∃ kv, p' = { p with s := { p.s with kv } } := by
  simp only [allocateWaiting, bind, bind_eq_some_iff] at h
  obtain ⟨r, -, n, -, fits, -, h⟩ := h
  split at h
  · obtain ⟨⟨newBlocks, kv⟩, -, h⟩ := bind_eq_some_iff.mp h
    cases h
    exact ⟨kv, rfl⟩
  · cases h
    exact ⟨p.s.kv, rfl⟩

/-- A blocked request is promoted or not. -/
inductive Promotes (cfg : SchedulerConfig) (s : Scheduler) (v : Ref) : Bool → Scheduler → Prop
  | no : (s.req v).status.isBlocked = true → Promotes cfg s v false s
  | grammar : (s.req v).status = .waitingForStructuredOutputGrammar →
      Promotes cfg s v true (s.modify v fun r => { r with status := .waiting })
  | received (s1 : Scheduler) : (s.req v).status = .waitingForRemoteKvs →
      s.updateWaitingForRemoteKv cfg v = some s1 →
      Promotes cfg s v true (s1.modify v fun r => { r with
        status := if (s.req v).numPreemptions = 0 then .waiting else .preempted })

theorem tryPromote_cases {promoted : Bool}
    (h : s.tryPromoteBlockedWaitingRequest cfg a v = some (promoted, s')) :
    Promotes cfg s v promoted s' := by
  unfold Scheduler.tryPromoteBlockedWaitingRequest at h
  dsimp only at h
  split at h
  · rename_i hstatus
    split at h
    · obtain ⟨s1, hs1, h⟩ := bind_eq_some_iff.mp h
      cases h
      exact .received s1 hstatus hs1
    · cases h
      exact .no (by rw [hstatus]; rfl)
  · rename_i hstatus
    split at h
    · cases h
      exact .grammar hstatus
    · cases h
      exact .no (by rw [hstatus]; rfl)
  · rename_i hstatus
    split at h
    · cases h
      exact .no (by rw [hstatus]; rfl)
    · cases h
  · cases h

/-- A blocked request that is not promoted is skipped. Another one is ready. -/
inductive WaitingTurn (cfg : SchedulerConfig) (a : Answers) (p : Pass) : Bool → Pass → Prop
  | blocked (q : Scheduler.QueueName) (v : Ref) (p' : Pass) :
      p.s.selectWaitingQueueForScheduling cfg = some q →
      RequestQueue.peekRequest (p.s.queue q) = some v → (p.s.req v).status.isBlocked = true →
      p.skipWaiting cfg q v = some p' → WaitingTurn cfg a p true p'
  | ready (q : Scheduler.QueueName) (v : Ref) (goOn : Bool) (p' : Pass) :
      p.s.selectWaitingQueueForScheduling cfg = some q →
      RequestQueue.peekRequest (p.s.queue q) = some v → (p.s.req v).status.isBlocked = false →
      WaitingReady cfg a q v p goOn p' → WaitingTurn cfg a p goOn p'
  | promoted (q : Scheduler.QueueName) (v : Ref) (s : Scheduler) (goOn : Bool) (p' : Pass) :
      p.s.selectWaitingQueueForScheduling cfg = some q →
      RequestQueue.peekRequest (p.s.queue q) = some v → (p.s.req v).status.isBlocked = true →
      p.s.tryPromoteBlockedWaitingRequest cfg a v = some (true, s) →
      WaitingReady cfg a q v { p with s } goOn p' → WaitingTurn cfg a p goOn p'

theorem waitingTurn_cases (h : p.waitingTurn cfg a = some (goOn, p')) :
    WaitingTurn cfg a p goOn p' := by
  simp only [waitingTurn, bind, bind_eq_some_iff] at h
  obtain ⟨q, hq, v, hpeek, h⟩ := h
  split at h
  · rename_i hblocked
    obtain ⟨⟨promoted, s⟩, hpro, h⟩ := bind_eq_some_iff.mp h
    cases promoted with
    | true => exact .promoted q v s goOn p' hq hpeek hblocked hpro (waitingReady_cases h)
    | false =>
      cases tryPromote_cases hpro
      obtain ⟨p1, hskip, h⟩ := bind_eq_some_iff.mp h
      cases h
      exact .blocked q v p' hq hpeek hblocked hskip
  · rename_i hfree
    rw [Bool.not_eq_true] at hfree
    exact .ready q v goOn p' hq hpeek hfree (waitingReady_cases h)

/-- The induction rule of the loop over the waiting requests. -/
theorem waitingLoop_invariant (Inv : Pass → Prop)
    (hturn : ∀ p goOn p', p.admitting cfg → Inv p → WaitingTurn cfg a p goOn p' → Inv p')
    (h : p.waitingLoop cfg a fuel = some p') (hp : Inv p) : Inv p' := by
  induction fuel generalizing p with
  | zero =>
    cases h
    exact hp
  | succ fuel ih =>
    unfold waitingLoop at h
    split at h
    · rename_i hadm
      obtain ⟨⟨goOn, p1⟩, hone, h⟩ := bind_eq_some_iff.mp h
      have hp1 : Inv p1 := hturn p goOn p1 hadm hp (waitingTurn_cases hone)
      cases goOn with
      | true => exact ih h hp1
      | false =>
        cases h
        exact hp1
    · cases h
      exact hp

end Pass

end Nvllm.Sched
