import Nvllm.Sched.Queued

/-! # Where the scheduler uses the encoder cache

The scheduler frees the encoder inputs of requests that are preempted, finished or not admitted,
and of those whose tokens are computed (`Freed`). It allocates the inputs of a request after
`_try_schedule_encoder_inputs`, and only frees in between. `EncInv` is a property of the encoder
cache that all of this keeps for requests with good features; then `schedule` keeps it
(`schedule_enc`), and so do the other methods.
-/

namespace Nvllm.Sched

open Nvllm.KVCache Option

variable {cfg : SchedulerConfig} {hasher : Request → Option (List Bytes)} {a : Answers}
  {Good : List MultiModalFeature → Prop} {P : EncoderCacheManager → Prop}

/-- The encoder inputs of `t` are those that `_try_schedule_encoder_inputs` chose for `r`. -/
def Tries (cfg : SchedulerConfig) (a : Answers) (enc : EncoderCacheManager) (r : Request)
    (t : EncoderTry) : Prop :=
  ∃ c n budget t0, tryScheduleEncoderInputs cfg a enc r c n budget = some t0 ∧ t.enc = t0.enc ∧
    t.encoderInputsToSchedule ++ t.externalLoadEncoderInput =
      t0.encoderInputsToSchedule ++ t0.externalLoadEncoderInput

/-- `P` holds as long as the scheduler works with requests with good features. -/
structure EncInv (cfg : SchedulerConfig) (a : Answers) (Good : List MultiModalFeature → Prop)
    (P : EncoderCacheManager → Prop) : Prop where
  free : ∀ r is e e', Good r.mmFeatures → P e → EncoderCacheManager.freeInputs r is e = some e' →
    P e'
  tried : ∀ r e t, Good r.mmFeatures → P e → Tries cfg a e r t → P t.enc
  allocated : ∀ r e t e1 e', Good r.mmFeatures → P e → Tries cfg a e r t → Freed Good t.enc e1 →
    EncoderCacheManager.allocateAll r (t.encoderInputsToSchedule ++ t.externalLoadEncoderInput)
      e1 = some e' → P e'
  handed : ∀ e, P e → P e.getFreedMmHashes.2

theorem EncInv.freed (hinv : EncInv cfg a Good P) {e e' : EncoderCacheManager}
    (h : Freed Good e e') (he : P e) : P e' := by
  induction h with
  | refl => exact he
  | free r is _ hr hfree ih => exact hinv.free r is _ _ hr ih hfree

namespace Pass

variable {p p' : Pass} {v : Ref} {goOn : Bool}

/-! ## The passes -/

theorem Follows.mmFeatures (h : Follows cfg p p') (v : Ref) :
    (p'.s.req v).mmFeatures = (p.s.req v).mmFeatures :=
  h.same.field Request.mmFeatures (fun _ => rfl) v

/-- `P` holds, and all requests have good features. -/
structure Tracks (Good : List MultiModalFeature → Prop) (P : EncoderCacheManager → Prop)
    (p : Pass) : Prop where
  enc : P p.s.enc
  features : ∀ v, Good (p.s.req v).mmFeatures

theorem Tracks.follows (h : Tracks Good P p) (hf : Follows cfg p p') (henc : P p'.s.enc) :
    Tracks Good P p' where
  enc := henc
  features v := by
    rw [hf.mmFeatures]
    exact h.features v

variable {q : Scheduler.QueueName} {t : EncoderTry} {c : Computed}

/-! ## Running requests -/

theorem Preempts.freed (h : Preempts cfg v p p') (hgood : Good (p.s.req v).mmFeatures) :
    Freed Good p.s.enc p'.s.enc := by
  cases h with
  | plain rest s _ _ hs | scheduled rest s n embeds blocks _ _ _ _ _ _ hs =>
    obtain ⟨-, kv, enc, -, henc, rfl⟩ := preemptRequest_eq_some hs
    exact .free _ _ .refl hgood henc

theorem Allocates.freed {n : ℤ} {newBlocks : Option (List (List BlockId))}
    (h : Allocates cfg v n p newBlocks p')
    (hgood : ∀ w ∈ p.s.running, Good (p.s.req w).mmFeatures) : Freed Good p.s.enc p'.s.enc := by
  induction h with
  | granted r bs kv _ _ => exact .refl
  | @itself p p' r kv _ _ hpre => exact hpre.freed (hgood _ hpre.mem_running)
  | @other p p1 p' newBlocks r kv w _ _ hpre _ _ ih =>
    have hone : Freed Good p.s.enc p1.s.enc := hpre.freed (hgood w hpre.mem_running)
    refine hone.trans (ih fun u hu => ?_)
    rw [hpre.runs.mmFeatures]
    exact hgood u ((victim_spec hpre.running).2.subset hu)

theorem Preempts.req_of_ne {w : Ref} (h : Preempts cfg w p p') (hv : v ≠ w) :
    p'.s.req v = p.s.req v := by
  cases h with
  | plain rest s _ _ hs | scheduled rest s n embeds blocks _ _ _ _ _ _ hs =>
    exact (preemptRequest_req hs).2 v hv

/-- A request that gets its blocks was not preempted. -/
theorem Allocates.req {n : ℤ} {newBlocks : Option (List (List BlockId))} {bs : List (List BlockId)}
    (h : Allocates cfg v n p newBlocks p') (hbs : newBlocks = some bs) :
    p'.s.req v = p.s.req v := by
  induction h with
  | granted r bs kv _ _ => rfl
  | itself r kv _ _ hpre => cases hbs
  | other r kv w _ _ hpre hne _ ih => exact (ih hbs).trans (hpre.req_of_ne (Ne.symm hne))

theorem tryRunning_tries (h : p.tryRunning cfg a v = some t) :
    Tries cfg a p.s.enc (p.s.req v) t := by
  obtain ⟨t0, ht0, h⟩ := bind_eq_some_iff.mp h
  obtain ⟨n, -, h⟩ := bind_eq_some_iff.mp h
  cases h
  exact ⟨_, _, _, t0, ht0, rfl, rfl⟩

theorem RunningTurn.enc (hinv : EncInv cfg a Good P) (henc : P p.s.enc)
    (hgood : ∀ w ∈ p.s.running, Good (p.s.req w).mmFeatures) (hv : v ∈ p.s.running)
    (hrun : RunningTurn cfg a v p goOn p') : P p'.s.enc := by
  have hgoodv := hgood v hv
  cases hrun with
  | capped _ => exact henc
  | noTokens t _ ht _ => exact hinv.tried _ _ t hgoodv henc (tryRunning_tries ht)
  | preempted t p' _ ht _ halloc =>
    exact hinv.freed (halloc.freed hgood) (hinv.tried _ _ t hgoodv henc (tryRunning_tries ht))
  | scheduled t bs p1 p' _ ht _ halloc hs =>
    simp only [scheduleRunning, bind, bind_eq_some_iff] at hs
    obtain ⟨enc, halloc', hs⟩ := hs
    cases hs
    have hreq : p1.s.req v = p.s.req v := halloc.req rfl
    rw [hreq] at halloc'
    exact hinv.allocated _ _ t _ enc hgoodv henc (tryRunning_tries ht) (halloc.freed hgood) halloc'

theorem Tracks.runningTurn (hinv : EncInv cfg a Good P) (h : Tracks Good P p)
    (hv : v ∈ p.s.running) (hrun : RunningTurn cfg a v p goOn p') : Tracks Good P p' :=
  h.follows hrun.runs.toFollows (hrun.enc hinv h.enc (fun w _ => h.features w) hv)

/-! ## Waiting requests -/

theorem skipWaiting_enc (h : p.skipWaiting cfg q v = some p') : p'.s.enc = p.s.enc := by
  obtain ⟨⟨w, rest⟩, -, h⟩ := bind_eq_some_iff.mp h
  cases h
  cases q <;> rfl

/-- A pass that schedules no encoder input is like one for no tokens. -/
theorem tries_nothing (enc : EncoderCacheManager) (r : Request) (n budget : ℤ) :
    Tries cfg a enc r { enc, numNewTokens := n, encoderComputeBudget := budget } := by
  refine ⟨0, 0, budget, { enc, numNewTokens := 0, encoderComputeBudget := budget }, ?_, rfl, rfl⟩
  rw [tryScheduleEncoderInputs, if_pos (Or.inl rfl)]

theorem tryWaiting_tries {r : Request}
    (h : p.tryWaiting cfg a r c = some (goOn, t)) : Tries cfg a p.s.enc r t := by
  unfold tryWaiting at h
  dsimp only at h
  split at h
  · split at h
    · obtain ⟨n, -, h⟩ := bind_eq_some_iff.mp h
      cases h
      exact tries_nothing _ _ _ _
    · cases h
  · split at h
    · cases h
      exact tries_nothing _ _ _ _
    · split at h
      · cases h
      · obtain ⟨t0, ht0, h⟩ := bind_eq_some_iff.mp h
        split at h
        · cases h
          exact ⟨_, _, _, _, ht0, rfl, rfl⟩
        · obtain ⟨n, -, h⟩ := bind_eq_some_iff.mp h
          cases h
          exact ⟨_, _, _, t0, ht0, rfl, rfl⟩

theorem loadAsync_enc (h : p.loadAsync cfg q v c = some p') : p'.s.enc = p.s.enc := by
  obtain ⟨⟨w, rest⟩, -, h⟩ := bind_eq_some_iff.mp h
  cases h
  cases q <;> rfl

theorem enterRunning_enc (h : p.enterRunning cfg q v c t = some p') :
    EncoderCacheManager.allocateAll (p.s.req v)
      (t.encoderInputsToSchedule ++ t.externalLoadEncoderInput) p.s.enc = some p'.s.enc := by
  simp only [enterRunning, bind, bind_eq_some_iff] at h
  obtain ⟨⟨w, rest⟩, -, enc, henc, ⟨new, resumed⟩, -, h⟩ := h
  cases h
  rw [show p.s.enc = ((p.s.setQueue q rest).modify v
    (Request.placed .running c.numComputedTokens)).enc by cases q <;> rfl]
  exact henc

theorem WaitingReady.enc (hinv : EncInv cfg a Good P) (henc : P p.s.enc)
    (hv : Good (p.s.req v).mmFeatures) (h : WaitingReady cfg a q v p goOn p') : P p'.s.enc := by
  cases h with
  | loraBlocked p' _ hskip | unknown p' _ hskip =>
    rw [skipWaiting_enc hskip]
    exact henc
  | noTokens c t _ ht => exact hinv.tried _ _ t hv henc (tryWaiting_tries ht)
  | noBlocks c t p1 enc _ ht halloc hfree =>
    obtain ⟨kv, rfl⟩ := allocateWaiting_cases halloc
    have htried := hinv.tried _ _ t hv henc (tryWaiting_tries ht)
    split at hfree
    · exact hinv.freed (.free _ _ .refl hv hfree) htried
    · cases hfree
      exact htried
  | loading c t p1 p' _ ht halloc _ hload =>
    obtain ⟨kv, rfl⟩ := allocateWaiting_cases halloc
    rw [loadAsync_enc hload]
    exact hinv.tried _ _ t hv henc (tryWaiting_tries ht)
  | entered c t p1 p' _ _ ht halloc _ henter =>
    obtain ⟨kv, rfl⟩ := allocateWaiting_cases halloc
    exact hinv.allocated _ _ t _ _ hv henc (tryWaiting_tries ht) .refl (enterRunning_enc henter)

theorem Tracks.waitingTurn (hinv : EncInv cfg a Good P) (h : Tracks Good P p)
    (hrun : WaitingTurn cfg a p goOn p') : Tracks Good P p' := by
  refine h.follows hrun.follows ?_
  cases hrun with
  | blocked q v p' _ _ _ hskip =>
    rw [skipWaiting_enc hskip]
    exact h.enc
  | ready q v goOn p' _ hpeek _ hready => exact hready.enc hinv h.enc (h.features v)
  | promoted q v s goOn p' _ hpeek _ hpro hready =>
    obtain ⟨hsame, henc, -⟩ := Scheduler.tryPromote_spec hpro
    refine hready.enc hinv ?_ ?_
    · rw [henc]
      exact h.enc
    · rw [hsame.field Request.mmFeatures (fun _ => rfl)]
      exact h.features v

end Pass

/-! ## The whole pass -/

namespace Scheduler

variable {s s' : Scheduler} {v : Ref}

theorem advance_frees {es : List (RequestId × ℤ)} (h : advance cfg es s = some s') :
    FreesInputs (fun _ => True) s s' := by
  induction es generalizing s with
  | nil =>
    cases h
    exact .of_enc rfl
  | cons e es ih =>
    obtain ⟨id, n⟩ := e
    simp only [advance, bind, bind_eq_some_iff] at h
    obtain ⟨v, -, s1, hs1, h⟩ := h
    obtain ⟨enc, henc, hs1⟩ := bind_eq_some_iff.mp hs1
    cases hs1
    have hfeatures : ∀ w, ((s.modify v (Request.advance n)).req w).mmFeatures =
        (s.req w).mmFeatures := field_modify Request.mmFeatures rfl
    have hone : FreesInputs (fun _ => True) s { s.modify v (Request.advance n) with enc } :=
      fun _ hgood => .free _ _ .refl (hfeatures v ▸ hgood v trivial) henc
    exact hone.trans (ih h) hfeatures

theorem addPlaceholders_enc {drafts : Dict RequestId (List ℤ)} {es : List (RequestId × ℤ)}
    (h : addPlaceholders cfg drafts es s = some s') : s'.enc = s.enc := by
  induction es generalizing s with
  | nil =>
    cases h
    rfl
  | cons e es ih =>
    obtain ⟨v, -, h⟩ := bind_eq_some_iff.mp h
    exact (ih h).trans rfl

variable {p p' : Pass}

/-- The passes of `schedule`, from the loop over the running requests to the end. -/
theorem runningPart_tracks (hinv : EncInv cfg a Good P) (hs : Pass.Tracks Good P (Pass.start cfg s))
    (h : s.runningPart cfg a = some p) : Pass.Tracks Good P p :=
  Pass.runningPart_invariant (Pass.Tracks Good P)
    (fun _ _ _ _ hv hp hturn => hp.runningTurn hinv hv hturn) h hs

theorem recordLoras_tracks (hp : Pass.Tracks Good P p)
    (h : p.recordLoras cfg = some p') : Pass.Tracks Good P p' := by
  refine hp.follows (Pass.recordLoras_follows h) ?_
  obtain ⟨loras, rfl⟩ := Pass.recordLoras_cases h
  exact hp.enc

theorem waitingPart_tracks (hinv : EncInv cfg a Good P) (hp : Pass.Tracks Good P p)
    (h : p.waitingPart cfg a = some p') : Pass.Tracks Good P p' := by
  unfold Pass.waitingPart at h
  split at h
  · obtain ⟨p1, hloop, h⟩ := bind_eq_some_iff.mp h
    cases h
    have hp1 := Pass.waitingLoop_invariant (Pass.Tracks Good P)
      (fun p goOn p' _ hp hturn => hp.waitingTurn hinv hturn) hloop hp
    exact hp1.follows Pass.requeueSkipped_follows hp1.enc
  · cases h
    exact hp

theorem finishPass_enc {out : SchedulerOutput} (hinv : EncInv cfg a Good P)
    (hp : Pass.Tracks Good P p) (h : finishPass cfg p = some (out, s')) : P s'.enc := by
  unfold finishPass at h
  split at h
  · simp only [updateAfterSchedule, bind, bind_eq_some_iff] at h
    obtain ⟨o, -, s1, ⟨s2, hs2, h1⟩, h⟩ := h
    cases h
    have henc : P s2.enc :=
      hinv.freed (advance_frees hs2 Good fun v _ => hp.features v) (hinv.handed _ hp.enc)
    split at h1
    · rw [addPlaceholders_enc h1]
      exact henc
    · cases h1
      exact henc
  · cases h

/-- **A pass keeps `P`**, if all requests have good features. -/
theorem schedule_enc {out : SchedulerOutput} (hinv : EncInv cfg a Good P) (henc : P s.enc)
    (hgood : ∀ v, Good (s.req v).mmFeatures)
    (h : s.schedule cfg a = some (out, s')) : P s'.enc := by
  simp only [schedule, bind, bind_eq_some_iff] at h
  obtain ⟨p1, h1, p2, h2, p3, h3, h⟩ := h
  have hstart : Pass.Tracks Good P (Pass.start cfg s) := ⟨henc, hgood⟩
  have hp2 := recordLoras_tracks (runningPart_tracks hinv hstart h1) h2
  exact finishPass_enc hinv (waitingPart_tracks hinv hp2 h3) h

end Scheduler

end Nvllm.Sched
