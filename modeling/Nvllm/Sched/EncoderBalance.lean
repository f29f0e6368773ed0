import Nvllm.Sched.EncoderBook
import Nvllm.Sched.EncoderFrees

/-! # The accounts of the encoder cache in every run

In every run of the scheduler in which equal hashes have equal sizes, the accounts of the encoder
cache are right between the events (`Balanced`). They are also right wherever a pass uses the cache
(`Sound`): `can_allocate` never pops from an empty `freeable` and never evicts an entry that a
request uses, and the assertions of `allocate` hold, although requests may be preempted between
`can_allocate` and `allocate`.
-/

namespace Nvllm.Sched

open Nvllm.KVCache Nvllm.Run EncoderCacheManager List

namespace EncoderCacheManager

/-- The accounts of an encoder cache with `n` slots. -/
structure Balanced (size : MmHash → ℕ) (n : ℕ) (e : EncoderCacheManager) : Prop where
  free : e.numFreeSlots = n - ((e.cached.keys.map size).sum : ℕ)
  freeable : e.numFreeableSlots = e.numFreeSlots + (e.freeable.values.sum : ℕ)
  unused : ∀ h, h ∈ e.freeable.keys ↔ e.cached.get? h = some []
  bounds : 0 ≤ e.numFreeSlots ∧ e.numFreeSlots ≤ e.numFreeableSlots ∧ e.numFreeableSlots ≤ n

theorem Accounted.balanced {size : MmHash → ℕ} {e : EncoderCacheManager} (h : e.Accounted size) :
    e.Balanced size e.cacheSize := by
  have hfreeable : e.numFreeableSlots = e.numFreeSlots + (e.freeable.values.sum : ℕ) := h.freeable
  have hfree : e.numFreeSlots + ((e.cached.entries.map fun x => size x.1).sum : ℕ) = _ := h.free
  have hbusy := h.busy
  constructor
  case free =>
    rw [Dict.keys, map_map]
    exact eq_sub_of_add_eq hfree
  case freeable => exact hfreeable
  case unused =>
    intro k
    rw [Dict.mem_keys_iff, h.unused]
    split
    · simp [*]
    · simp [*]
  case bounds => exact ⟨h.nonneg, by omega, by omega⟩

end EncoderCacheManager

variable {cfg : SchedulerConfig} {hasher : Request → Option (List Bytes)} {a : Answers}
  {size : MmHash → ℕ} {n : ℕ}

/-! ## The sizes of the inputs -/

/-- The inputs of a request and those that wait in its session have the sizes of their hashes. -/
structure Request.Sized (size : MmHash → ℕ) (r : Request) : Prop where
  features : EncoderCacheManager.Sized size r.mmFeatures
  queue : ∀ update, some update ∈ r.streamingQueue.getD [] →
    EncoderCacheManager.Sized size update.mmFeatures

theorem Request.Sized.congr {r r' : Request} (h : r.Sized size)
    (hf : r'.mmFeatures = r.mmFeatures) (hq : r'.streamingQueue = r.streamingQueue) :
    r'.Sized size where
  features := hf ▸ h.features
  queue := hq ▸ h.queue

theorem sized_append {fs fs' : List MultiModalFeature} (h : EncoderCacheManager.Sized size fs)
    (h' : EncoderCacheManager.Sized size fs') : EncoderCacheManager.Sized size (fs ++ fs') := by
  intro f hf
  rcases mem_append.mp hf with hf | hf
  · exact h f hf
  · exact h' f hf

/-- The position of an item does not matter. -/
theorem Request.Sized.updateAsSession {r r' : Request} {update : StreamingUpdate}
    (h : r.Sized size) (hu : EncoderCacheManager.Sized size update.mmFeatures)
    (hrun : r.updateAsSession hasher update = some r') : r'.Sized size := by
  obtain ⟨r1, hr1, hrun⟩ := Option.bind_eq_some_iff.mp hrun
  obtain ⟨hs, -, hr1⟩ := Option.bind_eq_some_iff.mp hr1
  cases hr1
  cases hrun
  refine ⟨sized_append h.features ?_, h.queue⟩
  intro f hf
  obtain ⟨g, hg, rfl⟩ := mem_map.mp hf
  exact hu g hg

namespace Scheduler

variable {s s' : Scheduler} {v : Ref}

def Sized (size : MmHash → ℕ) (s : Scheduler) : Prop := ∀ v, (s.req v).Sized size

theorem Sized.of_req (h : s.Sized size) (hreq : s'.req = s.req) : s'.Sized size := by
  intro v
  rw [hreq]
  exact h v

theorem Sized.modify (h : s.Sized size) {f : Request → Request}
    (hreq : s'.req = (s.modify v f).req) (hv : (f (s.req v)).Sized size) : s'.Sized size := by
  intro w
  rw [hreq]
  by_cases hw : w = v
  · rw [hw, req_modify_self]
    exact hv
  · rw [req_modify_of_ne s f hw]
    exact h w

theorem Sized.same (h : s.Sized size) (hsame : s.SameRequests s') : s'.Sized size := fun v =>
  (h v).congr (hsame.field Request.mmFeatures (fun _ => rfl) v)
    (hsame.field Request.streamingQueue (fun _ => rfl) v)

theorem StopOutcome.sized (h : StopOutcome cfg hasher s v s') (hs : s.Sized size) :
    s'.Sized size := by
  cases h with
  | finished queue requests _ _ hagree hqueue =>
    exact hs.modify hagree.req ⟨(hs v).features, fun u hu => (hs v).queue u (hqueue hu)⟩
  | continued update queue r _ hqueue hr hagree =>
    have hmem : ∀ u, some u ∈ some update :: queue →
        EncoderCacheManager.Sized size u.mmFeatures := by
      intro u hu
      refine (hs v).queue u ?_
      rw [hqueue]
      exact hu
    have hv : ((s.req v).withStreamingQueue (some queue)).Sized size :=
      ⟨(hs v).features, fun u hu => hmem u (mem_cons_of_mem _ hu)⟩
    exact hs.modify (v := v) (f := fun _ => r) (enqueues_of_agrees hagree).req
      (hv.updateAsSession (hmem update mem_cons_self) hr)
  | idle _ _ hagree =>
    exact hs.modify (enqueues_of_agrees hagree).req ((hs v).congr rfl rfl)

theorem Turn.sized {out : SchedulerOutput} {m : ModelRunnerOutput} {failed : List RequestId}
    {id : RequestId} {z z' : Stops} (h : Turn cfg hasher out m failed id z z')
    (hz : z.s.Sized size) : z'.s.Sized size := by
  have htakes : ∀ v r s stopped, Takes cfg hasher out m id z.s v stopped r →
      Agrees (z.s.modify v fun _ => r) s → s.Sized size := by
    intro v r s stopped htakes hagree
    have hr : r.Sized size := (hz v).congr (htakes.field Request.mmFeatures fun _ => rfl)
      (htakes.field Request.streamingQueue fun _ => rfl)
    exact hz.modify hagree.req hr
  cases h with
  | ignored _ => exact hz
  | goesOn v r s _ ht hagree => exact htakes v r s false ht hagree
  | stops v r s1 s _ ht hagree hstop =>
    have hs : s.Sized size := hstop.sized (htakes v r s1 true ht hagree)
    split <;> exact hs

theorem Sized.finishRequests (h : s.Sized size) {ids : Option (List RequestId)}
    {finishedStatus : RequestStatus}
    (hrun : s.finishRequests cfg a ids finishedStatus = some s') : s'.Sized size := by
  obtain ⟨-, vs, s1, -, hw, hfin⟩ := finishRequests_cases hrun
  intro v
  by_cases hv : v ∈ vs
  · rw [hfin.finished v hv, hw.req]
    exact (h v).congr rfl rfl
  · rw [hfin.others v hv, hw.req]
    exact h v

theorem updateFromKvXferFinished_keeps {m : ModelRunnerOutput}
    (hrun : s.updateFromKvXferFinished m = some s') : s'.req = s.req ∧ s'.enc = s.enc := by
  refine updateFromKvXferFinished_invariant (fun s1 => s1.req = s.req ∧ s1.enc = s.enc)
    (fun _ _ h => h) (fun s1 _ v s2 _ hs2 h => ?_) hrun ⟨rfl, rfl⟩
  obtain ⟨⟨-, henc⟩, hagree⟩ := freeBlocks_agrees hs2
  exact ⟨hagree.req.trans h.1, henc.trans h.2⟩

end Scheduler

/-! ## The passes -/

theorem Freed.keeps {e e' : EncoderCacheManager} (h : Freed (EncoderCacheManager.Sized size) e e')
    (he : e.Accounted size) : e'.Accounted size ∧ e.Keeps e' := by
  induction h with
  | refl => exact ⟨he, .refl _⟩
  | free r is _ hr hfree ih =>
    obtain ⟨hacc, hkeeps⟩ := ih.1.freeInputs hr hfree
    exact ⟨hacc, ih.2.trans hkeeps⟩

/-- What was chosen for a request can be allocated, also after other requests were freed. -/
theorem Tries.ready {e e' : EncoderCacheManager} {r : Request} {t : EncoderTry}
    (h : Tries cfg a e r t) (hcfg : cfg.isEncoderDecoder = false)
    (hr : EncoderCacheManager.Sized size r.mmFeatures) (he : e.Accounted size)
    (hfreed : Freed (EncoderCacheManager.Sized size) t.enc e') :
    t.enc.Accounted size ∧ e'.Accounted size ∧ t.enc.cacheSize = e.cacheSize ∧
      e'.cacheSize = e.cacheSize ∧
      Ready size r (t.encoderInputsToSchedule ++ t.externalLoadEncoderInput) e' := by
  obtain ⟨c, k, budget, t0, ht0, henc, hinputs⟩ := h
  have hres := tryScheduleEncoderInputs_reserved hcfg hr he ht0
  have hacc : t.enc.Accounted size := henc ▸ hres.accounted
  obtain ⟨hacc', hkeeps⟩ := hfreed.keeps hacc
  have hsize : t.enc.cacheSize = e.cacheSize := henc ▸ hres.cacheSize
  refine ⟨hacc, hacc', hsize, hkeeps.cacheSize.trans hsize, ?_⟩
  rw [hinputs]
  exact hres.ready.keeps (henc ▸ hkeeps)

theorem encInv_accounted (cfg : SchedulerConfig) (a : Answers) (hcfg : cfg.isEncoderDecoder = false)
    (size : MmHash → ℕ) (n : ℕ) :
    EncInv cfg a (EncoderCacheManager.Sized size) fun e => e.Accounted size ∧ e.cacheSize = n where
  free r is e e' hr he hfree := by
    obtain ⟨hacc, hkeeps⟩ := he.1.freeInputs hr hfree
    exact ⟨hacc, hkeeps.cacheSize.trans he.2⟩
  tried r e t hr he ht := by
    obtain ⟨hacc, -, hsize, -, -⟩ := ht.ready hcfg hr he.1 .refl
    exact ⟨hacc, hsize.trans he.2⟩
  allocated r e t e1 e' hr he ht hfreed halloc := by
    obtain ⟨-, hacc1, -, hsize1, hready⟩ := ht.ready hcfg hr he.1 hfreed
    obtain ⟨e2, he2, hacc2, hsize2⟩ := hacc1.allocateAll hr hready
    rw [halloc, Option.some.injEq] at he2
    subst he2
    exact ⟨hacc2, hsize2.trans (hsize1.trans he.2)⟩
  handed e he := by
    unfold getFreedMmHashes
    rw [if_neg (by simp [he.1.plain])]
    exact ⟨{ he.1 with }, he.2⟩

namespace Pass

/-- The passes of `schedule` from `s` before a turn of the loop over the running requests. -/
inductive RunningAt (cfg : SchedulerConfig) (a : Answers) (s : Scheduler) : Pass → Prop
  | start : RunningAt cfg a s (Pass.start cfg s)
  | next {p p' : Pass} {v : Ref} : RunningAt cfg a s p → p.s.running[p.reqIndex]? = some v →
      0 < p.tokenBudget → p.runningTurn cfg a v = some (true, p') → RunningAt cfg a s p'

/-- Those before a turn of the loop over the waiting requests. -/
inductive WaitingAt (cfg : SchedulerConfig) (a : Answers) (s : Scheduler) : Pass → Prop
  | start {p p' : Pass} : s.runningPart cfg a = some p → p.recordLoras cfg = some p' →
      p'.preemptedReqs = [] → p'.s.pauseState = .unpaused → WaitingAt cfg a s p'
  | next {p p' : Pass} : WaitingAt cfg a s p → p.admitting cfg →
      p.waitingTurn cfg a = some (true, p') → WaitingAt cfg a s p'

/-- The request at the head of the queue is ready, after its promotion if it was blocked. -/
inductive ReadyAt (cfg : SchedulerConfig) (a : Answers) (p : Pass) : Ref → Pass → Prop
  | ready {q : Scheduler.QueueName} {v : Ref} : p.s.selectWaitingQueueForScheduling cfg = some q →
      RequestQueue.peekRequest (p.s.queue q) = some v → (p.s.req v).status.isBlocked = false →
      ReadyAt cfg a p v p
  | promoted {q : Scheduler.QueueName} {v : Ref} {s : Scheduler} :
      p.s.selectWaitingQueueForScheduling cfg = some q →
      RequestQueue.peekRequest (p.s.queue q) = some v → (p.s.req v).status.isBlocked = true →
      p.s.tryPromoteBlockedWaitingRequest cfg a v = some (true, s) →
      ReadyAt cfg a p v { p with s }

/-- The requests whose encoder inputs are looked at, with the pass at that time. -/
inductive LooksAt (cfg : SchedulerConfig) (a : Answers) (s : Scheduler) : Pass → Ref → Prop
  | running {p : Pass} {v : Ref} : RunningAt cfg a s p → p.s.running[p.reqIndex]? = some v →
      LooksAt cfg a s p v
  | waiting {p p' : Pass} {v : Ref} : WaitingAt cfg a s p → p.admitting cfg →
      ReadyAt cfg a p v p' → LooksAt cfg a s p' v

variable {s : Scheduler} {p p' : Pass} {v : Ref} {Good : List MultiModalFeature → Prop}
  {P : EncoderCacheManager → Prop}

theorem RunningAt.tracks (h : RunningAt cfg a s p) (hinv : EncInv cfg a Good P)
    (hs : Tracks Good P (Pass.start cfg s)) : Tracks Good P p := by
  induction h with
  | start => exact hs
  | next _ hv _ hturn ih =>
    have hmem := mem_of_getElem? hv
    exact ih.runningTurn hinv hmem (runningTurn_cases hmem hturn)

theorem WaitingAt.tracks (h : WaitingAt cfg a s p) (hinv : EncInv cfg a Good P)
    (hs : Tracks Good P (Pass.start cfg s)) : Tracks Good P p := by
  induction h with
  | start hrun hloras _ _ =>
    exact Scheduler.recordLoras_tracks (Scheduler.runningPart_tracks hinv hs hrun) hloras
  | next _ _ hturn ih => exact ih.waitingTurn hinv (waitingTurn_cases hturn)

/-- The pass with the promoted request. -/
theorem ReadyAt.spec (h : ReadyAt cfg a p v p') (hp : Tracks Good P p) :
    P p'.s.enc ∧ Good (p'.s.req v).mmFeatures := by
  cases h with
  | ready _ hpeek _ => exact ⟨hp.enc, hp.features v⟩
  | @promoted q v s _ hpeek _ hpro =>
    obtain ⟨hsame, henc, -⟩ := Scheduler.tryPromote_spec hpro
    refine ⟨?_, ?_⟩
    · rw [henc]
      exact hp.enc
    · rw [hsame.field Request.mmFeatures (fun _ => rfl)]
      exact hp.features v

theorem LooksAt.spec (h : LooksAt cfg a s p v) (hinv : EncInv cfg a Good P)
    (hs : Tracks Good P (Pass.start cfg s)) : P p.s.enc ∧ Good (p.s.req v).mmFeatures := by
  cases h with
  | running hat hv =>
    have hp := hat.tracks hinv hs
    exact ⟨hp.enc, hp.features v⟩
  | waiting hat _ hready => exact hready.spec (hat.tracks hinv hs)

end Pass

namespace Scheduler

/-- The calls that `schedule` makes: none of them raises, the accounts are right at each of them,
and what a request uses is not evicted. -/
structure Sound (cfg : SchedulerConfig) (a : Answers) (size : MmHash → ℕ) (slots : ℕ)
    (s : Scheduler) : Prop where
  /-- the `i`-th item of a request in `_try_schedule_encoder_inputs` -/
  looks : ∀ p v, Pass.LooksAt cfg a s p v → ∀ c shift k budget i t f,
    EncoderTry.At cfg a (p.s.req v) c shift
      { enc := p.s.enc, numNewTokens := k, encoderComputeBudget := budget } i t →
    (p.s.req v).mmFeatures[i]? = some f →
    t.enc.Balanced size slots ∧ (t.enc.checkAndUpdateCache (p.s.req v) i).isSome ∧
      ∃ fits enc, t.enc.canAllocate (p.s.req v) i t.encoderComputeBudget t.numEmbedsToSchedule =
        some (fits, enc) ∧ enc.Balanced size slots ∧ t.enc.Spares enc
  /-- the allocations of a running request, after the preemptions -/
  running : ∀ p v t bs p1 is, Pass.RunningAt cfg a s p → p.s.running[p.reqIndex]? = some v →
    p.tryRunning cfg a v = some t → t.numNewTokens ≠ 0 →
    Pass.allocateOrPreempt cfg v t.numNewTokens p.s.running.length
      { p with s := { p.s with enc := t.enc } } = some (some bs, p1) →
    is <+: t.encoderInputsToSchedule ++ t.externalLoadEncoderInput →
    ∃ enc, allocateAll (p1.s.req v) is p1.s.enc = some enc ∧ enc.Balanced size slots
  /-- the allocations of a waiting request -/
  waiting : ∀ p v p' c t p1 is, Pass.WaitingAt cfg a s p → p.admitting cfg →
    Pass.ReadyAt cfg a p v p' → p'.tryWaiting cfg a (p'.s.req v) c = some (true, t) →
    Pass.allocateWaiting cfg { p' with s := { p'.s with enc := t.enc } } v c t = some (true, p1) →
    is <+: t.encoderInputsToSchedule ++ t.externalLoadEncoderInput →
    ∃ enc, allocateAll (p1.s.req v) is p1.s.enc = some enc ∧ enc.Balanced size slots

variable {s s' : Scheduler}

theorem Sized.tracks (h : s.Sized size) (henc : s.enc.Accounted size ∧ s.enc.cacheSize = n)
    (cfg : SchedulerConfig) :
    Pass.Tracks (EncoderCacheManager.Sized size) (fun e => e.Accounted size ∧ e.cacheSize = n)
      (Pass.start cfg s) where
  enc := henc
  features v := (h v).features

theorem Sized.sound (h : s.Sized size) (hcfg : cfg.isEncoderDecoder = false)
    (henc : s.enc.Accounted size ∧ s.enc.cacheSize = n) (a : Answers) : s.Sound cfg a size n := by
  have hinv := encInv_accounted cfg a hcfg size n
  have hs := h.tracks henc cfg
  constructor
  case looks =>
    intro p v hat c shift k budget i t f hloop hf
    obtain ⟨⟨hacc, hsize⟩, hr⟩ := hat.spec hinv hs
    have hres := hloop.reserved hcfg hr (EncoderTry.reserved_start hacc k budget)
    have hslots : t.enc.cacheSize = n := hres.cacheSize.trans hsize
    obtain ⟨cached, e1, hcheck, -⟩ := hres.accounted.check hf
    obtain ⟨fits, enc, hcan, hacc', hkeeps, hspares, -⟩ := hres.accounted.canAllocate hf
      t.encoderComputeBudget t.numEmbedsToSchedule
    refine ⟨hslots ▸ hres.accounted.balanced, by rw [hcheck]; rfl, fits, enc, hcan, ?_, hspares⟩
    rw [← hslots, ← hkeeps.cacheSize]
    exact hacc'.balanced
  case running =>
    intro p v t bs p1 is hat hv ht _ halloc hprefix
    have hp := hat.tracks hinv hs
    have hmem := mem_of_getElem? hv
    have hcases := Pass.allocateOrPreempt_cases
      (p := { p with s := { p.s with enc := t.enc } }) hmem (Nat.le_refl _) halloc
    have hreq : p1.s.req v = p.s.req v := hcases.req rfl
    have hr := hp.features v
    obtain ⟨-, hacc, -, hsize, hready⟩ := (Pass.tryRunning_tries ht).ready hcfg hr hp.enc.1
      (hcases.freed fun w _ => hp.features w)
    rw [hreq]
    obtain ⟨enc, hrun, hacc', hsize'⟩ := hacc.allocateAll hr (hready.of_prefix hprefix)
    refine ⟨enc, hrun, ?_⟩
    rw [← hp.enc.2, ← hsize, ← hsize']
    exact hacc'.balanced
  case waiting =>
    intro p v p' c t p1 is hat _ hat' ht halloc hprefix
    obtain ⟨⟨henc', hslots⟩, hr⟩ := hat'.spec (hat.tracks hinv hs)
    obtain ⟨kv, rfl⟩ := Pass.allocateWaiting_cases halloc
    obtain ⟨-, hacc, -, hsize, hready⟩ := (Pass.tryWaiting_tries ht).ready hcfg hr henc' .refl
    obtain ⟨enc, hrun, hacc', hsize'⟩ := hacc.allocateAll hr (hready.of_prefix hprefix)
    refine ⟨enc, hrun, ?_⟩
    rw [← hslots, ← hsize, ← hsize']
    exact hacc'.balanced

end Scheduler

/-! ## The runs -/

namespace Engine

open Scheduler

/-- New inputs have the sizes of their hashes. -/
def SizedInput (size : MmHash → ℕ) : Event → Prop
  | .addRequest q _ => EncoderCacheManager.Sized size q.mmFeatures
  | _ => True

instance (size : MmHash → ℕ) (ev : Event) : Decidable (SizedInput size ev) :=
  match ev with
  | .addRequest _ _ => inferInstanceAs (Decidable (∀ f ∈ _, _))
  | .finishRequests .. | .schedule _ | .updateFromOutput .. | .updateDraftTokenIds _
  | .resetPrefixCache _ | .resetEncoderCache | .setPauseState _ => isTrue trivial

/-- Between the events. -/
structure Kept (size : MmHash → ℕ) (P : EncoderCacheManager → Prop) (s : Scheduler) : Prop where
  sized : s.Sized size
  enc : P s.enc

variable {s s' : Scheduler} {e e' : Engine} {ev : Event} {P : EncoderCacheManager → Prop}

theorem Kept.frees (h : Kept size P s) (hinv : EncInv cfg a (EncoderCacheManager.Sized size) P)
    (hsized : s'.Sized size) {F : Ref → Prop} (hfrees : FreesInputs F s s') : Kept size P s' :=
  ⟨hsized, hinv.freed (hfrees _ fun v _ => (h.sized v).features) h.enc⟩

theorem Kept.finishRequests (h : Kept size P s)
    (hinv : EncInv cfg a (EncoderCacheManager.Sized size) P) {ids : Option (List RequestId)}
    {finishedStatus : RequestStatus}
    (hrun : s.finishRequests cfg a ids finishedStatus = some s') : Kept size P s' :=
  h.frees hinv (h.sized.finishRequests hrun) (finishRequests_frees hrun)

theorem Kept.turn {out : SchedulerOutput} {m : ModelRunnerOutput} {failed : List RequestId}
    {id : RequestId} {z z' : Stops} (h : Kept size P z.s)
    (hinv : EncInv cfg a (EncoderCacheManager.Sized size) P)
    (hturn : Turn cfg hasher out m failed id z z') : Kept size P z'.s := by
  have hsized := hturn.sized h.sized
  cases hturn with
  | ignored _ => exact h
  | goesOn v r s _ _ _ henc => exact ⟨hsized, henc ▸ h.enc⟩
  | stops v r s1 s _ _ _ _ hfrees =>
    revert hsized
    split <;> exact fun hsized => h.frees hinv hsized hfrees

theorem Kept.updateLoop {out : SchedulerOutput} {m : ModelRunnerOutput} {failed : List RequestId}
    {es : List (RequestId × ℤ)} {z z' : Stops} (h : Kept size P z.s)
    (hinv : EncInv cfg a (EncoderCacheManager.Sized size) P)
    (hrun : updateLoop cfg hasher a out m failed es z = some z') : Kept size P z'.s := by
  induction es generalizing z with
  | nil =>
    cases hrun
    exact h
  | cons x es ih =>
    obtain ⟨z1, hz1, hrun⟩ := Option.bind_eq_some_iff.mp hrun
    exact ih (h.turn hinv (updateTurn_cases hz1)) hrun

theorem removeStopped_enc (cfg : SchedulerConfig) (z : Stops) :
    (removeStopped cfg z).enc = z.s.enc ∧ (removeStopped cfg z).req = z.s.req := by
  unfold removeStopped
  split
  · exact ⟨rfl, rfl⟩
  · exact ⟨rfl, rfl⟩

theorem Kept.congr (h : Kept size P s) (hreq : s'.req = s.req) (henc : s'.enc = s.enc) :
    Kept size P s' := ⟨h.sized.of_req hreq, henc ▸ h.enc⟩

theorem Kept.updateFromOutput (h : Kept size P s)
    (hinv : EncInv cfg a (EncoderCacheManager.Sized size) P) {out : SchedulerOutput}
    {m : ModelRunnerOutput} (hrun : s.updateFromOutput cfg hasher a out m = some s') :
    Kept size P s' := by
  obtain ⟨failed, s1, z, s2, hsame, hloop, hfinish, hrun⟩ := updateFromOutput_cases hrun
  have h1 : Kept size P s1 := ⟨h.sized.same hsame.toSameRequests, hsame.enc ▸ h.enc⟩
  have h2 : Kept size P z.s := Kept.updateLoop (z := { s := s1 }) h1 hinv hloop
  obtain ⟨henc, hreq⟩ := removeStopped_enc cfg z
  have h3 : Kept size P s2 := by
    rcases hfinish with rfl | hfinish
    · exact h2.congr hreq henc
    · exact (h2.congr hreq henc).finishRequests hinv hfinish
  obtain ⟨hreq, henc⟩ := updateFromKvXferFinished_keeps hrun
  exact h3.congr hreq henc

theorem Kept.addNewRequest (h : Kept size P s) {r : Request} (hr : r.Sized size) :
    Kept size P (s.addNewRequest cfg r) := by
  obtain ⟨r', hadds⟩ := addNewRequest_adds cfg s r
  refine ⟨fun w => ?_, hadds.enc ▸ h.enc⟩
  by_cases hw : w = s.nextRef
  · rw [hw, hadds.self]
    refine ⟨?_, fun u hu => hr.queue u (hadds.streamingQueue hu)⟩
    rw [hadds.request]
    exact hr.features
  · rw [hadds.others w hw]
    exact h.sized w

theorem Kept.addRequest (h : Kept size P s) (hinv : EncInv cfg a (EncoderCacheManager.Sized size) P)
    {q : Request.EngineCoreRequest} (hq : EncoderCacheManager.Sized size q.mmFeatures)
    (hrun : s.addRequest cfg hasher a q = some s') : Kept size P s' := by
  obtain ⟨r, harrives, hadds⟩ := addRequest_cases hrun
  have hsized : r.Sized size := by
    refine ⟨harrives.mmFeatures ▸ hq, fun update hu => ?_⟩
    rw [harrives.streamingQueue] at hu
    cases hu
  have hupdate : ∀ update, r.toStreamingUpdate = some update →
      EncoderCacheManager.Sized size update.mmFeatures := by
    intro update hu
    unfold Request.toStreamingUpdate at hu
    split at hu
    · cases hu
      exact hsized.features
    · cases hu
  cases hadds with
  | new _ => exact h.addNewRequest hsized
  | queued v queue _ _ hqueue =>
    refine ⟨h.sized.modify rfl ⟨(h.sized v).features, fun update hu => ?_⟩, h.enc⟩
    rcases mem_append.mp hu with hu | hu
    · refine (h.sized v).queue update ?_
      rw [hqueue]
      exact hu
    · exact hupdate update (mem_singleton.mp hu).symm
  | continued v update r' _ _ hu hr' =>
    exact ⟨h.sized.modify (v := v) (f := fun _ => r') rfl
      ((h.sized v).updateAsSession (hupdate update hu) hr'), h.enc⟩
  | closed v s' _ _ hrun => exact h.finishRequests hinv hrun

/-- One event, for any property of the encoder cache that the scheduler keeps. -/
theorem Kept.step (h : Kept size P e.s)
    (hinv : ∀ a, EncInv cfg a (EncoderCacheManager.Sized size) P)
    (hreset : ∀ enc, P enc → P enc.reset) (hev : SizedInput size ev)
    (hstep : e.step cfg hasher ev = some e') : Kept size P e'.s := by
  cases step_cases hstep with
  | addRequest q a s hs => exact h.addRequest (hinv a) hev hs
  | finishRequests ids status a s hs => exact h.finishRequests (hinv a) hs
  | schedule a out s hs =>
    refine ⟨h.sized.same (schedule_moves hs).1, ?_⟩
    exact schedule_enc (hinv a) h.enc (fun v => (h.sized v).features) hs
  | updateFromOutput m a out rest s _ hs => exact h.updateFromOutput (hinv a) hs
  | updateDraftTokenIds drafts =>
    have hsame := updateDraftTokenIds_recounts drafts e.s
    exact ⟨h.sized.same hsame.toSameRequests, hsame.enc ▸ h.enc⟩
  | resetPrefixCache b s hs =>
    obtain ⟨⟨hsame, hfrees⟩, -⟩ := resetPrefixCache_moves hs
    exact h.frees (hinv {}) (h.sized.same hsame) hfrees
  | resetEncoderCache => exact ⟨h.sized, hreset _ h.enc⟩
  | setPauseState pauseState => exact ⟨h.sized, h.enc⟩

theorem Kept.of_reach {kv : KVCacheManager} {enc : EncoderCacheManager}
    (hinv : ∀ a, EncInv cfg a (EncoderCacheManager.Sized size) P)
    (hreset : ∀ enc, P enc → P enc.reset) (henc : P enc)
    (h : Reach (Engine.step cfg hasher) (fun _ ev => SizedInput size ev) (init kv enc) e) :
    Kept size P e.s := by
  refine h.invariant (fun e => Kept size P e.s) ?_ fun e ev e' he hev hstep =>
    he.step hinv hreset hev hstep
  refine ⟨fun v => ⟨fun f hf => ?_, fun update hu => ?_⟩, henc⟩
  · exact absurd hf not_mem_nil
  · exact absurd hu not_mem_nil

theorem accounted_reset {enc : EncoderCacheManager} (h : enc.Accounted size ∧ enc.cacheSize = n) :
    enc.reset.Accounted size ∧ enc.reset.cacheSize = n := by
  rw [EncoderCacheManager.reset, if_neg (by simp [h.1.plain])]
  exact ⟨accounted_init _, h.2⟩

/-- **The encoder cache is accounted for** in every run, and every call that a pass makes finds it
so. -/
theorem encoder_accounts_balance {kv : KVCacheManager} (hcfg : cfg.isEncoderDecoder = false)
    (h : Reach (step cfg hasher) (fun _ ev => SizedInput size ev) (init kv (.init false n)) e) :
    e.s.enc.Balanced size n ∧ ∀ a, e.s.Sound cfg a size n := by
  have hkept : Kept size (fun enc => enc.Accounted size ∧ enc.cacheSize = n) e.s :=
    .of_reach (fun a => encInv_accounted cfg a hcfg size n) (fun _ => accounted_reset)
      ⟨accounted_init n, rfl⟩ h
  refine ⟨?_, hkept.sized.sound hcfg hkept.enc⟩
  have hbalanced := hkept.enc.1.balanced
  rw [hkept.enc.2] at hbalanced
  exact hbalanced

/-- Two requests with images of four and three embeddings, in a cache of five. -/
def imageInput (id : RequestId) (image : MmHash) (length : ℕ) (hlength : 0 < length) :
    Request.EngineCoreRequest where
  requestId := id
  promptTokenIds := replicate 6 1
  mmFeatures := [⟨image, { offset := 1, length := length, length_pos := hlength }⟩]

def imageConfig : SchedulerConfig where
  maxNumRunningReqs := 4
  maxNumScheduledTokens := 16
  maxModelLen := 16
  blockSize := 4
  maxNumEncoderInputTokens := 8

/-- The second image takes the place of the first one once that is computed. -/
def imageEvents : List Event :=
  [.addRequest (imageInput 1 "cat" 4 pos_four) {}, .schedule {},
    .addRequest (imageInput 2 "dog" 3 (by decide)) {}, .schedule {}]

def imageSize (h : MmHash) : ℕ := if h = "cat" then 4 else 3

theorem evicted_image_is_accounted : ∃ kv e,
    Reach (step imageConfig fun _ => some []) (fun _ ev => SizedInput imageSize ev)
      (init kv (.init false 5)) e ∧ e.s.enc.cached.keys = ["dog"] ∧ e.s.enc.numFreeSlots = 2 ∧
    e.s.enc.Balanced imageSize 5 ∧ ∀ a, e.s.Sound imageConfig a imageSize 5 := by
  obtain ⟨e0, he0, e, he, hkeys, hfree⟩ : ∃ e0 ∈ startFull 16 16 false 5,
      ∃ e ∈ run (guarded (fun _ ev => SizedInput imageSize ev)
        (step imageConfig fun _ => some [])) e0 imageEvents,
        e.s.enc.cached.keys = ["dog"] ∧ e.s.enc.numFreeSlots = 2 := by
    decide +kernel
  obtain ⟨kv, -, rfl⟩ := Option.map_eq_some_iff.mp he0
  have hreach := Reach.of_guarded_run .init he
  exact ⟨kv, e, hreach, hkeys, hfree, encoder_accounts_balance rfl hreach⟩

end Engine

end Nvllm.Sched
