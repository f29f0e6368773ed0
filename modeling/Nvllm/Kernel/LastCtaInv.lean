import Nvllm.Kernel.LastCta

/-! # What one step of the last-CTA protocol can do

`StepTo` lists the transitions of a launch, one constructor for each way a thread can move; every
invariant below is proved by cases on it. The invariants are kept apart by what they speak about:
program counters and barriers, stores and buffers, the arrival counter, and the values gathered.
-/

namespace Nvllm.Kernel.LastCta

variable {V : Type*}

@[simp] theorem State.setThr_mem (s : State V) (c t : ℕ) (th : Thread V) :
    (s.setThr c t th).mem = s.mem := rfl

@[simp] theorem State.setThr_stored (s : State V) (c t : ℕ) (th : Thread V) :
    (s.setThr c t th).stored = s.stored := rfl

@[simp] theorem State.setThr_count (s : State V) (c t : ℕ) (th : Thread V) :
    (s.setThr c t th).count = s.count := rfl

@[simp] theorem State.setThr_flag (s : State V) (c t : ℕ) (th : Thread V) :
    (s.setThr c t th).flag = s.flag := rfl

@[simp] theorem State.setThr_self (s : State V) (c t : ℕ) (th : Thread V) :
    (s.setThr c t th).thr c t = th := by
  simp [State.setThr]

theorem takePending_perm {l : Loc} {v : V} {buf buf' : List (Loc × V)}
    (h : takePending l buf = some (v, buf')) : buf.Perm ((l, v) :: buf') := by
  induction buf generalizing buf' with
  | nil => cases h
  | cons e rest ih =>
    obtain ⟨k, w⟩ := e
    unfold takePending at h
    split at h
    · rename_i hk
      cases h
      rw [hk]
    · obtain ⟨⟨w', buf''⟩, hrec, he⟩ := Option.map_eq_some_iff.mp h
      cases he
      exact ((ih hrec).cons _).trans (.swap ..)

theorem takePending_mem {l : Loc} {v : V} {buf buf' : List (Loc × V)}
    (h : takePending l buf = some (v, buf')) (e : Loc × V) : e ∈ buf ↔ e = (l, v) ∨ e ∈ buf' :=
  (takePending_perm h).mem_iff.trans List.mem_cons

theorem takePending_isSome {e : Loc × V} {buf : List (Loc × V)} (h : e ∈ buf) :
    (takePending e.1 buf).isSome := by
  induction buf with
  | nil => cases h
  | cons d rest ih =>
    unfold takePending
    split
    · rfl
    · rename_i hk
      rw [Option.isSome_map]
      rcases List.mem_cons.mp h with he | he
      · exact absurd (congrArg Prod.fst he).symm hk
      · exact ih he

theorem Launch.atBarrier_iff (L : Launch V) (s : State V) (c n : ℕ) :
    L.atBarrier s c n = true ↔ ∀ t < L.threads, n ≤ (s.thr c t).pc.stage := by
  simp [Launch.atBarrier]

/-- The moves that change only the program counter of thread `t` of CTA `c`. Only thread 0 announces
the CTA. -/
inductive Moves (L : Launch V) (s : State V) (c t : ℕ) : Pc → Pc → Prop
  | storesDone {r : ℕ} (hr : ¬ r < L.rows) : Moves L s c t (.store r) .fence
  | fenceBarrier (hbuf : (s.thr c t).buf = []) (hord : L.order = .fenceBarrierArrive) :
      Moves L s c t .fence .preSync
  | fenceArrive (hbuf : (s.thr c t).buf = []) (hord : L.order = .fenceArrive) (ht : t = 0) :
      Moves L s c t .fence .arrive
  | fenceSync (hbuf : (s.thr c t).buf = []) (hord : L.order = .fenceArrive) (ht : t ≠ 0) :
      Moves L s c t .fence .sync
  | barrierArrive (hbar : ∀ u < L.threads, 2 ≤ (s.thr c u).pc.stage) (ht : t = 0) :
      Moves L s c t .preSync .arrive
  | barrierSync (hbar : ∀ u < L.threads, 2 ≤ (s.thr c u).pc.stage) (ht : t ≠ 0) :
      Moves L s c t .preSync .sync
  | sync (hbar : ∀ u < L.threads, 5 ≤ (s.thr c u).pc.stage) : Moves L s c t .sync .readFlag
  | notLast (hflag : s.flag c = false) : Moves L s c t .readFlag (.done false)
  | gatherDone {r k : ℕ} (hr : ¬ r < L.rows) : Moves L s c t (.gather r k) .gatherFence
  | gatherFence (hbuf : (s.thr c t).buf = []) : Moves L s c t .gatherFence .gatherSync
  | gatherSync (hbar : ∀ u < L.threads, 9 ≤ (s.thr c u).pc.stage) :
      Moves L s c t .gatherSync (.done true)

theorem Moves.of_fence {L : Launch V} {s : State V} {c t : ℕ} (hbuf : (s.thr c t).buf = []) :
    Moves L s c t .fence (L.afterFence t) := by
  unfold Launch.afterFence arrivePc
  split
  · split
    · exact .fenceArrive hbuf ‹_› ‹_›
    · exact .fenceSync hbuf ‹_› ‹_›
  · exact .fenceBarrier hbuf ‹_›

theorem Moves.of_barrier {L : Launch V} {s : State V} {c t : ℕ}
    (hbar : ∀ u < L.threads, 2 ≤ (s.thr c u).pc.stage) : Moves L s c t .preSync (arrivePc t) := by
  unfold arrivePc
  split
  · exact .barrierArrive hbar ‹_›
  · exact .barrierSync hbar ‹_›

/-- **The transitions of a launch.** -/
inductive StepTo [Add V] [Zero V] (L : Launch V) (s : State V) (c t : ℕ) : State V → Prop
  | move {pc' : Pc} (h : Moves L s c t (s.thr c t).pc pc') :
      StepTo L s c t (s.setThr c t { s.thr c t with pc := pc' })
  | store {r : ℕ} (hpc : (s.thr c t).pc = .store r) (hr : r < L.rows) :
      StepTo L s c t (s.setThr c t { s.thr c t with
        pc := .store (r + 1)
        buf := (s.thr c t).buf ++ [((c, L.row t r), L.gemv c (L.row t r))] })
  | arrive (hpc : (s.thr c t).pc = .arrive) :
      StepTo L s c t { s.setThr c t { s.thr c t with pc := .publish s.count } with
        count := s.count + 1 }
  | publish {old : ℕ} (hpc : (s.thr c t).pc = .publish old) :
      StepTo L s c t { s.setThr c t { s.thr c t with pc := .sync } with
        flag := fun c' => if c' = c then decide (old = L.ctas - 1) else s.flag c' }
  | last (hpc : (s.thr c t).pc = .readFlag) (hflag : s.flag c = true) :
      StepTo L s c t (s.setThr c t { s.thr c t with pc := .gather 0 0, acc := 0 })
  | load {r k : ℕ} (hpc : (s.thr c t).pc = .gather r k) (hr : r < L.rows) (hk : k < L.ctas) :
      StepTo L s c t (s.setThr c t { s.thr c t with
        pc := .gather r (k + 1)
        acc := (s.thr c t).acc + s.load c t (k, L.row t r) })
  | collapse {r k : ℕ} (hpc : (s.thr c t).pc = .gather r k) (hr : r < L.rows)
      (hk : ¬ k < L.ctas) :
      StepTo L s c t (s.setThr c t
        { pc := .gather (r + 1) 0
          buf := (s.thr c t).buf ++ [((0, L.row t r), (s.thr c t).acc)]
          acc := 0 })
  | flush {l : Loc} {v : V} {buf' : List (Loc × V)}
      (h : takePending l (s.thr c t).buf = some (v, buf')) :
      StepTo L s c t ((s.setThr c t { s.thr c t with buf := buf' }).write l v)

variable {L : Launch V} {c t : ℕ} {s : State V} {pc pc' : Pc}

theorem Launch.exec_stepTo [Add V] [Zero V] {s' : State V}
    (h : L.exec s c t = some s') : StepTo L s c t s' := by
  have hmove : ∀ pc pc', (s.thr c t).pc = pc → Moves L s c t pc pc' →
      StepTo L s c t (s.setThr c t { s.thr c t with pc := pc' }) := by
    intro pc pc' hpc hm
    exact .move (hpc ▸ hm)
  cases hpc : (s.thr c t).pc <;> simp only [Launch.exec, hpc] at h
  case store r =>
    split at h <;> cases h
    · exact .store hpc ‹_›
    · exact hmove _ _ hpc (.storesDone ‹_›)
  case fence =>
    split at h <;> cases h
    exact hmove _ _ hpc (.of_fence (List.isEmpty_iff.mp ‹_›))
  case preSync =>
    split at h <;> cases h
    exact hmove _ _ hpc (.of_barrier ((L.atBarrier_iff s c 2).mp ‹_›))
  case arrive =>
    cases h
    exact .arrive hpc
  case publish old =>
    cases h
    exact .publish hpc
  case sync =>
    split at h <;> cases h
    exact hmove _ _ hpc (.sync ((L.atBarrier_iff s c 5).mp ‹_›))
  case readFlag =>
    split at h <;> cases h
    · exact .last hpc ‹_›
    · exact hmove _ _ hpc (.notLast (by simp_all))
  case gather r k =>
    split at h
    · split at h <;> cases h
      · exact .load hpc ‹_› ‹_›
      · exact .collapse hpc ‹_› ‹_›
    · cases h
      exact hmove _ _ hpc (.gatherDone ‹_›)
  case gatherFence =>
    split at h <;> cases h
    exact hmove _ _ hpc (.gatherFence (List.isEmpty_iff.mp ‹_›))
  case gatherSync =>
    split at h <;> cases h
    exact hmove _ _ hpc (.gatherSync ((L.atBarrier_iff s c 9).mp ‹_›))
  case done b => cases h

/-- Every step of a run is one of the transitions, of a thread of the launch. -/
theorem Launch.step_stepTo [Add V] [Zero V] {s' : State V} {a : Label}
    (h : L.step s a = some s') : ∃ c t, c < L.ctas ∧ t < L.threads ∧ StepTo L s c t s' := by
  cases a with
  | exec c t =>
    simp only [Launch.step] at h
    split at h
    · exact ⟨c, t, (‹_ ∧ _›).1, (‹_ ∧ _›).2, L.exec_stepTo h⟩
    · cases h
  | flush c t l =>
    simp only [Launch.step] at h
    split at h
    · obtain ⟨⟨v, buf'⟩, hp, he⟩ := Option.map_eq_some_iff.mp h
      cases he
      exact ⟨c, t, (‹_ ∧ _›).1, (‹_ ∧ _›).2, .flush hp⟩
    · cases h

/-! ## Program counters and barriers -/

theorem Moves.stage_lt (h : Moves L s c t pc pc') : pc.stage < pc'.stage := by
  cases h <;> simp [Pc.stage]

/-- How the program counter of a thread changes in one of its steps. -/
inductive PcMove (L : Launch V) (s : State V) (c t : ℕ) : Pc → Pc → Prop
  | same (pc : Pc) : PcMove L s c t pc pc
  | move {pc pc' : Pc} : Moves L s c t pc pc' → PcMove L s c t pc pc'
  | store (r : ℕ) : PcMove L s c t (.store r) (.store (r + 1))
  | arrive : PcMove L s c t .arrive (.publish s.count)
  | publish (old : ℕ) : PcMove L s c t (.publish old) .sync
  | last : s.flag c = true → PcMove L s c t .readFlag (.gather 0 0)
  | gather (r k r' k' : ℕ) : PcMove L s c t (.gather r k) (.gather r' k')

theorem PcMove.stage_le (h : PcMove L s c t pc pc') : pc.stage ≤ pc'.stage := by
  cases h with
  | move hm => exact hm.stage_lt.le
  | _ => simp [Pc.stage]

/-- The barriers before the gather: the one before the flag read, and the one between the fence and
the arrival where the kernel has it. -/
def Launch.IsBarrier (L : Launch V) (n : ℕ) : Prop :=
  n = 5 ∨ (n = 2 ∧ L.order = .fenceBarrierArrive)

/-- A thread gets past a barrier only when its CTA has come to it. -/
theorem PcMove.cross_barrier {n : ℕ} (hn : L.IsBarrier n) (h : PcMove L s c t pc pc')
    (hst : n < pc'.stage) : n < pc.stage ∨ ∀ u < L.threads, n ≤ (s.thr c u).pc.stage := by
  rcases hn with rfl | ⟨rfl, hord⟩
  · cases h with
    | move hm =>
      cases hm with
      | sync hbar => exact .inr hbar
      | _ => simp_all [Pc.stage]
    | _ => simp_all [Pc.stage]
  · cases h with
    | move hm =>
      cases hm with
      | barrierArrive hbar | barrierSync hbar => exact .inr hbar
      | _ => simp_all [Pc.stage]
    | _ => simp_all [Pc.stage]

/-- A thread gets past its fence only with an empty buffer. -/
theorem PcMove.cross_fence (h : PcMove L s c t pc pc') (h1 : 1 < pc'.stage) :
    1 < pc.stage ∨ (pc = .fence ∧ (s.thr c t).buf = []) := by
  cases h with
  | move hm => cases hm <;> simp_all [Pc.stage]
  | _ => simp_all [Pc.stage]

theorem PcMove.roles (h : PcMove L s c t pc pc') (ht : t ≠ 0)
    (hi : pc.stage ≠ 3 ∧ pc.stage ≠ 4) : pc'.stage ≠ 3 ∧ pc'.stage ≠ 4 := by
  cases h with
  | move hm => cases hm <;> simp_all [Pc.stage]
  | _ => simp_all [Pc.stage]

section

variable [Add V] [Zero V] {L : Launch V} {s s' : State V} {c t : ℕ}

variable {c' t' : ℕ}

/-- A step of thread `t` of CTA `c` leaves every other thread as it is. -/
theorem StepTo.thr_ne (h : StepTo L s c t s') (hne : ¬ (c' = c ∧ t' = t)) :
    s'.thr c' t' = s.thr c' t' := by
  cases h <;> simp [State.setThr, State.write, hne]

/-- So what holds of the threads has to be shown for the one that took the step. -/
theorem StepTo.forall_thr (h : StepTo L s c t s') (P : ℕ → ℕ → Thread V → Prop)
    (hi : ∀ c t, P c t (s.thr c t)) (hself : P c t (s'.thr c t)) (c' t' : ℕ) :
    P c' t' (s'.thr c' t') := by
  by_cases hne : c' = c ∧ t' = t
  · rw [hne.1, hne.2]
    exact hself
  · rw [h.thr_ne hne]
    exact hi c' t'

theorem StepTo.pcMove (h : StepTo L s c t s') :
    PcMove L s c t (s.thr c t).pc (s'.thr c t).pc := by
  cases h with
  | move hm =>
    rw [State.setThr_self]
    exact .move hm
  | store hpc _ =>
    rw [State.setThr_self, hpc]
    exact .store _
  | arrive hpc =>
    rw [hpc]
    simpa [State.setThr] using .arrive
  | publish hpc =>
    rw [hpc]
    simpa [State.setThr] using .publish _
  | last hpc hflag =>
    rw [State.setThr_self, hpc]
    exact .last hflag
  | load hpc _ _ | collapse hpc _ _ =>
    rw [State.setThr_self, hpc]
    exact .gather ..
  | flush _ => simpa [State.setThr, State.write] using .same _

theorem StepTo.stage_le (h : StepTo L s c t s') (c' t' : ℕ) :
    (s.thr c' t').pc.stage ≤ (s'.thr c' t').pc.stage :=
  h.forall_thr (fun c t th => (s.thr c t).pc.stage ≤ th.pc.stage) (fun _ _ => le_rfl)
    h.pcMove.stage_le c' t'

/-- Program counters: only thread 0 announces the CTA, and no thread is past a barrier before
all threads of its CTA have come to it. -/
structure PcInv (L : Launch V) (s : State V) : Prop where
  roles : ∀ c t, t ≠ 0 → (s.thr c t).pc.stage ≠ 3 ∧ (s.thr c t).pc.stage ≠ 4
  barrier : ∀ n, L.IsBarrier n → ∀ c t, n < (s.thr c t).pc.stage →
    ∀ u < L.threads, n ≤ (s.thr c u).pc.stage

theorem StepTo.pcInv (h : StepTo L s c t s') (hi : PcInv L s) : PcInv L s' where
  roles := h.forall_thr (fun _ t th => t ≠ 0 → th.pc.stage ≠ 3 ∧ th.pc.stage ≠ 4) hi.roles
    fun ht => h.pcMove.roles ht (hi.roles c t ht)
  barrier := by
    intro n hn
    refine h.forall_thr
      (fun c _ th => n < th.pc.stage → ∀ u < L.threads, n ≤ (s'.thr c u).pc.stage)
      (fun c t hst u hu => (hi.barrier n hn c t hst u hu).trans (h.stage_le c u)) fun hst u hu => ?_
    rcases h.pcMove.cross_barrier hn hst with hst | hbar
    · exact (hi.barrier n hn c t hst u hu).trans (h.stage_le c u)
    · exact (hbar u hu).trans (h.stage_le c u)

end

theorem Launch.pcInv_init [Zero V] (L : Launch V) : PcInv L L.init where
  roles := by
    simp [Launch.init, Pc.stage]
  barrier := by
    intro n _ c t h
    simp [Launch.init, Pc.stage] at h

/-! ## Stores and buffers -/

/-- Slot stores: what a thread has issued is visible or in its buffer, and once it is past its
fence all its rows are visible. -/
structure StoreInv (L : Launch V) (s : State V) : Prop where
  pending : ∀ c t, (s.thr c t).pc.stage ≤ 1 → ∀ e ∈ (s.thr c t).buf,
    ∃ r < L.rows, e = ((c, L.row t r), L.gemv c (L.row t r))
  issued : ∀ c t r, r < L.rows →
    ((∃ k, (s.thr c t).pc = .store k ∧ r < k) ∨ (s.thr c t).pc = .fence) →
    s.stored c (L.row t r) = true ∨ ∃ v, ((c, L.row t r), v) ∈ (s.thr c t).buf
  fenced : ∀ c t r, r < L.rows → 1 < (s.thr c t).pc.stage → s.stored c (L.row t r) = true
  drained : ∀ c t, 1 < (s.thr c t).pc.stage →
    ((s.thr c t).pc.stage < 7 ∨ 8 < (s.thr c t).pc.stage) → (s.thr c t).buf = []

section

variable [Add V] [Zero V] {L : Launch V} {s s' : State V} {c t : ℕ}

theorem StepTo.stored_of_stored (h : StepTo L s c t s') {c' j : ℕ} (hs : s.stored c' j = true) :
    s'.stored c' j = true := by
  cases h <;> simp [State.setThr, State.write, hs]

/-- A buffered store is visible after the step or still in the buffer. -/
theorem StepTo.buf_or_stored (h : StepTo L s c t s') {c' t' : ℕ} {l : Loc} {v : V}
    (hl : (l, v) ∈ (s.thr c' t').buf) : s'.stored l.1 l.2 = true ∨ (l, v) ∈ (s'.thr c' t').buf := by
  by_cases hne : c' = c ∧ t' = t
  · obtain ⟨rfl, rfl⟩ := hne
    cases h with
    | flush hp =>
      rcases (takePending_mem hp (l, v)).mp hl with hl | hl
      · obtain ⟨rfl, rfl⟩ := Prod.mk.inj hl
        exact .inl (by simp [State.write])
      · exact .inr (by simp [State.setThr, State.write, hl])
    | move | last | load => exact .inr (by simpa using hl)
    | store | collapse => exact .inr (by simp [hl])
    | arrive | publish => exact .inr (by simpa [State.setThr] using hl)
  · rw [h.thr_ne hne]
    exact .inr hl

theorem StepTo.storeInv (h : StepTo L s c t s') (hi : StoreInv L s) : StoreInv L s' where
  pending := by
    refine h.forall_thr (fun c t th => th.pc.stage ≤ 1 → ∀ e ∈ th.buf,
      ∃ r < L.rows, e = ((c, L.row t r), L.gemv c (L.row t r))) hi.pending fun hst e he => ?_
    have hold := hi.pending c t ((h.stage_le c t).trans hst) e
    cases h with
    | store hpc hr =>
      rw [State.setThr_self] at he
      rcases List.mem_append.mp he with he | he
      · exact hold he
      · exact ⟨_, hr, List.mem_singleton.mp he⟩
    | flush hp =>
      simp only [State.write, State.setThr_self] at he
      exact hold ((takePending_mem hp e).mpr (.inr he))
    | collapse => simp [Pc.stage] at hst
    | move | last | load => exact hold (by simpa using he)
    | arrive | publish => exact hold (by simpa [State.setThr] using he)
  issued := by
    intro c' t' r hr hpc'
    have key : ((∃ k, (s.thr c' t').pc = .store k ∧ r < k) ∨ (s.thr c' t').pc = .fence) →
        s'.stored c' (L.row t' r) = true ∨ ∃ v, ((c', L.row t' r), v) ∈ (s'.thr c' t').buf := by
      intro hold
      rcases hi.issued c' t' r hr hold with hs | ⟨v, hv⟩
      · exact .inl (h.stored_of_stored hs)
      · rcases h.buf_or_stored hv with hs | hv
        · exact .inl hs
        · exact .inr ⟨v, hv⟩
    by_cases hne : c' = c ∧ t' = t
    · obtain ⟨rfl, rfl⟩ := hne
      cases h with
      | store hpc hk =>
        rename_i k
        simp only [State.setThr_self, Pc.store.injEq, reduceCtorEq, or_false] at hpc'
        by_cases hrk' : r < k
        · exact key (.inl ⟨k, hpc, hrk'⟩)
        · obtain rfl : r = k := by omega
          exact .inr ⟨L.gemv c' (L.row t' r), by simp⟩
      | move hm =>
        generalize hpc : (s.thr c' t').pc = pc at hm
        cases hm with
        | storesDone hr' => exact key (.inl ⟨_, hpc, by omega⟩)
        | _ => simp at hpc'
      | flush => exact key (by simpa [State.setThr, State.write] using hpc')
      | _ => simp [State.setThr] at hpc'
    · rw [h.thr_ne hne] at hpc'
      exact key hpc'
  fenced := by
    intro c' t' r hr
    refine h.forall_thr (fun c t th => 1 < th.pc.stage → s'.stored c (L.row t r) = true)
      (fun c t h1 => h.stored_of_stored (hi.fenced c t r hr h1)) (fun h1 => ?_) c' t'
    rcases h.pcMove.cross_fence h1 with h1 | ⟨hpc, hbuf⟩
    · exact h.stored_of_stored (hi.fenced c t r hr h1)
    · rcases hi.issued c t r hr (.inr hpc) with hs | ⟨v, hv⟩
      · exact h.stored_of_stored hs
      · rw [hbuf] at hv
        cases hv
  drained := by
    refine h.forall_thr (fun _ _ th => 1 < th.pc.stage → (th.pc.stage < 7 ∨ 8 < th.pc.stage) →
      th.buf = []) hi.drained fun h1 h2 => ?_
    have hd := hi.drained c t
    cases h with
    | move hm =>
      rw [State.setThr_self] at h1 h2 ⊢
      generalize (s.thr c t).pc = pc at hm hd
      cases hm with
      | fenceBarrier hbuf | fenceArrive hbuf | fenceSync hbuf | gatherFence hbuf => exact hbuf
      | storesDone => simp [Pc.stage] at h1
      | gatherDone => simp [Pc.stage] at h2
      | _ => exact hd (by simp [Pc.stage]) (by simp [Pc.stage])
    | store => simp [Pc.stage] at h1
    | arrive hpc | publish hpc =>
      simpa [State.setThr] using hd (by simp [hpc, Pc.stage]) (by simp [hpc, Pc.stage])
    | last | load | collapse => simp [Pc.stage] at h2
    | flush hp =>
      simp only [State.write, State.setThr_self] at h1 h2
      rw [hd h1 h2] at hp
      cases hp

end

theorem Launch.storeInv_init [Zero V] (L : Launch V) : StoreInv L L.init where
  pending := by
    intro c t _ e he
    simp [Launch.init] at he
  issued := by
    intro c t r _ h
    simp [Launch.init] at h
  fenced := by
    intro c t r _ h
    simp [Launch.init, Pc.stage] at h
  drained := by
    intro c t _ _
    rfl

/-! ## The arrival counter and the flag -/

/-- CTA `c` drew the last number: its thread 0 is about to publish it, or has set the flag. -/
def State.won (L : Launch V) (s : State V) (c : ℕ) : Prop :=
  (s.thr c 0).pc = .publish (L.ctas - 1) ∨ (5 ≤ (s.thr c 0).pc.stage ∧ s.flag c = true)

/-- CTAs whose atomic add has happened. -/
def State.arrived (L : Launch V) (s : State V) : Finset ℕ :=
  (Finset.range L.ctas).filter fun c => 4 ≤ (s.thr c 0).pc.stage

/-- Arrivals: the counter counts them, and one CTA draws the last number, as soon as all CTAs have
arrived. -/
structure CountInv (L : Launch V) (s : State V) : Prop where
  count : s.count = (s.arrived L).card
  winner : ∃ w, (0 < L.ctas → w < L.ctas) ∧
    ∀ c < L.ctas, s.won L c ↔ c = w ∧ s.count = L.ctas
  flag : ∀ c t, 7 ≤ (s.thr c t).pc.stage → (s.thr c t).pc.isLastCta = s.flag c

theorem CountInv.unique (hi : CountInv L s) {c' : ℕ} (hc : c < L.ctas) (hc' : c' < L.ctas)
    (hw : s.won L c) (hw' : s.won L c') : c = c' := by
  obtain ⟨w, -, hwon⟩ := hi.winner
  rw [((hwon c hc).mp hw).1, ((hwon c' hc').mp hw').1]

theorem CountInv.arrived_of_won (hi : CountInv L s) {c' : ℕ} (hc : c < L.ctas) (hw : s.won L c)
    (hc' : c' < L.ctas) : 4 ≤ (s.thr c' 0).pc.stage := by
  obtain ⟨w, -, hwon⟩ := hi.winner
  have hcard : (s.arrived L).card = (Finset.range L.ctas).card := by
    rw [← hi.count, ((hwon c hc).mp hw).2, Finset.card_range]
  have heq := Finset.eq_of_subset_of_card_le (Finset.filter_subset _ _) hcard.ge
  have hmem : c' ∈ s.arrived L := by
    rw [State.arrived, heq]
    exact Finset.mem_range.mpr hc'
  exact (Finset.mem_filter.mp hmem).2

/-- Thread 0 comes to the barrier before the flag read only by publishing. -/
theorem Moves.zero_iff (h : Moves L s c 0 pc pc') :
    (4 ≤ pc.stage ↔ 4 ≤ pc'.stage) ∧ (5 ≤ pc.stage ↔ 5 ≤ pc'.stage) ∧
      ∀ n, pc ≠ .publish n ∧ pc' ≠ .publish n := by
  cases h <;> simp_all [Pc.stage]

theorem Moves.isLastCta (h : Moves L s c t pc pc') (hst : 7 ≤ pc'.stage) :
    (7 ≤ pc.stage ∧ pc'.isLastCta = pc.isLastCta) ∨
      (pc = .readFlag ∧ pc'.isLastCta = false ∧ s.flag c = false) := by
  cases h with
  | notLast hf => exact .inr ⟨rfl, rfl, hf⟩
  | gatherDone | gatherFence | gatherSync => exact .inl (by simp [Pc.stage, Pc.isLastCta])
  | _ => simp [Pc.stage] at hst

section

variable [Add V] [Zero V] {L : Launch V} {s s' : State V} {c t : ℕ}

/-- What a step leaves as it is when it is no arrival: the counter, the CTAs that have arrived and
the one that drew the last number. -/
structure Quiet (L : Launch V) (s s' : State V) : Prop where
  count : s'.count = s.count
  arrived : ∀ c, 4 ≤ (s'.thr c 0).pc.stage ↔ 4 ≤ (s.thr c 0).pc.stage
  won : ∀ c, s'.won L c ↔ s.won L c

theorem Quiet.mk_of_pc (h : StepTo L s c t s') (hcount : s'.count = s.count)
    (hflag : s'.flag = s.flag)
    (hpc : t = 0 → (4 ≤ (s'.thr c 0).pc.stage ↔ 4 ≤ (s.thr c 0).pc.stage) ∧
      (5 ≤ (s'.thr c 0).pc.stage ↔ 5 ≤ (s.thr c 0).pc.stage) ∧
      ∀ n, (s'.thr c 0).pc = .publish n ↔ (s.thr c 0).pc = .publish n) : Quiet L s s' := by
  have key : ∀ c', (4 ≤ (s'.thr c' 0).pc.stage ↔ 4 ≤ (s.thr c' 0).pc.stage) ∧
      (s'.won L c' ↔ s.won L c') := by
    intro c'
    by_cases hne : c' = c ∧ 0 = t
    · obtain ⟨rfl, rfl⟩ := hne
      obtain ⟨h4, h5, hpub⟩ := hpc rfl
      exact ⟨h4, by simp only [State.won, hflag, h5, hpub]⟩
    · simp only [State.won, hflag, h.thr_ne hne, and_self]
  exact ⟨hcount, fun c' => (key c').1, fun c' => (key c').2⟩

/-- Every step is quiet or an arrival of thread 0. -/
theorem StepTo.quiet_or (h : StepTo L s c t s') (hi : PcInv L s) :
    Quiet L s s' ∨
    (t = 0 ∧ (s.thr c t).pc = .arrive ∧
      s' = { s.setThr c t { s.thr c t with pc := .publish s.count } with
        count := s.count + 1 }) := by
  have h' := h
  have hroles := hi.roles c t
  cases h with
  | arrive hpc =>
    refine .inr ⟨?_, hpc, rfl⟩
    by_contra h0
    exact (hroles h0).1 (by rw [hpc]; rfl)
  | publish hpc =>
    obtain rfl : t = 0 := by
      by_contra h0
      exact (hroles h0).2 (by rw [hpc]; rfl)
    -- the flag now says what the number said
    refine .inl ⟨rfl, fun c' => ?_, fun c' => ?_⟩
    all_goals
      by_cases hcc : c' = c
      · subst hcc
        simp [State.won, State.setThr, hpc, Pc.stage]
      · simp [State.won, State.setThr, hcc]
  | move hm =>
    refine .inl (Quiet.mk_of_pc h' rfl rfl ?_)
    rintro rfl
    obtain ⟨h4, h5, hpub⟩ := hm.zero_iff
    rw [State.setThr_self]
    exact ⟨h4.symm, h5.symm, fun n => by simp [(hpub n).1, (hpub n).2]⟩
  | store hpc | last hpc | load hpc | collapse hpc =>
    refine .inl (Quiet.mk_of_pc h' rfl rfl ?_)
    rintro rfl
    simp [hpc, Pc.stage]
  | flush =>
    refine .inl (Quiet.mk_of_pc h' rfl rfl ?_)
    rintro rfl
    simp [State.setThr, State.write]

theorem StepTo.flag_isLastCta (h : StepTo L s c t s') (hpc : PcInv L s) (ht : t < L.threads)
    (hi : ∀ c t, 7 ≤ (s.thr c t).pc.stage → (s.thr c t).pc.isLastCta = s.flag c) (c' t' : ℕ)
    (hst : 7 ≤ (s'.thr c' t').pc.stage) : (s'.thr c' t').pc.isLastCta = s'.flag c' := by
  by_cases hne : c' = c ∧ t' = t
  · obtain ⟨rfl, rfl⟩ := hne
    cases h with
    | move hm =>
      rw [State.setThr_self] at hst ⊢
      rcases hm.isLastCta hst with ⟨h7, he⟩ | ⟨_, he, hf⟩
      · simpa [he] using hi c' t' h7
      · simpa [he] using hf.symm
    | store => simp [Pc.stage] at hst
    | arrive | publish => simp [State.setThr, Pc.stage] at hst
    | last hpc hflag => simpa [Pc.isLastCta] using hflag.symm
    | load hpc | collapse hpc => simpa [hpc, Pc.isLastCta, Pc.stage] using hi c' t'
    | flush =>
      simp only [State.write, State.setThr_self, State.setThr_flag] at hst ⊢
      exact hi c' t' hst
  · rw [h.thr_ne hne] at hst ⊢
    rw [hi c' t' hst]
    -- the flag is only written before the barrier that every reader is past
    cases h with
    | publish hpub =>
      by_cases hcc : c' = c
      · subst hcc
        have := hpc.barrier 5 (.inl rfl) c' t' (by omega) t ht
        simp [hpub, Pc.stage] at this
      · simp [hcc]
    | _ => rfl

omit [Add V] [Zero V] in
theorem Quiet.countInv (h : Quiet L s s') (hi : CountInv L s)
    (hflag : ∀ c t, 7 ≤ (s'.thr c t).pc.stage → (s'.thr c t).pc.isLastCta = s'.flag c) :
    CountInv L s' where
  count := by
    rw [h.count, hi.count]
    simp only [State.arrived, h.arrived]
  winner := by
    simpa only [h.won, h.count] using hi.winner
  flag := hflag

theorem StepTo.countInv (h : StepTo L s c t s') (hc : c < L.ctas) (ht : t < L.threads)
    (hpc : PcInv L s) (hi : CountInv L s) : CountInv L s' := by
  have hflag := h.flag_isLastCta hpc ht hi.flag
  rcases h.quiet_or hpc with hq | ⟨rfl, ha, rfl⟩
  · exact hq.countInv hi hflag
  · -- thread 0 draws a number: before it, `c` has not arrived, so nobody has won
    have hnot : ∀ c' < L.ctas, ¬ s.won L c' := by
      intro c' hc' hw
      have := hi.arrived_of_won hc' hw hc
      simp [ha, Pc.stage] at this
    have hmem : c ∉ s.arrived L := by
      rw [State.arrived, Finset.mem_filter, ha]
      simp [Pc.stage]
    set s' : State V := { s.setThr c 0 { s.thr c 0 with pc := .publish s.count } with
      count := s.count + 1 } with hs'
    have hself : (s'.thr c 0).pc = .publish s.count := by simp [hs', State.setThr]
    have hother : ∀ c', c' ≠ c → s'.thr c' 0 = s.thr c' 0 := by
      intro c' hne
      simp [hs', State.setThr, hne]
    have hwon : ∀ c' < L.ctas, s'.won L c' ↔ c' = c ∧ s.count + 1 = L.ctas := by
      intro c' hc'
      by_cases hcc : c' = c
      · subst hcc
        simp only [State.won, hself, Pc.stage, Pc.publish.injEq, true_and]
        omega
      · have : ¬ s'.won L c' := by
          have := hnot c' hc'
          have hsame : s'.flag = s.flag := rfl
          simpa only [State.won, hother c' hcc, hsame] using this
        simp [this, hcc]
    refine ⟨?_, ⟨c, fun _ => hc, hwon⟩, hflag⟩
    have harr : s'.arrived L = insert c (s.arrived L) := by
      ext c'
      simp only [State.arrived, Finset.mem_filter, Finset.mem_range, Finset.mem_insert]
      by_cases hcc : c' = c
      · subst hcc
        simp [hself, Pc.stage, hc]
      · simp [hother c' hcc, hcc]
    rw [harr, Finset.card_insert_of_notMem hmem, ← hi.count]

end

theorem Launch.countInv_init [Zero V] (L : Launch V) : CountInv L L.init where
  count := by simp [Launch.init, State.arrived, Pc.stage]
  winner := by
    refine ⟨0, id, fun c hc => ?_⟩
    simp only [State.won, Launch.init, Pc.stage]
    simp [show ¬ 0 = L.ctas by omega]
  flag := by
    intro c t h
    simp [Launch.init, Pc.stage] at h

end Nvllm.Kernel.LastCta
