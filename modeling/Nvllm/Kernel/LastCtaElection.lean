import Nvllm.Kernel.LastCtaInv
import Nvllm.Lib.Index

/-! # The elected CTA sees every slot

With the invariants of `LastCtaInv` the election itself is settled: one CTA is elected. Whether
its gather sees all slots depends on what an arrival says about the *other* threads of the CTA
that arrived. `Launch.Ordered` is the condition; under it the collapsed sum in slot 0 is right in
every interleaving, and without it there is an interleaving in which a row is read before it was
stored.
-/

namespace Nvllm.Kernel.LastCta

open Nvllm.Run Nvllm.Index List

variable {V : Type*}

/-- The arrival of a CTA stands for the stores of all threads that another CTA reads: a barrier
separates them from it, or there is only one thread, or one CTA, or nothing to store. -/
def Launch.Ordered (L : Launch V) : Prop :=
  L.order = .fenceBarrierArrive ∨ L.threads = 1 ∨ L.ctas = 1 ∨ L.rows = 0

/-- Rows of a thread that are collapsed into slot 0 (stored, maybe not visible yet). -/
def Launch.collapsed (L : Launch V) : Pc → ℕ
  | .gather r _ => r
  | .gatherFence => L.rows
  | .gatherSync => L.rows
  | .done true => L.rows
  | _ => 0

/-- The sum over all slots that row `j` of slot 0 ends up with. -/
def Launch.total [AddCommMonoid V] (L : Launch V) (j : ℕ) : V :=
  ∑ c ∈ Finset.range L.ctas, L.gemv c j

theorem Launch.row_inj {L : Launch V} {t t' r r' : ℕ} (hr : r < L.rows) (hr' : r' < L.rows)
    (h : L.row t r = L.row t' r') : t = t' ∧ r = r' :=
  mul_add_inj hr hr' h

/-- Program counters, stores and counter together: what holds in every reachable state,
whatever the order of arrival. -/
structure BaseInv (L : Launch V) (s : State V) : Prop where
  pc : PcInv L s
  store : StoreInv L s
  count : CountInv L s

theorem Launch.baseInv_init [Zero V] (L : Launch V) : BaseInv L L.init :=
  ⟨L.pcInv_init, L.storeInv_init, L.countInv_init⟩

theorem Launch.baseInv_step [Add V] [Zero V] {L : Launch V} {s s' : State V} {a : Label}
    (hi : BaseInv L s) (h : L.step s a = some s') : BaseInv L s' := by
  obtain ⟨c, t, hc, ht, h⟩ := L.step_stepTo h
  exact ⟨h.pcInv hi.pc, h.storeInv hi.store, h.countInv hc ht hi.pc hi.count⟩

section

variable {L : Launch V} {s : State V} {c t : ℕ}

/-- A thread past its flag read belongs to the CTA that drew the last number. -/
theorem BaseInv.won (hi : BaseInv L s) (ht : 0 < L.threads) (h7 : 7 ≤ (s.thr c t).pc.stage)
    (hlast : (s.thr c t).pc.isLastCta = true) : s.won L c := by
  refine .inr ⟨hi.pc.barrier 5 (.inl rfl) c t (by omega) 0 ht, ?_⟩
  rw [← hi.count.flag c t h7, hlast]

theorem Launch.collapsed_pos {pc : Pc} {r : ℕ} (h : r < L.collapsed pc) :
    7 ≤ pc.stage ∧ pc.isLastCta = true := by
  cases pc with
  | done b =>
    cases b with
    | true => simp [Pc.stage, Pc.isLastCta]
    | false => simp [Launch.collapsed] at h
  | gather r k | gatherFence | gatherSync => simp [Pc.stage, Pc.isLastCta]
  | _ => simp [Launch.collapsed] at h

/-- **What an arrival is worth.** When the gather of a thread runs, the threads of all CTAs that
own the same rows are past their fence. -/
theorem BaseInv.fence_lt (hi : BaseInv L s) (hord : L.Ordered) (hc : c < L.ctas)
    (ht : t < L.threads) (h7 : 7 ≤ (s.thr c t).pc.stage) (hlast : (s.thr c t).pc.isLastCta = true)
    (hrows : 0 < L.rows) {c' : ℕ} (hc' : c' < L.ctas) : 1 < (s.thr c' t).pc.stage := by
  have hw := hi.won (by omega) h7 hlast
  have harr := hi.count.arrived_of_won hc hw hc'
  rcases hord with hord | hord | hord | hord
  · have := hi.pc.barrier 2 (.inr ⟨rfl, hord⟩) c' 0 (by omega) t ht
    omega
  · obtain rfl : t = 0 := by omega
    omega
  · obtain rfl : c' = c := by omega
    omega
  · omega

end

/-! ## The gathered values -/

/-- Values of a thread: the accumulator of its gather is a part of the sum, its buffer then holds
finished sums only, and a collapsed row of slot 0 holds the whole sum or will. -/
structure ThreadValue [AddCommMonoid V] (L : Launch V) (slot0 : ℕ → V) (c t : ℕ) (th : Thread V) :
    Prop where
  acc : ∀ r k, th.pc = .gather r k → r ≤ L.rows ∧ k ≤ L.ctas ∧
    th.acc = ∑ i ∈ Finset.range k, L.gemv i (L.row t r)
  buf : 7 ≤ th.pc.stage → ∀ e ∈ th.buf,
    ∃ r < L.collapsed th.pc, r < L.rows ∧ e = ((0, L.row t r), L.total (L.row t r))
  summed : ∀ r, r < L.collapsed th.pc → c < L.ctas → t < L.threads → r < L.rows →
    slot0 (L.row t r) = L.total (L.row t r) ∨
      ((0, L.row t r), L.total (L.row t r)) ∈ th.buf

/-- Values under `Ordered`: those of the threads, and a stored row that is not collapsed still holds
what its CTA stored. -/
structure ValueInv [AddCommMonoid V] (L : Launch V) (s : State V) : Prop where
  thread : ∀ c t, ThreadValue L (s.mem 0) c t (s.thr c t)
  raw : ∀ i t r, i < L.ctas → t < L.threads → r < L.rows → s.stored i (L.row t r) = true →
    (i = 0 → ∀ c < L.ctas, ¬ r < L.collapsed (s.thr c t).pc) →
    s.mem i (L.row t r) = L.gemv i (L.row t r)

/-- Before its flag read a thread has none. -/
theorem ThreadValue.early [AddCommMonoid V] {L : Launch V} {slot0 : ℕ → V} {c t : ℕ} {th : Thread V}
    (h : th.pc.stage < 7) : ThreadValue L slot0 c t th where
  acc := by
    intro r k hpc
    simp [hpc, Pc.stage] at h
  buf := fun h7 => absurd h7 (by omega)
  summed := by
    intro r hr
    have := (L.collapsed_pos hr).1
    omega

section

variable {L : Launch V} {s : State V} {c t : ℕ}

theorem State.load_eq_mem {l : Loc} (h : ∀ e ∈ (s.thr c t).buf, e.1 ≠ l) :
    s.load c t l = s.mem l.1 l.2 := by
  have hnone : (s.thr c t).buf.reverse.find? (fun e => e.1 = l) = none := by
    rw [find?_eq_none]
    intro e he
    simpa using h e (mem_reverse.mp he)
  unfold State.load
  rw [hnone]

/-- A move of the program counter keeps the collapsed rows, and leaves `gather` alone. -/
theorem Moves.collapsed {pc pc' : Pc} (h : Moves L s c t pc pc')
    (hle : ∀ r k, pc = .gather r k → r ≤ L.rows) :
    L.collapsed pc' = L.collapsed pc ∧ ∀ r k, pc' ≠ .gather r k := by
  cases h with
  | gatherDone hr =>
    have := hle _ _ rfl
    simp only [Launch.collapsed]
    exact ⟨by omega, by simp⟩
  | _ => simp [Launch.collapsed]

end

section

variable [AddCommMonoid V] {L : Launch V} {s s' : State V} {c t : ℕ}

/-- The load of the gather finds the sum that the owner of the slot stored. -/
theorem ValueInv.load_eq (hv : ValueInv L s) (hi : BaseInv L s) (hord : L.Ordered) (hc : c < L.ctas)
    (ht : t < L.threads) {r k : ℕ} (hpc : (s.thr c t).pc = .gather r k) (hr : r < L.rows)
    (hk : k < L.ctas) : s.load c t (k, L.row t r) = L.gemv k (L.row t r) := by
  have h7 : 7 ≤ (s.thr c t).pc.stage := by simp [hpc, Pc.stage]
  have hlast : (s.thr c t).pc.isLastCta = true := by simp [hpc, Pc.isLastCta]
  rw [State.load_eq_mem]
  · refine hv.raw k t r hk ht hr ?_ ?_
    · exact hi.store.fenced k t r hr (hi.fence_lt hord hc ht h7 hlast (by omega) hk)
    · -- no other CTA gathers, and this thread has not come to row `r` yet
      rintro - c' hc' hlt
      by_cases hcc : c' = c
      · subst hcc
        simp [hpc, Launch.collapsed] at hlt
      · obtain ⟨h7', hlast'⟩ := L.collapsed_pos hlt
        exact hcc (hi.count.unique hc' hc (hi.won (by omega) h7' hlast')
          (hi.won (by omega) h7 hlast))
  · intro e he heq
    obtain ⟨r', hr', hr'', rfl⟩ := (hv.thread c t).buf h7 e he
    have := (Launch.row_inj hr'' hr (Prod.mk.inj heq).2).2
    simp [hpc, Launch.collapsed] at hr'
    omega

/-- A step that writes no memory keeps the values if the thread has its own afterwards. -/
theorem ValueInv.of_thr (hv : ValueInv L s) (h : StepTo L s c t s')
    (hmem : s'.mem = s.mem) (hstored : s'.stored = s.stored)
    (hth : ThreadValue L (s.mem 0) c t (s'.thr c t))
    (hmono : L.collapsed (s.thr c t).pc ≤ L.collapsed (s'.thr c t).pc) : ValueInv L s' where
  thread := by
    rw [hmem]
    exact h.forall_thr (ThreadValue L (s.mem 0)) hv.thread hth
  raw := by
    intro i t' r hi ht hr hs hnot
    rw [hstored] at hs
    rw [hmem]
    refine hv.raw i t' r hi ht hr hs fun hi0 c' hc' hlt => hnot hi0 c' hc' (hlt.trans_le ?_)
    exact h.forall_thr (fun c t th => L.collapsed (s.thr c t).pc ≤ L.collapsed th.pc)
      (fun _ _ => le_rfl) hmono c' t'

/-- What a buffer can hold: a slot sum of a thread before its fence, or a finished sum of a
gathering thread. -/
theorem ValueInv.pending_cases (hv : ValueInv L s) (hi : BaseInv L s) {l : Loc} {v : V}
    (he : (l, v) ∈ (s.thr c t).buf) : ∃ r < L.rows,
      ((s.thr c t).pc.stage ≤ 1 ∧ l = (c, L.row t r) ∧ v = L.gemv c (L.row t r)) ∨
      (r < L.collapsed (s.thr c t).pc ∧ l = (0, L.row t r) ∧ v = L.total (L.row t r)) := by
  by_cases h1 : (s.thr c t).pc.stage ≤ 1
  · obtain ⟨r, hr, heq⟩ := hi.store.pending c t h1 _ he
    obtain ⟨hl, hv⟩ := Prod.mk.inj heq
    exact ⟨r, hr, .inl ⟨h1, hl, hv⟩⟩
  · by_cases h7 : 7 ≤ (s.thr c t).pc.stage
    · obtain ⟨r, hr, hrows, heq⟩ := (hv.thread c t).buf h7 _ he
      obtain ⟨hl, hv⟩ := Prod.mk.inj heq
      exact ⟨r, hrows, .inr ⟨hr, hl, hv⟩⟩
    · rw [hi.store.drained c t (by omega) (.inl (by omega))] at he
      cases he

theorem ValueInv.flush (hv : ValueInv L s) (hord : L.Ordered) (hc : c < L.ctas)
    (ht : t < L.threads) (hi : BaseInv L s) {l : Loc} {v : V} {buf' : List (Loc × V)}
    (hp : takePending l (s.thr c t).buf = some (v, buf')) :
    ValueInv L ((s.setThr c t { s.thr c t with buf := buf' }).write l v) := by
  obtain ⟨r, hr, hlv⟩ := hv.pending_cases hi (c := c) (t := t) (l := l) (v := v)
    ((takePending_mem hp _).mpr (.inl rfl))
  set s' := (s.setThr c t { s.thr c t with buf := buf' }).write l v with hs'
  have h : StepTo L s c t s' := .flush hp
  have hpc : ∀ c' t', (s'.thr c' t').pc = (s.thr c' t').pc ∧
      (s'.thr c' t').acc = (s.thr c' t').acc :=
    h.forall_thr (fun c t th => th.pc = (s.thr c t).pc ∧ th.acc = (s.thr c t).acc)
      (fun _ _ => ⟨rfl, rfl⟩) (by simp [hs', State.write])
  have hbuf : ∀ c' t' e, e ∈ (s'.thr c' t').buf → e ∈ (s.thr c' t').buf :=
    h.forall_thr (fun c t th => ∀ e, e ∈ th.buf → e ∈ (s.thr c t).buf) (fun _ _ _ => id)
      fun e he => (takePending_mem hp e).mpr (.inr (by simpa [hs', State.write] using he))
  have hbuf' : ∀ c' t' e, e ∈ (s.thr c' t').buf → e = (l, v) ∨ e ∈ (s'.thr c' t').buf :=
    h.forall_thr (fun c t th => ∀ e, e ∈ (s.thr c t).buf → e = (l, v) ∨ e ∈ th.buf)
      (fun _ _ _ => .inr) fun e he => by simpa [hs', State.write] using (takePending_mem hp e).mp he
  have hhit : ∀ i j, (i, j) = l → s'.mem i j = v := by
    rintro i j rfl
    simp [hs', State.write]
  have hmiss : ∀ i j, (i, j) ≠ l → s'.mem i j = s.mem i j ∧ s'.stored i j = s.stored i j := by
    intro i j hne
    have : ¬ (i = l.1 ∧ j = l.2) := fun h => hne (Prod.ext h.1 h.2)
    simp [hs', State.write, this]
  refine ⟨fun c' t' => ⟨?_, ?_, ?_⟩, ?_⟩
  · rw [(hpc c' t').1, (hpc c' t').2]
    exact (hv.thread c' t').acc
  · rw [(hpc c' t').1]
    exact fun h7 e he => (hv.thread c' t').buf h7 e (hbuf c' t' e he)
  · intro r' hr' hc' ht' hrows'
    rw [(hpc c' t').1] at hr'
    by_cases heq : (0, L.row t' r') = l
    · -- the location just written: it held, or was to hold, the sum of this row
      left
      rw [hhit 0 _ heq]
      rcases hlv with ⟨h1, rfl, rfl⟩ | ⟨_, rfl, rfl⟩
      · obtain ⟨rfl, hrow⟩ := Prod.mk.inj heq
        obtain ⟨rfl, rfl⟩ := Launch.row_inj hrows' hr hrow
        obtain ⟨h7, hlast⟩ := L.collapsed_pos hr'
        have := hi.fence_lt hord hc' ht' h7 hlast (by omega) hc
        omega
      · rw [(Prod.mk.inj heq).2]
    · rw [(hmiss _ _ heq).1]
      rcases (hv.thread c' t').summed r' hr' hc' ht' hrows' with hs | hs
      · exact .inl hs
      · rcases hbuf' c' t' _ hs with hs | hs
        · exact absurd (Prod.mk.inj hs).1 heq
        · exact .inr hs
  · intro i t' r' hi' ht' hr' hs hnot
    by_cases heq : (i, L.row t' r') = l
    · rw [hhit _ _ heq]
      rcases hlv with ⟨_, rfl, rfl⟩ | ⟨hlt, rfl, rfl⟩
      · obtain ⟨rfl, hrow⟩ := Prod.mk.inj heq
        rw [hrow]
      · obtain ⟨rfl, hrow⟩ := Prod.mk.inj heq
        obtain ⟨rfl, rfl⟩ := Launch.row_inj hr' hr hrow
        exact absurd ((hpc c t').1 ▸ hlt) (hnot rfl c hc)
    · rw [(hmiss _ _ heq).2] at hs
      rw [(hmiss _ _ heq).1]
      refine hv.raw i t' r' hi' ht' hr' hs fun h0 c' hc' hlt => hnot h0 c' hc' ?_
      rwa [(hpc c' t').1]

theorem StepTo.valueInv (h : StepTo L s c t s') (hord : L.Ordered) (hc : c < L.ctas)
    (ht : t < L.threads) (hi : BaseInv L s) (hv : ValueInv L s) : ValueInv L s' := by
  have h' := h
  have hth := hv.thread c t
  cases h with
  | move hm =>
    obtain ⟨hcol, hng⟩ := hm.collapsed fun r k hpc => (hth.acc r k hpc).1
    refine hv.of_thr h' rfl rfl ?_ ?_ <;> rw [State.setThr_self]
    · refine ⟨fun r k hpc => absurd hpc (hng r k), fun h7 e he => ?_, fun r hr => ?_⟩
      · rw [hcol]
        rcases hm.isLastCta h7 with ⟨h7', _⟩ | ⟨hpc, _⟩
        · exact hth.buf h7' e he
        · rw [hi.store.drained c t (by simp [hpc, Pc.stage]) (by simp [hpc, Pc.stage])] at he
          cases he
      · exact hth.summed r (hcol ▸ hr)
    · exact hcol.ge
  | store hpc | arrive hpc | publish hpc =>
    refine hv.of_thr h' rfl rfl (.early ?_) ?_
    · simp [State.setThr, Pc.stage]
    · simp [hpc, Launch.collapsed]
  | last hpc hflag =>
    refine hv.of_thr h' rfl rfl ?_ ?_
    · rw [State.setThr_self]
      refine ⟨fun r k hg => ?_, fun _ e he => ?_, fun r hr => ?_⟩
      · cases hg
        simp
      · rw [hi.store.drained c t (by simp [hpc, Pc.stage]) (by simp [hpc, Pc.stage])] at he
        cases he
      · cases hr
    · simp [Launch.collapsed, hpc]
  | load hpc hr hk =>
    rename_i r k
    obtain ⟨hle, _, hacc⟩ := hth.acc _ _ hpc
    have hsame : L.collapsed (.gather r (k + 1)) = L.collapsed (s.thr c t).pc := by
      rw [hpc]
      rfl
    refine hv.of_thr h' rfl rfl ?_ ?_ <;> rw [State.setThr_self]
    · refine ⟨fun r k hg => ?_, fun _ e he => ?_, fun r hr => ?_⟩
      · cases hg
        refine ⟨hle, hk, ?_⟩
        rw [Finset.sum_range_succ, ← hacc, hv.load_eq hi hord hc ht hpc hr hk]
      · rw [hsame]
        exact hth.buf (by simp [hpc, Pc.stage]) e he
      · exact hth.summed r (hsame ▸ hr)
    · exact hsame.ge
  | collapse hpc hr hk =>
    rename_i r k
    obtain ⟨_, hle, hacc⟩ := hth.acc _ _ hpc
    have htotal : (s.thr c t).acc = L.total (L.row t r) := by
      rw [hacc, Launch.total]
      congr 2
      omega
    refine hv.of_thr h' rfl rfl ?_ (by simp [hpc, Launch.collapsed])
    rw [State.setThr_self]
    refine ⟨fun r' k' hg => ?_, fun _ e he => ?_, fun r' hr' hc' ht' hrows => ?_⟩
    · cases hg
      exact ⟨by omega, by omega, by simp⟩
    · simp only [Launch.collapsed]
      rcases mem_append.mp he with he | he
      · obtain ⟨r', hr', hrows, he⟩ := hth.buf (by simp [hpc, Pc.stage]) e he
        simp only [hpc, Launch.collapsed] at hr'
        exact ⟨r', by omega, hrows, he⟩
      · exact ⟨r, by omega, hr, by rw [mem_singleton.mp he, htotal]⟩
    · simp only [Launch.collapsed] at hr'
      by_cases hrr : r' = r
      · subst hrr
        exact .inr (by simp [htotal])
      · have hlt : r' < L.collapsed (s.thr c t).pc := by
          simp only [hpc, Launch.collapsed]
          omega
        exact (hth.summed r' hlt hc' ht' hrows).imp_right (mem_append_left _)
  | flush hp => exact hv.flush hord hc ht hi hp

end

/-! ## Every run ends

A rank that every step lowers bounds the length of runs; a state in which some thread is not done
always has a step, so a maximal run ends with all threads done. -/

/-- Steps a program counter is away from the end, stores it still has to make counted twice. -/
def Launch.pcRank (L : Launch V) : Pc → ℕ
  | .store r => L.rows * (L.ctas + 3) + 10 + (L.rows - r) * 2
  | .fence => L.rows * (L.ctas + 3) + 9
  | .preSync => L.rows * (L.ctas + 3) + 8
  | .arrive => L.rows * (L.ctas + 3) + 7
  | .publish _ => L.rows * (L.ctas + 3) + 6
  | .sync => L.rows * (L.ctas + 3) + 5
  | .readFlag => L.rows * (L.ctas + 3) + 4
  | .gather r k =>
    if r < L.rows then (L.rows - r - 1) * (L.ctas + 3) + (L.ctas - k) + 6 else 3
  | .gatherFence => 2
  | .gatherSync => 1
  | .done _ => 0

def Launch.threadRank (L : Launch V) (th : Thread V) : ℕ := L.pcRank th.pc + th.buf.length

def Launch.rank (L : Launch V) (s : State V) : ℕ :=
  ∑ c ∈ Finset.range L.ctas, ∑ t ∈ Finset.range L.threads, L.threadRank (s.thr c t)

theorem Moves.pcRank_lt {L : Launch V} {s : State V} {c t : ℕ} {pc pc' : Pc}
    (h : Moves L s c t pc pc') : L.pcRank pc' < L.pcRank pc := by
  cases h with
  | gatherDone hr => simp [Launch.pcRank, hr]
  | storesDone =>
    simp only [Launch.pcRank]
    omega
  | _ => simp [Launch.pcRank]

theorem Launch.pcRank_gather_zero (L : Launch V) :
    L.pcRank (.gather 0 0) = L.rows * (L.ctas + 3) + 3 := by
  simp only [Launch.pcRank]
  split
  · obtain ⟨n, hn⟩ : ∃ n, L.rows = n + 1 := ⟨L.rows - 1, by omega⟩
    rw [hn, Nat.add_mul]
    simp only [Nat.sub_zero, Nat.add_sub_cancel]
    omega
  · obtain h0 : L.rows = 0 := by omega
    simp [h0]

theorem Launch.pcRank_gather_next (L : Launch V) {r k : ℕ} (hr : r < L.rows) :
    L.pcRank (.gather (r + 1) 0) + 1 < L.pcRank (.gather r k) := by
  simp only [Launch.pcRank, if_pos hr]
  split
  · obtain ⟨n, hn⟩ : ∃ n, L.rows - r - 1 = n + 1 := ⟨L.rows - r - 2, by omega⟩
    have hn' : L.rows - (r + 1) - 1 = n := by omega
    rw [hn, hn', Nat.add_mul]
    omega
  · omega

section

variable [Add V] [Zero V] {L : Launch V} {s s' : State V} {c t : ℕ}

theorem StepTo.threadRank_lt (h : StepTo L s c t s') :
    L.threadRank (s'.thr c t) < L.threadRank (s.thr c t) := by
  unfold Launch.threadRank
  cases h with
  | move hm =>
    rw [State.setThr_self]
    exact Nat.add_lt_add_right hm.pcRank_lt _
  | store hpc hr =>
    simp only [State.setThr_self, hpc, Launch.pcRank, length_append, length_singleton]
    omega
  | arrive hpc | publish hpc => simp [State.setThr, hpc, Launch.pcRank]
  | last hpc =>
    simp only [State.setThr_self, hpc, L.pcRank_gather_zero]
    simp only [Launch.pcRank]
    omega
  | load hpc hr hk =>
    simp only [State.setThr_self, hpc, Launch.pcRank, if_pos hr]
    omega
  | collapse hpc hr hk =>
    rename_i r k
    have := L.pcRank_gather_next (k := k) hr
    simp only [State.setThr_self, hpc, length_append, length_singleton]
    omega
  | flush hp =>
    simp [State.write, State.setThr, (takePending_perm hp).length_eq]

theorem StepTo.rank_lt (h : StepTo L s c t s') (hc : c < L.ctas) (ht : t < L.threads) :
    L.rank s' < L.rank s := by
  have hle : ∀ c' t', L.threadRank (s'.thr c' t') ≤ L.threadRank (s.thr c' t') :=
    h.forall_thr (fun c t th => L.threadRank th ≤ L.threadRank (s.thr c t)) (fun _ _ => le_rfl)
      h.threadRank_lt.le
  refine Finset.sum_lt_sum (fun c' _ => Finset.sum_le_sum fun t' _ => hle c' t') ?_
  refine ⟨c, Finset.mem_range.mpr hc, ?_⟩
  exact Finset.sum_lt_sum (fun t' _ => hle c t') ⟨t, Finset.mem_range.mpr ht, h.threadRank_lt⟩

end

/-- All threads of the launch are done. -/
def Launch.Complete (L : Launch V) (s : State V) : Prop :=
  ∀ c < L.ctas, ∀ t < L.threads, (s.thr c t).pc.stage = 10

/-- A thread that is not at a fence or a barrier can always take its next step. -/
theorem Launch.exec_isSome [Add V] [Zero V] (L : Launch V) (s : State V) (c t : ℕ)
    (hdone : (s.thr c t).pc.stage ≠ 10) (hbuf : (s.thr c t).buf = [])
    (hbar : ∀ u < L.threads, (s.thr c t).pc.stage ≤ (s.thr c u).pc.stage) :
    (L.exec s c t).isSome := by
  have hat : ∀ n, n ≤ (s.thr c t).pc.stage → L.atBarrier s c n = true := by
    intro n hn
    rw [Launch.atBarrier_iff]
    exact fun u hu => hn.trans (hbar u hu)
  cases hpc : (s.thr c t).pc with
  | store r | readFlag =>
    simp only [Launch.exec, hpc]
    split <;> rfl
  | fence | gatherFence => simp [Launch.exec, hpc, hbuf]
  | preSync => simp [Launch.exec, hpc, hat 2 (by simp [hpc, Pc.stage])]
  | arrive => simp [Launch.exec, hpc]
  | publish old => simp [Launch.exec, hpc]
  | sync => simp [Launch.exec, hpc, hat 5 (by simp [hpc, Pc.stage])]
  | gather r k =>
    simp only [Launch.exec, hpc]
    split
    · split <;> rfl
    · rfl
  | gatherSync => simp [Launch.exec, hpc, hat 9 (by simp [hpc, Pc.stage])]
  | done b => simp [hpc, Pc.stage] at hdone

/-- **No deadlock.** Some store can become visible, or the thread that is furthest behind in its
CTA can step. -/
theorem Launch.exists_step [Add V] [Zero V] (L : Launch V) (s : State V) (h : ¬ L.Complete s) :
    ∃ a, (L.step s a).isSome := by
  by_cases hbuf : ∀ c < L.ctas, ∀ t < L.threads, (s.thr c t).buf = []
  · simp only [Launch.Complete, not_forall] at h
    obtain ⟨c, hc, t0, ht0, hdone⟩ := h
    obtain ⟨t, ht, hmin⟩ := Finset.exists_min_image (Finset.range L.threads)
      (fun t => (s.thr c t).pc.stage) ⟨t0, Finset.mem_range.mpr ht0⟩
    have ht' := Finset.mem_range.mp ht
    refine ⟨.exec c t, ?_⟩
    rw [Launch.step, if_pos ⟨hc, ht'⟩]
    refine L.exec_isSome s c t ?_ (hbuf c hc t ht') fun u hu => hmin u (Finset.mem_range.mpr hu)
    have hle := hmin t0 (Finset.mem_range.mpr ht0)
    have hub : (s.thr c t0).pc.stage ≤ 10 := by
      cases (s.thr c t0).pc <;> simp [Pc.stage]
    omega
  · simp only [not_forall] at hbuf
    obtain ⟨c, hc, t, ht, hne⟩ := hbuf
    obtain ⟨e, he⟩ := exists_mem_of_ne_nil _ hne
    refine ⟨.flush c t e.1, ?_⟩
    rw [Launch.step, if_pos ⟨hc, ht⟩, Option.isSome_map]
    exact takePending_isSome he

/-! ## The property and when it holds -/

/-- A state of some interleaving of the launch. -/
def Launch.Reached [Add V] [Zero V] (L : Launch V) (s : State V) : Prop :=
  Reach L.step always L.init s

/-- CTA `c` as a whole took the branch of the last CTA. -/
def Launch.Elected (L : Launch V) (s : State V) (c : ℕ) : Prop :=
  c < L.ctas ∧ 0 < L.threads ∧ ∀ t < L.threads, (s.thr c t).pc.isLastCta = true

/-- **The election sees every partial sum.** In every interleaving: the launch ends, with exactly
one elected CTA; a thread about to load slot `k` of a row in the gather finds that slot stored by
this launch; and slot 0 ends up with the sum over all slots. -/
structure Launch.SeesEverySlot [AddCommMonoid V] (L : Launch V) : Prop where
  bounded : ∃ n, ∀ as s, run L.step L.init as = some s → as.length ≤ n
  progress : ∀ s, L.Reached s → ¬ L.Complete s → ∃ a, (L.step s a).isSome
  elects : ∀ s, L.Reached s → L.Complete s → ∃ c, L.Elected s c ∧
    ∀ c' < L.ctas, ∀ t < L.threads, (s.thr c' t).pc.isLastCta = true → c' = c
  stored : ∀ s, L.Reached s → ∀ c < L.ctas, ∀ t < L.threads, ∀ r k,
    (s.thr c t).pc = .gather r k → r < L.rows → k < L.ctas → s.stored k (L.row t r) = true
  sum : ∀ s, L.Reached s → L.Complete s → ∀ j < L.threads * L.rows,
    s.mem 0 j = ∑ c ∈ Finset.range L.ctas, L.gemv c j

section

variable [AddCommMonoid V] {L : Launch V} {s : State V}

theorem Launch.Reached.baseInv (h : L.Reached s) : BaseInv L s :=
  h.invariant (BaseInv L) L.baseInv_init fun _ _ _ hi _ hs => L.baseInv_step hi hs

theorem Launch.valueInv_init (L : Launch V) : ValueInv L L.init where
  thread := fun c t => .early (by simp [Launch.init, Pc.stage])
  raw := by
    intro i t r _ _ _ h
    simp [Launch.init] at h

theorem Launch.Reached.valueInv (hord : L.Ordered) (h : L.Reached s) : ValueInv L s := by
  refine (h.invariant (fun s => BaseInv L s ∧ ValueInv L s) ⟨L.baseInv_init, L.valueInv_init⟩
    fun s a s' hi _ hs => ?_).2
  obtain ⟨c, t, hc, ht, h⟩ := L.step_stepTo hs
  exact ⟨L.baseInv_step hi.1 hs, h.valueInv hord hc ht hi.1 hi.2⟩

/-- Once all threads are done, the CTA that drew the last number is the elected one. -/
theorem Launch.Reached.exists_elected (h : L.Reached s) (hctas : 0 < L.ctas)
    (hthreads : 0 < L.threads) (hdone : L.Complete s) : ∃ c, L.Elected s c ∧
      ∀ c' < L.ctas, ∀ t < L.threads, (s.thr c' t).pc.isLastCta = true → c' = c := by
  have hi := h.baseInv
  have h7 : ∀ c < L.ctas, ∀ t < L.threads, 7 ≤ (s.thr c t).pc.stage := by
    intro c hc t ht
    have := hdone c hc t ht
    omega
  have hcount : s.count = L.ctas := by
    have harr : s.arrived L = Finset.range L.ctas := by
      refine Finset.filter_true_of_mem fun c hc => ?_
      have := h7 c (Finset.mem_range.mp hc) 0 hthreads
      omega
    rw [hi.count.count, harr, Finset.card_range]
  obtain ⟨c, hlt, hwon⟩ := hi.count.winner
  have hc := hlt hctas
  have hw := (hwon c hc).mpr ⟨rfl, hcount⟩
  have hflag : s.flag c = true := by
    rcases hw with hw | ⟨_, hw⟩
    · have := hdone c hc 0 hthreads
      simp [hw, Pc.stage] at this
    · exact hw
  refine ⟨c, ⟨hc, hthreads, fun t ht => ?_⟩, fun c' hc' t ht hlast => ?_⟩
  · rw [hi.count.flag c t (h7 c hc t ht), hflag]
  · exact hi.count.unique hc' hc (hi.won hthreads (h7 c' hc' t ht) hlast) hw

/-- **Sufficiency.** An arrival that stands for the stores of its whole CTA makes the election
sound in every interleaving. -/
theorem Launch.Ordered.seesEverySlot (hord : L.Ordered) (hctas : 0 < L.ctas)
    (hthreads : 0 < L.threads) : L.SeesEverySlot where
  bounded := by
    refine ⟨L.rank L.init, fun as s hr => ?_⟩
    refine run_length_le L.rank (fun _ => True) (fun _ _ _ _ _ => trivial) ?_ trivial hr
    intro s a s' _ hs
    obtain ⟨c, t, hc, ht, h⟩ := L.step_stepTo hs
    exact h.rank_lt hc ht
  progress := fun s _ h => L.exists_step s h
  elects := fun s h hdone => h.exists_elected hctas hthreads hdone
  stored := by
    intro s h c hc t ht r k hpc hr hk
    refine h.baseInv.store.fenced k t r hr (h.baseInv.fence_lt hord hc ht ?_ ?_ (by omega) hk)
    · simp [hpc, Pc.stage]
    · simp [hpc, Pc.isLastCta]
  sum := by
    intro s h hdone j hj
    obtain ⟨c, ⟨hc, _, hall⟩, _⟩ := h.exists_elected hctas hthreads hdone
    obtain ⟨t, ht, r, hr, rfl⟩ := exists_mul_add_lt.mpr hj
    have h10 := hdone c hc t ht
    have hcol : r < L.collapsed (s.thr c t).pc := by
      have hlast := hall t ht
      cases hpc : (s.thr c t).pc with
      | done b =>
        simp only [hpc, Pc.isLastCta] at hlast
        simpa [hlast, Launch.collapsed] using hr
      | _ => simp [hpc, Pc.stage] at h10
    have hnil : (s.thr c t).buf = [] :=
      h.baseInv.store.drained c t (by omega) (by omega)
    rcases ((h.valueInv hord).thread c t).summed r hcol hc ht hr with hs | hs
    · exact hs
    · rw [hnil] at hs
      cases hs

end

end Nvllm.Kernel.LastCta
