import Mathlib.Algebra.Ring.Int.Defs
import Nvllm.Kernel.LastCtaElection

/-! # The race of the fused W_O kernels

Without a barrier between the fence and the arrival, thread 0 of a CTA can announce the CTA while
another thread of it has stored nothing. The interleaving built here does that with every CTA but
the last: their thread 0 runs up to the barrier and no other thread of them moves. The last CTA
runs normally, is elected, and its thread 1 is about to load a row of slot 0 that nobody stored.
-/

namespace Nvllm.Kernel.LastCta

open Nvllm.Run

variable {V : Type*}

section

variable [Add V] [Zero V] {L : Launch V} {s : State V} {c t : ℕ}

/-- `s'` is `s` after steps of thread `t` of CTA `c` alone, before its arrival: the other threads,
the counter and the flags are untouched and only rows of the thread became visible. -/
structure Alone (L : Launch V) (s s' : State V) (c t : ℕ) : Prop where
  thr : ∀ c' t', ¬ (c' = c ∧ t' = t) → s'.thr c' t' = s.thr c' t'
  count : s'.count = s.count
  flag : s'.flag = s.flag
  stored : ∀ i j, s'.stored i j = true →
    s.stored i j = true ∨ (i = c ∧ ∃ r < L.rows, j = L.row t r)

omit [Add V] [Zero V] in
theorem Alone.refl (L : Launch V) (s : State V) (c t : ℕ) : Alone L s s c t where
  thr := fun _ _ _ => rfl
  count := rfl
  flag := rfl
  stored := fun _ _ h => .inl h

/-- A thread can store its first `k` rows with each store visible at once. -/
theorem Launch.reach_store (hc : c < L.ctas) (ht : t < L.threads)
    (hpc : (s.thr c t).pc = .store 0) (hbuf : (s.thr c t).buf = []) (k : ℕ) (hk : k ≤ L.rows) :
    ∃ s', Reach L.step always s s' ∧ (s'.thr c t).pc = .store k ∧ (s'.thr c t).buf = [] ∧
      Alone L s s' c t := by
  induction k with
  | zero => exact ⟨s, .init, hpc, hbuf, .refl L s c t⟩
  | succ k ih =>
    obtain ⟨m, hm, hmpc, hmbuf, ha⟩ := ih (by omega)
    set e : Loc × V := ((c, L.row t k), L.gemv c (L.row t k)) with he
    set m1 := m.setThr c t { m.thr c t with pc := .store (k + 1), buf := [e] } with hm1
    set m2 := (m1.setThr c t { m1.thr c t with buf := [] }).write e.1 e.2 with hm2
    have h1 : L.step m (.exec c t) = some m1 := by
      simp only [Launch.step, hc, ht, and_self, if_true, Launch.exec, hmpc]
      rw [if_pos (by omega), hmbuf]
      rfl
    have h2 : L.step m1 (.flush c t e.1) = some m2 := by
      simp [Launch.step, hc, ht, hm1, hm2, takePending]
    refine ⟨m2, (hm.next trivial h1).next trivial h2, ?_, ?_, ?_⟩
    · simp [hm2, hm1, State.write, State.setThr]
    · simp [hm2, hm1, State.write, State.setThr]
    · refine ⟨fun c' t' hne => ?_, ha.count, ha.flag, fun i j hs => ?_⟩
      · rw [← ha.thr c' t' hne]
        simp [hm2, hm1, State.write, State.setThr, hne]
      · by_cases hij : i = c ∧ j = L.row t k
        · exact .inr ⟨hij.1, k, by omega, hij.2⟩
        · refine ha.stored i j ?_
          simpa [hm2, hm1, State.write, State.setThr, he, hij] using hs

/-- ... and come past its fence. -/
theorem Launch.reach_fence (hc : c < L.ctas) (ht : t < L.threads)
    (hpc : (s.thr c t).pc = .store 0) (hbuf : (s.thr c t).buf = []) :
    ∃ s', Reach L.step always s s' ∧ (s'.thr c t).pc = L.afterFence t ∧ Alone L s s' c t := by
  obtain ⟨m, hm, hmpc, hmbuf, ha⟩ := L.reach_store hc ht hpc hbuf L.rows le_rfl
  set m1 := m.setThr c t { m.thr c t with pc := .fence } with hm1
  set m2 := m1.setThr c t { m1.thr c t with pc := L.afterFence t } with hm2
  have h1 : L.step m (.exec c t) = some m1 := by
    simp [Launch.step, hc, ht, Launch.exec, hmpc, hm1]
  have h2 : L.step m1 (.exec c t) = some m2 := by
    simp [Launch.step, hc, ht, Launch.exec, hm1, hm2, hmbuf]
  refine ⟨m2, (hm.next trivial h1).next trivial h2, by simp [hm2], ?_⟩
  refine ⟨fun c' t' hne => ?_, ha.count, ha.flag, ha.stored⟩
  rw [← ha.thr c' t' hne]
  simp [hm2, hm1, State.setThr, hne]

/-- Thread 0 announces its CTA and publishes the number it drew. -/
theorem Launch.reach_publish (hc : c < L.ctas) (ht : 0 < L.threads)
    (hpc : (s.thr c 0).pc = .arrive) :
    ∃ s', Reach L.step always s s' ∧ (s'.thr c 0).pc = .sync ∧ s'.count = s.count + 1 ∧
      s'.flag c = decide (s.count = L.ctas - 1) ∧ s'.stored = s.stored ∧
      ∀ c' t', ¬ (c' = c ∧ t' = 0) → s'.thr c' t' = s.thr c' t' := by
  set m1 : State V := { s.setThr c 0 { s.thr c 0 with pc := .publish s.count } with
    count := s.count + 1 } with hm1
  set m2 : State V := { m1.setThr c 0 { m1.thr c 0 with pc := .sync } with
    flag := fun c' => if c' = c then decide (s.count = L.ctas - 1) else m1.flag c' } with hm2
  have h1 : L.step s (.exec c 0) = some m1 := by
    simp [Launch.step, hc, ht, Launch.exec, hpc, hm1]
  have hpc1 : (m1.thr c 0).pc = .publish s.count := by simp [hm1, State.setThr]
  have h2 : L.step m1 (.exec c 0) = some m2 := by
    simp only [Launch.step, hc, ht, and_self, if_true, Launch.exec, hpc1]
    rfl
  refine ⟨m2, (Reach.init.next trivial h1).next trivial h2, ?_, rfl, by simp [hm2], rfl, ?_⟩
  · simp [hm2, State.setThr]
  · intro c' t' hne
    simp [hm2, hm1, State.setThr, hne]

/-- The first `n` CTAs can be announced while only their thread 0 has moved. -/
theorem Launch.reach_announced (hord : L.order = .fenceArrive) (ht : 0 < L.threads) (n : ℕ)
    (hn : n ≤ L.ctas) :
    ∃ s, L.Reached s ∧ s.count = n ∧
      (∀ c t, n ≤ c → s.thr c t = L.init.thr c t) ∧
      ∀ i j, s.stored i j = true → i < n ∧ ∃ r < L.rows, j = L.row 0 r := by
  induction n with
  | zero => exact ⟨L.init, .init, rfl, fun _ _ _ => rfl, fun i j h => by simp [Launch.init] at h⟩
  | succ n ih =>
    obtain ⟨s, hs, hcount, hthr, hstored⟩ := ih (by omega)
    have hc : n < L.ctas := by omega
    obtain ⟨m, hm, hmpc, ha⟩ := L.reach_fence (s := s) hc ht (by rw [hthr n 0 le_rfl]; rfl)
      (by rw [hthr n 0 le_rfl]; rfl)
    obtain ⟨m', hm', _, hcount', _, hst', hthr'⟩ := L.reach_publish (s := m) hc ht (by
      rw [hmpc, Launch.afterFence, hord]
      rfl)
    refine ⟨m', (Reach.trans hs hm).trans hm', by rw [hcount', ha.count, hcount], ?_, ?_⟩
    · intro c t hle
      have hne : ¬ (c = n ∧ t = 0) := by omega
      rw [hthr' c t hne, ha.thr c t hne, hthr c t (by omega)]
    · intro i j hij
      rw [hst'] at hij
      rcases ha.stored i j hij with h | ⟨rfl, h⟩
      · obtain ⟨hi, hr⟩ := hstored i j h
        exact ⟨by omega, hr⟩
      · exact ⟨by omega, h⟩

/-- The first `n` threads of CTA `c` can come past their fence. -/
theorem Launch.reach_fenced (hc : c < L.ctas) (n : ℕ) (hn : n ≤ L.threads)
    (hthr : ∀ t, s.thr c t = L.init.thr c t) :
    ∃ s', Reach L.step always s s' ∧ s'.count = s.count ∧
      (∀ t < n, (s'.thr c t).pc = L.afterFence t) ∧
      (∀ t, n ≤ t → s'.thr c t = L.init.thr c t) ∧
      ∀ i j, s'.stored i j = true → s.stored i j = true ∨ i = c := by
  induction n with
  | zero => exact ⟨s, .init, rfl, by simp, fun t _ => hthr t, fun _ _ h => .inl h⟩
  | succ n ih =>
    obtain ⟨m, hm, hcount, hfenced, hrest, hstored⟩ := ih (by omega)
    obtain ⟨m', hm', hpc', ha⟩ := L.reach_fence (s := m) (t := n) hc (by omega)
      (by rw [hrest n le_rfl]; rfl) (by rw [hrest n le_rfl]; rfl)
    refine ⟨m', hm.trans hm', by rw [ha.count, hcount], ?_, ?_, ?_⟩
    · intro t ht
      by_cases htn : t = n
      · rw [htn, hpc']
      · rw [ha.thr c t (by omega)]
        exact hfenced t (by omega)
    · intro t ht
      rw [ha.thr c t (by omega)]
      exact hrest t (by omega)
    · intro i j hij
      rcases ha.stored i j hij with h | ⟨h, _⟩
      · exact hstored i j h
      · exact .inr h

/-- **The race.** With two CTAs and two threads or more, and at least one row to store, thread 1
of the elected CTA can be about to load row `rows` of slot 0, which nobody has stored. -/
theorem Launch.exists_early_load (hord : L.order = .fenceArrive) (hctas : 1 < L.ctas)
    (hthreads : 1 < L.threads) (hrows : 0 < L.rows) :
    ∃ s, L.Reached s ∧ (s.thr (L.ctas - 1) 1).pc = .gather 0 0 ∧
      s.stored 0 (L.row 1 0) = false := by
  obtain ⟨s1, hr1, hcount1, hthr1, hst1⟩ :=
    L.reach_announced hord (by omega) (L.ctas - 1) (by omega)
  set c := L.ctas - 1 with hcdef
  have hc : c < L.ctas := by omega
  obtain ⟨s2, hr2, hcount2, hpc2, -, hst2⟩ :=
    L.reach_fenced (s := s1) hc L.threads le_rfl fun t => hthr1 c t le_rfl
  obtain ⟨s3, hr3, hpc3, hcount3, hflag3, hst3, hthr3⟩ :=
    L.reach_publish (s := s2) hc (by omega) (by
      rw [hpc2 0 (by omega), Launch.afterFence, hord]
      rfl)
  -- every thread of the last CTA stands at the barrier before the flag read
  have hbar : ∀ t < L.threads, (s3.thr c t).pc = .sync := by
    intro t ht
    by_cases h0 : t = 0
    · rw [h0, hpc3]
    · rw [hthr3 c t (by tauto), hpc2 t ht, Launch.afterFence, hord]
      simp [arrivePc, h0]
  have hflag : s3.flag c = true := by
    rw [hflag3, hcount2, hcount1]
    simp [hcdef]
  set s4 := s3.setThr c 1 { s3.thr c 1 with pc := .readFlag } with hs4
  set s5 := s4.setThr c 1 { s4.thr c 1 with pc := .gather 0 0, acc := 0 } with hs5
  have h4 : L.step s3 (.exec c 1) = some s4 := by
    have hat : L.atBarrier s3 c 5 = true := by
      rw [Launch.atBarrier_iff]
      intro t ht
      simp [hbar t ht, Pc.stage]
    simp [Launch.step, hc, hthreads, Launch.exec, hbar 1 hthreads, hat, hs4]
  have h5 : L.step s4 (.exec c 1) = some s5 := by
    simp [Launch.step, hc, hthreads, Launch.exec, hs4, hs5, hflag]
  refine ⟨s5, ((((Reach.trans hr1 hr2).trans hr3).next trivial h4).next trivial h5), ?_, ?_⟩
  · simp [hs5]
  · by_contra hne
    have hst : s2.stored 0 (L.row 1 0) = true := by
      rw [← hst3]
      simpa [hs5, hs4] using hne
    rcases hst2 _ _ hst with h | h
    · obtain ⟨_, r, hr, heq⟩ := hst1 _ _ h
      exact absurd (Launch.row_inj hrows hr heq).1 (by omega)
    · omega

end

/-! ## Exactly when the election is sound -/

/-- The empty launch elects nobody. -/
theorem Launch.SeesEverySlot.pos [AddCommMonoid V] {L : Launch V} (h : L.SeesEverySlot) :
    0 < L.ctas ∧ 0 < L.threads := by
  by_contra hpos
  have hdone : L.Complete L.init := by
    intro c hc t ht
    omega
  obtain ⟨c, ⟨hc, ht, _⟩, _⟩ := h.elects L.init .init hdone
  omega

theorem Launch.seesEverySlot_iff [AddCommMonoid V] (L : Launch V) :
    L.SeesEverySlot ↔ 0 < L.ctas ∧ 0 < L.threads ∧ L.Ordered := by
  constructor
  · intro h
    refine ⟨h.pos.1, h.pos.2, ?_⟩
    by_contra hord
    simp only [Launch.Ordered, not_or] at hord
    obtain ⟨hbar, ht, hc, hrows⟩ := hord
    have hfence : L.order = .fenceArrive := by
      cases ho : L.order with
      | fenceArrive => rfl
      | fenceBarrierArrive => exact absurd ho hbar
    have hpos := h.pos
    obtain ⟨s, hs, hpc, hst⟩ := L.exists_early_load hfence (by omega) (by omega) (by omega)
    have := h.stored s hs (L.ctas - 1) (by omega) 1 (by omega) 0 0 hpc (by omega) (by omega)
    rw [hst] at this
    cases this
  · rintro ⟨hc, ht, hord⟩
    exact hord.seesEverySlot hc ht

/-! ## The kernels -/

/-- Phase B and B.5 of the fused W_O kernels: the paged decode kernel with
`ctas = num_q_tiles * num_kv_heads`, Phase 1 of the phase-E kernels with
`ctas = num_kv_heads * wo_split`. All of them go from the fence to the arrival. -/
def woLaunch (ctas threads rows : ℕ) (gemv woOutput : ℕ → ℕ → V) (syncMd : ℕ → Bool) :
    Launch V where
  order := .fenceArrive
  ctas := ctas
  threads := threads
  rows := rows
  gemv := gemv
  woOutput := woOutput
  syncMd := syncMd

/-- **When the fused W_O kernels see every partial sum.** Exactly for launches with a single
thread, a single CTA for the sequence, or no row at all. -/
theorem woLaunch_seesEverySlot_iff [AddCommMonoid V] (ctas threads rows : ℕ)
    (gemv woOutput : ℕ → ℕ → V) (syncMd : ℕ → Bool) :
    (woLaunch ctas threads rows gemv woOutput syncMd).SeesEverySlot ↔
      0 < ctas ∧ 0 < threads ∧ (threads = 1 ∨ ctas = 1 ∨ rows = 0) := by
  rw [Launch.seesEverySlot_iff]
  simp [Launch.Ordered, woLaunch]

/-- The launch of one sequence of a model with four KV heads, 128 threads and hidden size 5120:
thread 1 of the elected CTA is about to load row 40 of slot 0, which CTA 0 has not stored. -/
theorem woLaunch_loads_unstored_row :
    (∃ s, (woLaunch (V := ℤ) 4 128 40 (fun _ _ => 1) (fun _ _ => 0) fun _ => false).Reached s ∧
      (s.thr 3 1).pc = .gather 0 0 ∧ s.stored 0 40 = false) ∧
    ¬ (woLaunch (V := ℤ) 4 128 40 (fun _ _ => 1) (fun _ _ => 0) fun _ => false).SeesEverySlot := by
  have hload := Launch.exists_early_load
    (L := woLaunch (V := ℤ) 4 128 40 (fun _ _ => 1) (fun _ _ => 0) fun _ => false)
    rfl (by decide) (by decide) (by decide)
  refine ⟨hload, fun h => ?_⟩
  obtain ⟨s, hs, hpc, hst⟩ := hload
  have := h.stored s hs 3 (by decide) 1 (by decide) 0 0 hpc (by decide) (by decide)
  rw [hst] at this
  cases this

/-- The order of Phase 4 of the MLP kernel, with a barrier before the arrival, is sound for every
launch. -/
theorem fenceBarrierArrive_seesEverySlot [AddCommMonoid V] (L : Launch V)
    (hord : L.order = .fenceBarrierArrive) (hctas : 0 < L.ctas) (hthreads : 0 < L.threads) :
    L.SeesEverySlot :=
  Launch.Ordered.seesEverySlot (.inl hord) hctas hthreads

end Nvllm.Kernel.LastCta
