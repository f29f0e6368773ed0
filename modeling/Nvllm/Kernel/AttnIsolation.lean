import Nvllm.Kernel.AttnFootprint

/-! # When the sequences of a cooperative launch do not interfere

`Geometry.Safe` is the condition on the dimensions. It is enough, because then every access of
sequence `i` is in its own band of `hidden_size` elements and the counters order the accesses
inside a band; and it is necessary, because each of its parts, when it fails, gives a pair of
accesses or an interleaving that breaks isolation.
-/

namespace Nvllm.Kernel.AttnOutput

open Nvllm.Run Nvllm.Coop Nvllm.Index List

namespace Geometry

variable (G : Geometry)

/-- The attention phase stores what W_O loads: every KV head of the grid has a producer, the
group fits the 16 rows of the q tile, the head the 16-column steps. The two row strides agree
well enough: one sequence, or attention rows no shorter than the hidden rows, with the last
attention row inside the buffer. And where W_O CTAs wait for the attention CTAs, they wait for
all of them. -/
structure Fits : Prop where
  hidden_pos : 0 < G.hiddenSize
  covered : G.consumers ≤ G.producers
  group_le : G.groupSize ≤ 16
  head_steps : G.headDim % 16 = 0
  stride : G.nat = 1 ∨ G.hiddenSize ≤ G.attnStride
  last_row : (G.nat - 1) * G.attnStride + G.producers * G.kPerHead ≤ G.nat * G.hiddenSize
  waits : G.woSplit = 1 ∨ G.producers ≤ G.numKvHeads

/-- **The condition.** There is nothing to store, or the dimensions fit. -/
def Safe : Prop :=
  G.kPerHead = 0 ∨ (G.hiddenSize = 0 ∧ G.headDim < 16) ∨ G.Fits

section

variable {G}

/-! ## Enough -/

/-- An attention store or a W_O load: there is something to store. -/
theorem Safe.fits (h : G.Safe) {c : Cta} {op : Op Counter Cell}
    (hop : op ∈ G.attnStores c ∨ op ∈ G.woLoads c) : G.Fits := by
  have hpos : 0 < G.kPerHead ∧ (0 < G.hiddenSize ∨ 16 ≤ G.headDim) := by
    rcases hop with hop | hop
    · obtain ⟨-, -, row, -, hg, col, hcol, -⟩ := G.mem_attnStores.mp hop
      exact ⟨Nat.mul_pos (by omega) (by omega), .inr (by omega)⟩
    · obtain ⟨hx, -, hH, k, -, hk, -⟩ := G.mem_woLoads.mp hop
      exact ⟨hk.bot_lt.trans_le (G.kEndInHead_le hx), .inl hH⟩
  rcases h with h | h | h
  · omega
  · omega
  · exact h

variable {i b x : ℕ} {c : Cta} {s : State Cta Counter Cell}

/-- Under `Fits` the attention band of sequence `i` lies in its band of the buffer. -/
theorem Fits.band (h : G.Fits) (hi : i < G.nat) :
    i * G.hiddenSize ≤ i * G.attnStride ∧
      i * G.attnStride + G.producers * G.kPerHead ≤ (i + 1) * G.hiddenSize := by
  have hlast := h.last_row
  rcases h.stride with h1 | hle
  · obtain rfl : i = 0 := by omega
    rw [h1] at hlast
    simpa using hlast
  · obtain ⟨e, he⟩ := Nat.exists_eq_add_of_le hle
    obtain ⟨m, hm⟩ : ∃ m, G.nat = m + 1 := ⟨G.nat - 1, by omega⟩
    rw [hm, he] at hlast
    have hie : i * e ≤ m * e := Nat.mul_le_mul_right _ (by omega)
    simp only [Nat.add_sub_cancel, Nat.mul_add, Nat.add_mul, Nat.one_mul] at hlast
    rw [he]
    simp only [Nat.mul_add, Nat.add_mul, Nat.one_mul]
    omega

theorem Fits.row_of_band (h : G.Fits) {z : ℕ} (hi : i < G.nat) (hb : b < G.producers)
    (hz : z < G.kPerHead) (hx : x = i * G.attnStride + (b * G.kPerHead + z)) :
    ∃ j < G.hiddenSize, x = i * G.hiddenSize + j := by
  obtain ⟨hlo, hhi⟩ := h.band hi
  have hin : b * G.kPerHead + z < G.producers * G.kPerHead :=
    exists_mul_add_lt.mp ⟨b, hb, z, hz, rfl⟩
  rw [Nat.succ_mul] at hhi
  exact ⟨x - i * G.hiddenSize, by omega, by omega⟩

/-- Under `Safe` every access of a CTA is in the band of its sequence. -/
theorem Safe.row_of_access (h : G.Safe) (hc : c ∈ G.grid)
    (hx : G.Reads c x ∨ G.Writes c x) : ∃ j < G.hiddenSize, x = c.2.2 * G.hiddenSize + j := by
  obtain ⟨-, hby, hbz⟩ := G.mem_grid.mp hc
  have hattn : ∀ v, .store x v ∈ G.attnStores c →
      ∃ j < G.hiddenSize, x = c.2.2 * G.hiddenSize + j := by
    intro v hv
    obtain ⟨-, h4, -⟩ := G.mem_attnStores.mp hv
    obtain ⟨z, hz, hx⟩ := G.attnStores_band hv
    exact (h.fits (.inl hv)).row_of_band hbz (lt_min h4 hby) hz hx
  have hwo : .load x ∈ G.woLoads c → ∃ j < G.hiddenSize, x = c.2.2 * G.hiddenSize + j := by
    intro hl
    have hfits := h.fits (.inr hl)
    obtain ⟨hkv, z, hz, hx⟩ := G.woLoads_band hl
    exact hfits.row_of_band hbz ((lt_min hkv hby).trans_le hfits.covered) hz hx
  rcases hx with hx | hx
  · rcases G.reads_iff.mp hx with hx | hx
    · exact hwo hx
    · exact hx
  · rcases G.writes_iff.mp hx with ⟨v, hv⟩ | ⟨-, -, hx⟩
    · exact hattn v hv
    · exact hx

/-- The attention CTA of the KV head stores every element that a W_O CTA of it loads. -/
theorem Fits.store_of_load (h : G.Fits) (hc : c ∈ G.grid)
    (hx : .load x ∈ G.woLoads c) : ∃ head col, col < G.headDim ∧ x = G.attnIdx c.2.2 head col ∧
      .store x (.attn c.2.2 head col) ∈ G.attnStores (0, c.2.1, c.2.2) := by
  obtain ⟨-, hby, hbz⟩ := G.mem_grid.mp hc
  obtain ⟨hkv, z, hz, rfl⟩ := G.woLoads_band hx
  have hp := (lt_min hkv hby).trans_le h.covered
  obtain ⟨row, hrow, col, hcol, rfl⟩ := exists_mul_add_lt.mpr hz
  have hidx : c.2.2 * G.attnStride + (c.2.1 * G.kPerHead + (row * G.headDim + col)) =
      G.attnIdx c.2.2 (c.2.1 * G.groupSize + row) col := by
    simp only [attnIdx, kPerHead]
    ring
  refine ⟨c.2.1 * G.groupSize + row, col, hcol, hidx, ?_⟩
  rw [hidx]
  have h16 := h.head_steps
  have hg := h.group_le
  exact G.mem_attnStores.mpr ⟨rfl, hp.trans_le (min_le_left _ _), row, by omega, hrow, col,
    by omega, rfl⟩

/-- Pending stores of an elected CTA are stores of its normalised row, and the election of its
sequence is over. -/
theorem body_of_reached (h : G.launch.Reached s) (c : Cta) :
    (∀ e ∈ s.body c, e ∈ G.normStores c.2.2) ∧
      (s.body c ≠ [] → G.numKvHeads * G.woSplit ≤ s.ctr (.phase1 c.2.2)) := by
  refine h.invariant (fun s => (∀ e ∈ s.body c, e ∈ G.normStores c.2.2) ∧
    (s.body c ≠ [] → G.numKvHeads * G.woSplit ≤ s.ctr (.phase1 c.2.2)))
    (by simp [Coop.Launch.init]) ?_
  rintro s d s' ⟨hmem, hctr⟩ - hs
  have hmono := Coop.Launch.ctr_le_step hs (.phase1 c.2.2)
  obtain ⟨-, ⟨x, v, rest, hb, rfl⟩ | ⟨op, hat, hex⟩⟩ := Coop.Launch.step_cases hs
  · by_cases hcd : c = d
    · subst hcd
      simp only [Function.update_self]
      rw [hb] at hmem hctr
      exact ⟨fun e he => hmem e (mem_cons_of_mem _ he), fun _ => hctr (by simp)⟩
    · simp only [Function.update_of_ne hcd]
      exact ⟨hmem, hctr⟩
  · have hop : op ∈ G.ctaProgram d := mem_of_getElem? hat.2.2
    cases op with
    | elect k n body =>
      obtain ⟨-, -, rfl, rfl, rfl⟩ := G.elect_mem_iff.mp hop
      cases hex
      by_cases hcd : c = d
      · subst hcd
        simp only [Function.update_self]
        split
        · exact ⟨fun e he => he, fun _ => by omega⟩
        · simp
      · simp only [Function.update_of_ne hcd]
        exact ⟨hmem, fun hne => (hctr hne).trans hmono⟩
    | await k n =>
      obtain ⟨-, rfl⟩ := State.exec_await.mp hex
      exact ⟨hmem, hctr⟩
    | store x v | load x =>
      cases hex
      exact ⟨hmem, hctr⟩
    | arrive k =>
      cases hex
      exact ⟨hmem, fun hne => (hctr hne).trans hmono⟩

/-- **Attention values stay.** Until the election of a sequence is over, an element that its
attention phase has stored holds the value stored. -/
theorem Fits.mem_of_did (h : G.Fits) (hs : G.launch.Reached s) (hc : c ∈ G.grid) {v : Cell}
    (hstore : .store x v ∈ G.attnStores c) (hdid : G.launch.Did s c (.store x v))
    (hctr : s.ctr (.phase1 c.2.2) < G.numKvHeads * G.woSplit) : s.mem x = v := by
  have hsafe : G.Safe := .inr (.inr h)
  have hrow := hsafe.row_of_access hc (.inr (G.writes_iff.mpr (.inl ⟨v, hstore⟩)))
  have hsame : ∀ d ∈ G.grid, (∃ j < G.hiddenSize, x = d.2.2 * G.hiddenSize + j) →
      d.2.2 = c.2.2 := by
    rintro d - ⟨j, hj, hx⟩
    obtain ⟨j', hj', hx'⟩ := hrow
    exact (mul_add_inj hj hj' (hx.symm.trans hx')).1
  revert hdid hctr
  induction hs with
  | init =>
    intro hdid
    simp [Coop.Launch.Did, Coop.Launch.init] at hdid
  | @next s s' d hs _ hstep ih =>
    intro hdid hctr
    have hctr' := (Coop.Launch.ctr_le_step hstep (.phase1 c.2.2)).trans_lt hctr
    obtain ⟨hd, ⟨y, w, rest, hb, rfl⟩ | ⟨op, hat, hex⟩⟩ := Coop.Launch.step_cases hstep
    · -- a store of an elected CTA: of another sequence, or the election would be over
      obtain ⟨hmem, hover⟩ := G.body_of_reached hs d
      rw [hb] at hmem hover
      obtain ⟨j, hj, hy, -⟩ := G.mem_normStores.mp (hmem (y, w) (by simp))
      have hne : x ≠ y := by
        rintro rfl
        rw [hsame d hd ⟨j, hj, hy⟩] at hover
        have := hover (by simp)
        omega
      simp only [Function.update_of_ne hne]
      exact ih hdid hctr'
    · rcases (Coop.Launch.did_step hstep).mp hdid with hdid' | ⟨rfl, hat'⟩
      · have hold := ih hdid' hctr'
        have hop : op ∈ G.ctaProgram d := mem_of_getElem? hat.2.2
        cases op with
        | store y w =>
          cases hex
          have hw := G.store_mem_iff.mp hop
          by_cases hxy : x = y
          · subst hxy
            have hseq := hsame d hd
              (hsafe.row_of_access hd (.inr (G.writes_iff.mpr (.inl ⟨w, hw⟩))))
            simp only [Function.update_self]
            exact G.attnStores_val hw hstore hseq
          · simp only [Function.update_of_ne hxy]
            exact hold
        | await k n =>
          obtain ⟨-, rfl⟩ := State.exec_await.mp hex
          exact hold
        | load y | arrive k | elect k n body =>
          cases hex
          exact hold
      · rw [Coop.Launch.step_of_atOp hat'] at hstep
        cases hstep
        simp

/-- A CTA at a load of its W_O phase is past its attention stores, its arrival and its wait. -/
theorem did_of_atOp_load (hat : G.launch.AtOp s c (.load x)) (hpc : s.pc c < (G.woPhase c).length) :
    .load x ∈ G.woLoads c ∧ ∀ op ∈ G.attnStores c ++ attnArrive c ++ G.preWoWait c,
      G.launch.Did s c op := by
  set pre := G.attnStores c ++ attnArrive c ++ G.preWoWait c with hpre
  have hprog : G.launch.prog c =
      pre ++ (G.woLoads c ++ (G.woElect c ++ G.gridWait c ++ G.mlpLoads c)) := by
    simp [hpre, launch, ctaProgram, woPhase]
  have hlen : (G.woPhase c).length = pre.length + (G.woLoads c).length := by
    rw [woPhase, length_append]
  have hget := hat.2.2
  rw [hprog] at hget
  have hnot : .load x ∉ pre := by simp [hpre, attnArrive, preWoWait, mem_attnStores]
  have hle : pre.length ≤ s.pc c := by
    by_contra hlt
    rw [getElem?_append_left (by omega)] at hget
    exact hnot (mem_of_getElem? hget)
  refine ⟨?_, fun op hop => Coop.Launch.did_of_length_le hprog hle hop⟩
  rw [getElem?_append_right hle, getElem?_append_left (by omega)] at hget
  exact mem_of_getElem? hget

theorem countP_attnStores (c : Cta) (k : Counter) :
    (G.attnStores c).countP (Op.signals k) = 0 := by
  rw [countP_eq_zero]
  intro op hop
  obtain ⟨-, -, _, -, -, _, -, rfl⟩ := G.mem_attnStores.mp hop
  simp [Op.signals]

/-- Only the arrival, the election and the grid barrier of a CTA signal counters. -/
theorem countP_ctaProgram (c : Cta) (k : Counter) :
    (G.ctaProgram c).countP (Op.signals k) = (attnArrive c).countP (Op.signals k) +
      (G.woElect c).countP (Op.signals k) + (G.gridWait c).countP (Op.signals k) := by
  have hwo : (G.woLoads c).countP (Op.signals k) = 0 := by
    rw [countP_eq_zero]
    intro op hop
    obtain ⟨-, -, -, _, -, -, rfl⟩ := G.mem_woLoads.mp hop
    simp [Op.signals]
  have hml : (G.mlpLoads c).countP (Op.signals k) = 0 := by
    rw [countP_eq_zero]
    intro op hop
    obtain ⟨_, -, rfl⟩ := G.mem_mlpLoads.mp hop
    simp [Op.signals]
  have hwa : (G.preWoWait c).countP (Op.signals k) = 0 := by
    unfold preWoWait
    split <;> simp [Op.signals]
  simp only [ctaProgram, woPhase, countP_append, countP_attnStores, hwo, hml, hwa]
  omega

/-- Of one operation behind a condition. -/
theorem countP_guarded (k : Counter) (op : Op Counter Cell) (q : Prop) [Decidable q] :
    (if q then [op] else []).countP (Op.signals k) = if q ∧ op.signals k then 1 else 0 := by
  split <;> simp_all [countP_cons]

theorem countP_preWo (c : Cta) (i : ℕ) :
    (G.ctaProgram c).countP (Op.signals (.preWo i)) =
      if c.1 = 0 ∧ c.2.1 < 4 ∧ c.2.2 = i then 1 else 0 := by
  rw [countP_ctaProgram, attnArrive, woElect, countP_guarded, countP_guarded]
  simp [gridWait, Op.signals, and_assoc]

theorem countP_phase1 (c : Cta) (i : ℕ) :
    (G.ctaProgram c).countP (Op.signals (.phase1 i)) =
      if c.1 < G.woSplit ∧ c.2.1 < G.numKvHeads ∧ c.2.2 = i then 1 else 0 := by
  rw [countP_ctaProgram, attnArrive, woElect, countP_guarded, countP_guarded]
  simp [gridWait, Op.signals, and_assoc]

/-- While a W_O CTA is in its loads the election of its sequence is open. -/
theorem phase1_lt (hs : G.launch.Reached s) (hc : c.1 < G.woSplit) (hkv : c.2.1 < G.numKvHeads)
    (hpc : s.pc c < (G.woPhase c).length) : s.ctr (.phase1 c.2.2) < G.numKvHeads * G.woSplit := by
  let W : Finset Cta := Finset.range G.woSplit ×ˢ Finset.range G.numKvHeads ×ˢ {c.2.2}
  have hmem : ∀ d : Cta, d ∈ W ↔
      d.1 < G.woSplit ∧ d.2.1 < G.numKvHeads ∧ d.2.2 = c.2.2 := by
    intro d
    simp only [W, Finset.mem_product, Finset.mem_range, Finset.mem_singleton]
  refine hs.ctr_lt (W := W) (c := c) ?_ ?_ ((hmem c).mpr ⟨hc, hkv, rfl⟩) ?_
  · intro d _
    simp only [launch, countP_phase1, hmem]
    exact le_rfl
  · simp [W, Nat.mul_comm]
  · -- the first part of the program has no election
    have hpre : (G.woPhase c).countP (Op.signals (.phase1 c.2.2)) = 0 := by
      have hall := countP_phase1 (G := G) c c.2.2
      rw [if_pos ⟨hc, hkv, rfl⟩, ctaProgram, countP_append, countP_append,
        countP_append] at hall
      have hel : (G.woElect c).countP (Op.signals (.phase1 c.2.2)) = 1 := by
        simp [woElect, hc, hkv, Op.signals]
      omega
    have hprog : G.launch.prog c =
        G.woPhase c ++ (G.woElect c ++ G.gridWait c ++ G.mlpLoads c) := by
      simp [launch, ctaProgram]
    rw [hprog, take_append_of_le_length hpc.le]
    have := ((G.woPhase c).take_sublist (s.pc c)).countP_le (p := Op.signals (.phase1 c.2.2))
    omega

/-- A CTA that has passed the wait before W_O knows that every attention CTA of its sequence has
arrived, if they are not more than it waits for. -/
theorem did_attnStores_of_wait (hs : G.launch.Reached s) (hle : G.producers ≤ G.numKvHeads)
    (hb : b < G.producers) (hctr : G.numKvHeads ≤ s.ctr (.preWo i)) {op : Op Counter Cell}
    (hop : op ∈ G.attnStores (0, b, i)) : G.launch.Did s (0, b, i) op := by
  have hprog : G.launch.prog (0, b, i) = G.attnStores (0, b, i) ++ (attnArrive (0, b, i) ++
      G.preWoWait (0, b, i) ++ G.woLoads (0, b, i) ++ G.woElect (0, b, i) ++
      G.gridWait (0, b, i) ++ G.mlpLoads (0, b, i)) := by
    simp [launch, ctaProgram, woPhase]
  refine Coop.Launch.did_of_length_le hprog ?_ hop
  by_contra hlt
  let W : Finset Cta := {0} ×ˢ Finset.range G.producers ×ˢ {i}
  have hmem : ∀ d : Cta, d ∈ W ↔ d.1 = 0 ∧ d.2.1 < G.producers ∧ d.2.2 = i := by
    intro d
    simp only [W, Finset.mem_product, Finset.mem_range, Finset.mem_singleton]
  have hsig : s.ctr (.preWo i) < G.numKvHeads := by
    refine hs.ctr_lt (W := W) (c := (0, b, i)) ?_ ?_ ((hmem _).mpr ⟨rfl, hb, rfl⟩) ?_
    · intro d hd
      obtain ⟨-, hd2, -⟩ := G.mem_grid.mp hd
      simp only [launch, countP_preWo, hmem]
      by_cases hcond : d.1 = 0 ∧ d.2.1 < 4 ∧ d.2.2 = i
      · rw [if_pos hcond, if_pos ⟨hcond.1, lt_min hcond.2.1 hd2, hcond.2.2⟩]
      · rw [if_neg hcond]
        exact Nat.zero_le _
    · simpa [W] using hle
    · rw [hprog, take_append_of_le_length (by omega)]
      exact Nat.le_zero.mp ((take_sublist _ _).countP_le.trans_eq (countP_attnStores _ _))
  omega

/-- **W_O loads see the attention of their sequence**, in every interleaving. -/
theorem Fits.loads (h : G.Fits) (hs : G.launch.Reached s) (hat : G.launch.AtOp s c (.load x))
    (hpc : s.pc c < (G.woPhase c).length) :
    ∃ head col, col < G.headDim ∧ x = G.attnIdx c.2.2 head col ∧
      s.mem x = .attn c.2.2 head col := by
  have hc := hat.1
  obtain ⟨hload, hdone⟩ := did_of_atOp_load hat hpc
  obtain ⟨hwo, hkv, -⟩ := G.mem_woLoads.mp hload
  obtain ⟨head, col, hcol, hx, hstore⟩ := h.store_of_load hc hload
  obtain ⟨-, hby, hbz⟩ := G.mem_grid.mp hc
  have hp : c.2.1 < G.producers := (lt_min hkv hby).trans_le h.covered
  have hopen : s.ctr (.phase1 c.2.2) < G.numKvHeads * G.woSplit := phase1_lt hs hwo hkv hpc
  have hdid : G.launch.Did s (0, c.2.1, c.2.2) (.store x (.attn c.2.2 head col)) := by
    obtain ⟨bx, b, i⟩ := c
    rcases Nat.eq_zero_or_pos bx with rfl | hpos
    · exact hdone _ (mem_append_left _ (mem_append_left _ hstore))
    · have hwait : .await (.preWo i) G.numKvHeads ∈ G.preWoWait (bx, b, i) := by
        simp [preWoWait, hpos, show bx < G.woSplit from hwo, show b < G.numKvHeads from hkv]
      have hctr := hs.await_le (hdone _ (mem_append_right _ hwait))
      have hle : G.producers ≤ G.numKvHeads := by
        rcases h.waits with h1 | hle
        · omega
        · exact hle
      exact did_attnStores_of_wait hs hle hp hctr hstore
  exact ⟨head, col, hcol, hx,
    h.mem_of_did hs (G.mem_grid_of_producer hby hbz) hstore hdid hopen⟩

theorem Safe.isolated (h : G.Safe) : G.Isolated where
  disjoint := by
    intro c hc c' hc' hne x hw
    obtain ⟨j', hj', hx'⟩ := h.row_of_access hc' (.inr hw)
    have hnot : ¬ (G.Reads c x ∨ G.Writes c x) := by
      intro hacc
      obtain ⟨j, hj, hx⟩ := h.row_of_access hc hacc
      exact hne (mul_add_inj hj hj' (hx.symm.trans hx')).1
    exact not_or.mp hnot
  inBounds := by
    intro c hc x hacc
    obtain ⟨j, hj, hx⟩ := h.row_of_access hc hacc
    exact exists_mul_add_lt.mp ⟨c.2.2, (G.mem_grid.mp hc).2.2, j, hj, hx⟩
  produced := by
    intro c hc x hx
    obtain ⟨-, hby, hbz⟩ := G.mem_grid.mp hc
    obtain ⟨head, col, -, -, hst⟩ := (h.fits (.inr hx)).store_of_load hc hx
    exact ⟨_, G.mem_grid_of_producer hby hbz, rfl, _, hst⟩
  loads := by
    intro s hs c x hat hpc
    exact (h.fits (.inr (did_of_atOp_load hat hpc).1)).loads hs hat hpc

/-! ## Necessary -/

theorem pos_of_kPerHead (hk : 0 < G.kPerHead) : 0 < G.groupSize ∧ 0 < G.headDim :=
  ⟨Nat.pos_of_mul_pos_right hk, Nat.pos_of_mul_pos_left hk⟩

/-- The W_O CTA with the last slice loads the last element of its KV head. -/
theorem load_last_mem (hH : 0 < G.hiddenSize) (hk : 0 < G.kPerHead) (hb : b < G.numKvHeads) :
    .load (i * G.attnStride + b * G.kPerHead + (G.kPerHead - 1)) ∈
      G.woLoads (G.woSplit - 1, b, i) := by
  obtain ⟨hpos, -⟩ := G.woSplit_pos
  have hstart : G.kStartInHead (G.woSplit - 1) < G.kPerHead := by
    refine Nat.div_lt_of_lt_mul ?_
    rw [Nat.mul_comm]
    exact Nat.mul_lt_mul_of_pos_right (by omega) hk
  have hend : G.kEndInHead (G.woSplit - 1) = G.kPerHead := by
    unfold kEndInHead
    rw [Nat.sub_add_cancel hpos, Nat.mul_div_cancel _ hpos]
  refine G.mem_woLoads.mpr ⟨?_, hb, hH, G.kPerHead - 1, ?_, ?_, rfl⟩
  · omega
  · show G.kStartInHead (G.woSplit - 1) ≤ _
    omega
  · show _ < G.kEndInHead (G.woSplit - 1)
    omega

/-- Every load of W_O has a producer: its last one needs all rows and columns of the last head. -/
theorem Isolated.stores_last (h : G.Isolated) (hH : 0 < G.hiddenSize) (hk : 0 < G.kPerHead) :
    G.consumers ≤ G.producers ∧ G.groupSize ≤ 16 ∧ G.headDim % 16 = 0 := by
  obtain ⟨hpos, -⟩ := G.woSplit_pos
  have hcons : 0 < G.consumers := lt_min G.numKvHeads_pos G.numKTiles_pos
  have hlt : G.consumers - 1 < G.numKvHeads ∧ G.consumers - 1 < G.numKTiles := by
    have h1 : G.consumers ≤ G.numKvHeads := min_le_left _ _
    have h2 : G.consumers ≤ G.numKTiles := min_le_right _ _
    omega
  have hc : ((G.woSplit - 1, G.consumers - 1, 0) : Cta) ∈ G.grid := by
    have hle := G.woSplit_le
    have hn := G.nat_pos
    refine G.mem_grid.mpr ⟨?_, hlt.2, hn⟩
    omega
  obtain ⟨⟨bx, b, i⟩, hc', hseq, v, hst⟩ := h.produced _ hc _ (load_last_mem (i := 0) hH hk hlt.1)
  obtain rfl : i = 0 := hseq
  obtain ⟨-, hby, -⟩ := G.mem_grid.mp hc'
  obtain ⟨-, h4, row, h16, hg, col, hcol, heq⟩ := G.mem_attnStores.mp hst
  injection heq with hx _
  have hz : row * G.headDim + col < G.kPerHead :=
    exists_mul_add_lt.mp ⟨row, hg, col, by omega, rfl⟩
  have hx' : (G.consumers - 1) * G.kPerHead + (G.kPerHead - 1) =
      b * G.kPerHead + (row * G.headDim + col) := by
    rw [Nat.zero_mul, Nat.zero_add] at hx
    rw [hx]
    simp only [attnIdx, kPerHead]
    ring
  obtain ⟨hb, hz'⟩ := mul_add_inj (by omega) hz hx'
  have hlast : (G.groupSize - 1) * G.headDim + (G.headDim - 1) = row * G.headDim + col := by
    rw [← hz', kPerHead]
    obtain ⟨g, hg'⟩ : ∃ g, G.groupSize = g + 1 := ⟨G.groupSize - 1, by omega⟩
    rw [hg', Nat.succ_mul, Nat.add_sub_cancel]
    omega
  obtain ⟨hrow, hcol'⟩ := mul_add_inj (by omega) (by omega) hlast
  have hprod : b < G.producers := lt_min h4 hby
  omega

theorem store_mem (b i row col : ℕ) (hb : b < G.producers) (hrow : row < 16)
    (hg : row < G.groupSize) (hcol : col < G.headDim / 16 * 16) :
    .store (G.attnIdx i (b * G.groupSize + row) col) (.attn i (b * G.groupSize + row) col) ∈
      G.attnStores (0, b, i) :=
  G.mem_attnStores.mpr ⟨rfl, hb.trans_le (min_le_left _ _), row, hrow, hg, col, hcol, rfl⟩

theorem producers_pos : 0 < G.producers := lt_min (by omega) G.numKTiles_pos

theorem mem_grid_of_lt_producers (hb : b < G.producers) (hi : i < G.nat) :
    ((0, b, i) : Cta) ∈ G.grid :=
  G.mem_grid_of_producer (hb.trans_le (min_le_right _ _)) hi

theorem Isolated.last_row (h : G.Isolated) (hk : 0 < G.kPerHead) (h16 : G.groupSize ≤ 16)
    (hsteps : G.headDim % 16 = 0) :
    (G.nat - 1) * G.attnStride + G.producers * G.kPerHead ≤ G.nat * G.hiddenSize := by
  obtain ⟨hgpos, hdpos⟩ := pos_of_kPerHead hk
  have hn := G.nat_pos
  have hp := producers_pos (G := G)
  have hst := store_mem (G := G) (G.producers - 1) (G.nat - 1) (G.groupSize - 1)
    (G.headDim - 1) (by omega) (by omega) (by omega) (by omega)
  have hlt := h.inBounds _ (mem_grid_of_lt_producers (by omega) (by omega)) _
    (.inr (G.writes_iff.mpr (.inl ⟨_, hst⟩)))
  obtain ⟨g, hg⟩ : ∃ g, G.groupSize = g + 1 := ⟨G.groupSize - 1, by omega⟩
  obtain ⟨p, hp'⟩ : ∃ p, G.producers = p + 1 := ⟨G.producers - 1, by omega⟩
  simp only [attnIdx, hg, hp', Nat.add_sub_cancel] at hlt
  have hprod : (p + 1) * ((g + 1) * G.headDim) = (p * (g + 1) + g) * G.headDim + G.headDim := by
    ring
  rw [hp', kPerHead, hg, hprod]
  omega

/-- With hidden rows longer than attention rows the first attention store of sequence 1 is in
the row that the MLP phase of sequence 0 loads. -/
theorem Isolated.stride (h : G.Isolated) (hk : 0 < G.kPerHead) (hsteps : G.headDim % 16 = 0) :
    G.nat = 1 ∨ G.hiddenSize ≤ G.attnStride := by
  by_contra hnot
  obtain ⟨hgpos, hdpos⟩ := pos_of_kPerHead hk
  have hnat := G.nat_pos
  have hst := store_mem (G := G) 0 1 0 0 producers_pos (by omega)
    (by omega) (by omega)
  have hdis := h.disjoint (0, 0, 0) (mem_grid_of_lt_producers producers_pos (by omega)) (0, 0, 1)
    (mem_grid_of_lt_producers producers_pos (by omega)) (by simp) _
    (G.writes_iff.mpr (.inl ⟨_, hst⟩))
  refine hdis.1 (G.reads_iff.mpr (.inr ⟨G.attnStride, by omega, ?_⟩))
  simp [attnIdx]

/-- The attention CTAs of KV heads 1 to `n` can run before that of head 0 starts. -/
theorem exists_ahead {n : ℕ} (hn : n < G.producers) :
    ∃ s, G.launch.Reached s ∧ (∀ c, s.body c = []) ∧ s.ctr (.preWo 0) = n ∧
      (∀ c : Cta, (c.1 ≠ 0 ∨ n < c.2.1) → s.pc c = 0) ∧ ∀ x < G.kPerHead, s.mem x = .launch := by
  induction n with
  | zero =>
    exact ⟨_, .init, fun _ => rfl, rfl, fun _ _ => rfl, fun _ _ => rfl⟩
  | succ n ih =>
    obtain ⟨s, hs, hbody, hctr, hpc, hmem⟩ := ih (by omega)
    have h4 : n + 1 < 4 := hn.trans_le (min_le_left _ _)
    have hc : ((0, n + 1, 0) : Cta) ∈ G.launch.grid := mem_grid_of_lt_producers hn G.nat_pos
    have harr : attnArrive (0, n + 1, 0) = [.arrive (.preWo 0)] := by simp [attnArrive, h4]
    obtain ⟨s', hr, hbody', hpc', hctr', hmem'⟩ := Coop.Launch.reach_run (L := G.launch) hc
      (G.attnStores (0, n + 1, 0) ++ attnArrive (0, n + 1, 0))
      (by
        intro op hop
        rcases mem_append.mp hop with hop | hop
        · obtain ⟨-, -, _, -, -, _, -, rfl⟩ := G.mem_attnStores.mp hop
          exact .inl ⟨_, _, rfl⟩
        · rw [harr, mem_singleton] at hop
          exact .inr ⟨_, hop⟩)
      (hbody _)
      (by
        rw [hpc _ (.inr (by show n < n + 1; omega)), drop_zero]
        simp [launch, ctaProgram, woPhase])
    refine ⟨s', hs.trans hr, fun c => by rw [hbody', hbody], ?_, ?_, ?_⟩
    · rw [hctr', hctr, countP_append, countP_attnStores, harr]
      simp [Op.signals]
    · intro c hcne
      have hne : c ≠ (0, n + 1, 0) := by
        rintro rfl
        rcases hcne with h0 | h0
        · exact h0 rfl
        · exact absurd h0 (lt_irrefl (n + 1))
      rw [hpc', Function.update_of_ne hne]
      refine hpc c (hcne.imp_right fun h => ?_)
      omega
    · intro x hx
      rw [hmem' x, hmem x hx]
      intro v hv
      rcases mem_append.mp hv with hv | hv
      · obtain ⟨z, -, hz⟩ := G.attnStores_band hv
        have : (n + 1) * G.kPerHead ≤ x := by
          rw [hz]
          show _ ≤ 0 * G.attnStride + ((n + 1) * G.kPerHead + z)
          omega
        rw [Nat.succ_mul] at this
        omega
      · rw [harr] at hv
        simp at hv

/-- With fewer KV heads than attention CTAs the wait before W_O does not wait for head 0. -/
theorem Isolated.waits (h : G.Isolated) (hH : 0 < G.hiddenSize) (hk : 0 < G.kPerHead)
    (hsteps : G.headDim % 16 = 0) : G.woSplit = 1 ∨ G.producers ≤ G.numKvHeads := by
  by_contra hnot
  obtain ⟨hgpos, hdpos⟩ := pos_of_kPerHead hk
  obtain ⟨hwpos, hw8⟩ := G.woSplit_pos
  have hkv := G.numKvHeads_pos
  obtain ⟨s, hs, hbody, hctr, hpc, hmem⟩ := exists_ahead (G := G) (n := G.numKvHeads) (by omega)
  have hc : ((1, 0, 0) : Cta) ∈ G.launch.grid := by
    have hle := G.woSplit_le
    exact G.mem_grid.mpr ⟨by show 1 < G.sliceCtas; omega, G.numKTiles_pos, G.nat_pos⟩
  -- the first slice with a wait is not empty: it starts below the end of the KV head
  have hsize : G.woSplit ≤ G.kPerHead := by
    have : G.headDim ≤ G.kPerHead := Nat.le_mul_of_pos_left _ hgpos
    omega
  have hslice : G.kStartInHead 1 < G.kEndInHead 1 := by
    unfold kStartInHead kEndInHead
    rw [Nat.mul_one, Nat.mul_add, Nat.mul_one]
    calc G.kPerHead / G.woSplit < G.kPerHead / G.woSplit + 1 := Nat.lt_succ_self _
      _ = (G.kPerHead + G.woSplit) / G.woSplit := (Nat.add_div_right _ hwpos).symm
      _ ≤ (G.kPerHead + G.kPerHead) / G.woSplit := Nat.div_le_div_right (by omega)
  have hstart : G.kStartInHead 1 < G.kPerHead :=
    hslice.trans_le (G.kEndInHead_le (by omega))
  obtain ⟨loads, hloads⟩ : ∃ loads,
      G.woLoads (1, 0, 0) = .load (G.kStartInHead 1) :: loads := by
    obtain ⟨g, hg⟩ : ∃ g, G.hiddenSize / 128 / 8 = g + 1 :=
      Nat.exists_eq_succ_of_ne_zero (G.groups_pos_iff.mpr hH).ne'
    obtain ⟨m, hm⟩ : ∃ m, G.kEndInHead 1 - G.kStartInHead 1 = m + 1 :=
      ⟨G.kEndInHead 1 - G.kStartInHead 1 - 1, by omega⟩
    simp [woLoads, show 1 < G.woSplit by omega, show 0 < G.numKvHeads by omega, hg, hm,
      range_succ_eq_map]
  have hprog : G.ctaProgram (1, 0, 0) = .await (.preWo 0) G.numKvHeads ::
      .load (G.kStartInHead 1) :: (loads ++ (G.woElect (1, 0, 0) ++ G.gridWait (1, 0, 0) ++
        G.mlpLoads (1, 0, 0))) := by
    simp [ctaProgram, woPhase, attnStores, attnArrive, preWoWait, hloads,
      show 1 < G.woSplit by omega, show 0 < G.numKvHeads by omega]
  have hpc0 : s.pc (1, 0, 0) = 0 := hpc _ (.inl (by simp))
  have hstep : G.launch.step s (1, 0, 0) = some (s.next (1, 0, 0)) := by
    have hawait : G.launch.AtOp s (1, 0, 0) (.await (.preWo 0) G.numKvHeads) :=
      ⟨hc, hbody _, by rw [hpc0]; simp [launch, hprog]⟩
    rw [Coop.Launch.step_of_atOp hawait]
    simp [State.exec, hctr]
  have hat : G.launch.AtOp (s.next (1, 0, 0)) (1, 0, 0) (.load (G.kStartInHead 1)) :=
    ⟨hc, hbody _, by simp [State.next, hpc0, launch, hprog]⟩
  obtain ⟨head, col, -, -, hval⟩ := h.loads _ (hs.next trivial hstep) _ _ hat (by
    simp [State.next, hpc0, woPhase, attnStores, attnArrive, preWoWait, hloads,
      show 1 < G.woSplit by omega, show 0 < G.numKvHeads by omega])
  have hlaunch : (s.next (1, 0, 0)).mem (G.kStartInHead 1) = .launch := hmem _ hstart
  rw [hlaunch] at hval
  cases hval

theorem Isolated.safe (h : G.Isolated) : G.Safe := by
  rcases Nat.eq_zero_or_pos G.kPerHead with hk | hk
  · exact .inl hk
  obtain ⟨hgpos, hdpos⟩ := pos_of_kPerHead hk
  rcases Nat.eq_zero_or_pos G.hiddenSize with hH | hH
  · refine .inr (.inl ⟨hH, ?_⟩)
    by_contra hd
    have hst := store_mem (G := G) 0 0 0 0 producers_pos
      (by omega) hgpos (by omega)
    have hlt := h.inBounds _ (mem_grid_of_lt_producers producers_pos G.nat_pos) _
      (.inr (G.writes_iff.mpr (.inl ⟨_, hst⟩)))
    rw [hH, Nat.mul_zero] at hlt
    exact absurd hlt (Nat.not_lt_zero _)
  · obtain ⟨hcov, hg, hsteps⟩ := h.stores_last hH hk
    exact .inr (.inr ⟨hH, hcov, hg, hsteps, h.stride hk hsteps, h.last_row hk hg hsteps,
      h.waits hH hk hsteps⟩)

end

end Geometry

end Nvllm.Kernel.AttnOutput
