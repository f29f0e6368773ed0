import Nvllm.Kernel.AttnOutput
import Nvllm.Lib.Index

/-! # Footprints of the phase-E CTAs on `attn_output`

For each part of a CTA program, which elements it touches. Attention stores and W_O loads of
sequence `i` are in the band that starts at `i * num_q_heads * head_dim`, the normalised row is
the band `[i * hidden_size, (i + 1) * hidden_size)`.
-/

namespace Nvllm.Kernel.AttnOutput

open Nvllm.Coop Nvllm.Index List

namespace Geometry

variable (G : Geometry)

/-- Attention CTAs of a sequence: the literal 4, cut by the grid. -/
def producers : ℕ := min 4 G.numKTiles

/-- KV heads whose W_O CTAs are in the grid. -/
def consumers : ℕ := min G.numKvHeads G.numKTiles

variable {c : Cta} {op : Op Counter Cell} {v : Cell} {x : ℕ}

theorem mem_grid : c ∈ G.grid ↔
    c.1 < G.sliceCtas ∧ c.2.1 < G.numKTiles ∧ c.2.2 < G.nat := by
  simp [grid]

theorem numKTiles_pos : 0 < G.numKTiles := by
  simp [numKTiles]

theorem woSplit_pos : 0 < G.woSplit ∧ G.woSplit ≤ 8 := by
  have := G.woSplit_mem
  simp at this
  omega

theorem mem_grid_of_producer {b i : ℕ} (hb : b < G.numKTiles) (hi : i < G.nat) :
    ((0, b, i) : Cta) ∈ G.grid := by
  have := G.woSplit_le
  have := G.woSplit_pos
  exact G.mem_grid.mpr ⟨by show 0 < G.sliceCtas; omega, hb, hi⟩

theorem mem_attnStores :
    op ∈ G.attnStores c ↔ c.1 = 0 ∧ c.2.1 < 4 ∧ ∃ row < 16, row < G.groupSize ∧
      ∃ col < G.headDim / 16 * 16,
        op = .store (G.attnIdx c.2.2 (c.2.1 * G.groupSize + row) col)
          (.attn c.2.2 (c.2.1 * G.groupSize + row) col) := by
  rw [attnStores, mem_ite_nil_right, and_assoc]
  refine and_congr_right fun _ => and_congr_right fun _ => ?_
  simp only [mem_flatMap, mem_range, mem_ite_nil_right, mem_map]
  constructor
  · rintro ⟨md, hmd, row, hrow, hg, col, hcol, rfl⟩
    exact ⟨row, hrow, hg, md * 16 + col, exists_mul_add_lt.mp ⟨md, hmd, col, hcol, rfl⟩, rfl⟩
  · rintro ⟨row, hrow, hg, col, hcol, rfl⟩
    obtain ⟨md, hmd, col', hcol', rfl⟩ := exists_mul_add_lt.mpr hcol
    exact ⟨md, hmd, row, hrow, hg, col', hcol', rfl⟩

theorem groups_pos_iff : 0 < G.hiddenSize / 128 / 8 ↔ 0 < G.hiddenSize := by
  have := G.hiddenSize_groups
  omega

theorem mem_woLoads :
    op ∈ G.woLoads c ↔ c.1 < G.woSplit ∧ c.2.1 < G.numKvHeads ∧ 0 < G.hiddenSize ∧
      ∃ k, G.kStartInHead c.1 ≤ k ∧ k < G.kEndInHead c.1 ∧
        op = .load (c.2.2 * G.attnStride + c.2.1 * G.kPerHead + k) := by
  rw [woLoads, mem_ite_nil_right, and_assoc]
  refine and_congr_right fun _ => and_congr_right fun _ => ?_
  simp only [mem_flatMap, mem_range, mem_map]
  constructor
  · rintro ⟨g, hg, k, hk, rfl⟩
    exact ⟨G.groups_pos_iff.mp (by omega), G.kStartInHead c.1 + k, by omega, by omega, rfl⟩
  · rintro ⟨hH, k, hlo, hhi, rfl⟩
    refine ⟨0, G.groups_pos_iff.mpr hH, k - G.kStartInHead c.1, by omega, ?_⟩
    congr 2
    omega

/-- The groups of the threads cover the row: `128 * (hidden_size / 128 / 8) * 8 = hidden_size`. -/
theorem mem_normStores {seq : ℕ} : (x, v) ∈ G.normStores seq ↔
    ∃ j < G.hiddenSize, x = seq * G.hiddenSize + j ∧ v = .norm seq j := by
  have hdiv := G.hiddenSize_groups
  have hrow : G.hiddenSize / 128 / 8 * 8 = G.hiddenSize / 128 := by omega
  have hall : 128 * (G.hiddenSize / 128) = G.hiddenSize := by omega
  simp only [normStores, mem_flatMap, mem_range, mem_map, Prod.mk.injEq]
  constructor
  · rintro ⟨tid, ht, grp, hg, oi, ho, rfl, rfl⟩
    have hin := exists_mul_add_lt.mp ⟨grp, hg, oi, ho, rfl⟩
    rw [hrow] at hin
    have hj := exists_mul_add_lt.mp ⟨tid, ht, _, hin, rfl⟩
    exact ⟨_, hj.trans_eq hall, rfl, rfl⟩
  · rintro ⟨j, hj, rfl, rfl⟩
    rw [← hall] at hj
    obtain ⟨tid, ht, m, hm, rfl⟩ := exists_mul_add_lt.mpr hj
    rw [← hrow] at hm
    obtain ⟨grp, hg, oi, ho, rfl⟩ := exists_mul_add_lt.mpr hm
    exact ⟨tid, ht, grp, hg, oi, ho, rfl, rfl⟩

theorem mem_mlpLoads : op ∈ G.mlpLoads c ↔
    ∃ j < G.hiddenSize, op = .load (c.2.2 * G.hiddenSize + j) := by
  have hall : G.hiddenSize / 128 * 128 = G.hiddenSize := by
    have := G.hiddenSize_groups
    omega
  simp only [mlpLoads, mem_flatMap, mem_range, mem_map]
  constructor
  · rintro ⟨i, hi, tid, ht, rfl⟩
    refine ⟨_, ?_, rfl⟩
    rw [← hall]
    exact exists_mul_add_lt.mp ⟨i, hi, tid, ht, rfl⟩
  · rintro ⟨j, hj, rfl⟩
    rw [← hall] at hj
    obtain ⟨i, hi, tid, ht, rfl⟩ := exists_mul_add_lt.mpr hj
    exact ⟨i, hi, tid, ht, rfl⟩

/-! ## Which part of the program an operation is from -/

theorem store_mem_iff :
    .store x v ∈ G.ctaProgram c ↔ .store x v ∈ G.attnStores c := by
  simp [ctaProgram, woPhase, attnArrive, preWoWait, woElect, gridWait, mem_woLoads, mem_mlpLoads]

theorem load_mem_iff : .load x ∈ G.ctaProgram c ↔
    .load x ∈ G.woLoads c ∨ .load x ∈ G.mlpLoads c := by
  simp [ctaProgram, woPhase, attnArrive, preWoWait, woElect, gridWait, mem_attnStores]

theorem elect_mem_iff {k : Counter} {n : ℕ} {body : List (ℕ × Cell)} :
    .elect k n body ∈ G.ctaProgram c ↔ c.1 < G.woSplit ∧ c.2.1 < G.numKvHeads ∧
      k = .phase1 c.2.2 ∧ n = G.numKvHeads * G.woSplit ∧ body = G.normStores c.2.2 := by
  simp [ctaProgram, woPhase, attnArrive, preWoWait, woElect, gridWait, mem_attnStores,
    mem_woLoads, mem_mlpLoads, and_assoc]

theorem reads_iff : G.Reads c x ↔
    .load x ∈ G.woLoads c ∨ ∃ j < G.hiddenSize, x = c.2.2 * G.hiddenSize + j := by
  simp only [Reads, load_mem_iff, mem_mlpLoads, Op.load.injEq]

theorem writes_iff : G.Writes c x ↔
    (∃ v, .store x v ∈ G.attnStores c) ∨
      (c.1 < G.woSplit ∧ c.2.1 < G.numKvHeads ∧
        ∃ j < G.hiddenSize, x = c.2.2 * G.hiddenSize + j) := by
  simp only [Writes, store_mem_iff, elect_mem_iff]
  constructor
  · rintro (h | ⟨k, n, body, v, ⟨h1, h2, rfl, rfl, rfl⟩, hx⟩)
    · exact .inl h
    · obtain ⟨j, hj, rfl, -⟩ := G.mem_normStores.mp hx
      exact .inr ⟨h1, h2, j, hj, rfl⟩
  · rintro (h | ⟨h1, h2, j, hj, rfl⟩)
    · exact .inl h
    · exact .inr ⟨_, _, _, _, ⟨h1, h2, rfl, rfl, rfl⟩, G.mem_normStores.mpr ⟨j, hj, rfl, rfl⟩⟩

/-! ## Bands -/

/-- An attention store of CTA `c` is in the part of KV head `by` of its sequence. -/
theorem attnStores_band (h : .store x v ∈ G.attnStores c) :
    ∃ z < G.kPerHead, x = c.2.2 * G.attnStride + (c.2.1 * G.kPerHead + z) := by
  obtain ⟨-, -, row, -, hg, col, hcol, heq⟩ := G.mem_attnStores.mp h
  cases heq
  have hcol' : col < G.headDim := by omega
  refine ⟨row * G.headDim + col, exists_mul_add_lt.mp ⟨row, hg, col, hcol', rfl⟩, ?_⟩
  simp only [attnIdx, kPerHead]
  ring

theorem kEndInHead_le {bx : ℕ} (h : bx < G.woSplit) : G.kEndInHead bx ≤ G.kPerHead := by
  refine Nat.div_le_of_le_mul ?_
  rw [Nat.mul_comm G.woSplit]
  exact Nat.mul_le_mul_left _ h

theorem woLoads_band (h : .load x ∈ G.woLoads c) :
    c.2.1 < G.numKvHeads ∧
      ∃ z < G.kPerHead, x = c.2.2 * G.attnStride + (c.2.1 * G.kPerHead + z) := by
  obtain ⟨hx, hy, -, k, -, hk, heq⟩ := G.mem_woLoads.mp h
  cases heq
  exact ⟨hy, k, hk.trans_le (G.kEndInHead_le hx), by ring⟩

theorem kPerHead_mul_le : G.numKvHeads * G.kPerHead ≤ G.attnStride := by
  rw [kPerHead, ← Nat.mul_assoc]
  exact Nat.mul_le_mul_right _ (Nat.mul_div_le _ _)

/-- Every index of the launch is below `2 ^ 31` if `IndicesFit`. -/
theorem index_lt (hfit : G.IndicesFit) (hc : c ∈ G.grid) (h : G.Reads c x ∨ G.Writes c x) :
    x < 2 ^ 31 := by
  obtain ⟨-, -, hseq⟩ := G.mem_grid.mp hc
  have hrow : ∀ stride, c.2.2 * stride + stride ≤ G.nat * stride := fun stride => by
    rw [← Nat.succ_mul]
    exact Nat.mul_le_mul_right _ hseq
  have hattn := hrow G.attnStride
  have hnorm := hrow G.hiddenSize
  have hband : ∀ {n by' z : ℕ}, by' < n → z < G.kPerHead →
      by' * G.kPerHead + z < n * G.kPerHead := fun hy hz =>
    exists_mul_add_lt.mp ⟨_, hy, _, hz, rfl⟩
  obtain ⟨hstore, hhidden⟩ := hfit
  rcases h with h | h
  · rcases G.reads_iff.mp h with h | ⟨j, hj, rfl⟩
    · obtain ⟨hy, z, hz, rfl⟩ := G.woLoads_band h
      have hlt := hband hy hz
      have hle := G.kPerHead_mul_le
      omega
    · omega
  · rcases G.writes_iff.mp h with ⟨v, h⟩ | ⟨-, -, j, hj, rfl⟩
    · obtain ⟨-, hy, -⟩ := G.mem_attnStores.mp h
      obtain ⟨z, hz, rfl⟩ := G.attnStores_band h
      have hlt := hband hy hz
      omega
    · omega

/-- The value of an attention store is determined by its element. -/
theorem attnStores_val {c' : Cta} {v' : Cell} (h : .store x v ∈ G.attnStores c)
    (h' : .store x v' ∈ G.attnStores c') (hseq : c.2.2 = c'.2.2) : v = v' := by
  obtain ⟨-, -, row, -, -, col, hcol, heq⟩ := G.mem_attnStores.mp h
  obtain ⟨-, -, row', -, -, col', hcol', heq'⟩ := G.mem_attnStores.mp h'
  cases heq
  injection heq' with hx hv
  subst hv
  rw [hseq] at hx ⊢
  unfold attnIdx at hx
  have hx' : (c.2.1 * G.groupSize + row) * G.headDim + col =
      (c'.2.1 * G.groupSize + row') * G.headDim + col' := by omega
  obtain ⟨hh, hc⟩ := mul_add_inj (by omega) (by omega) hx'
  rw [hh, hc]

end Geometry

end Nvllm.Kernel.AttnOutput
