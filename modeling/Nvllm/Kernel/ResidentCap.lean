import Nvllm.Decoder.Forward

/-! # The gate of the cooperative launch

The CTAs of the cooperative launch spin in grid barriers, so that all of them have to be resident
at once. `forward` chooses the launch if 64 CTAs for each sequence are at most `_resident_cap`,
which was computed once from 45568 bytes of shared memory per CTA. Here the gate is compared with
the grid and the shared memory of the launch. A decode batch has as many tokens as sequences.
-/

namespace Nvllm.Kernel.AttnOutput.Geometry

open Nvllm.Decoder

/-- `_probe_resident_cap` before compilation, which is how it is called. -/
def probeResidentCap (numSms smemPerSm smemBytes : ℕ) : ℕ :=
  max 1 (smemPerSm / max smemBytes 1) * numSms

variable (G : Geometry)

/-- `_smem_bytes_phase_01`: tiles of Q in BF16, of K and V in FP8, and the scratch of 4 warps. -/
def smemBytesPhase01 : ℕ :=
  16 * G.headDim * 2 + 64 * G.headDim + 64 * G.headDim + 4 * 16 * 16 * 4 + 4 * 16 * 8

/-- `_smem_bytes_phase_3`. -/
def smemBytesPhase3 : ℕ := G.hiddenSize * 4 + 4 * 4 + G.tileS * 2 + G.tileS / 2 + G.tileS / 16 + 4

/-- `_smem_bytes_phase_coop_full`, with which the kernel is launched. -/
def smemBytesPhaseCoopFull : ℕ := max G.smemBytesPhase01 G.smemBytesPhase3

/-- The kernel on a batch of `n` sequences. -/
def onBatch (n : ℕ) (hn : 1 ≤ n) : Geometry := { G with nat := n, nat_pos := hn }

/-- **A cooperative launch fits**: for every number of SMs and every batch for which `forward`
chooses it, all CTAs can be resident. -/
def LaunchFits (smemPerSm : ℕ) : Prop :=
  ∀ (numSms n : ℕ) (hn : 1 ≤ n) (d : Dispatch), d.numSeqs = n → d.numActualTokens = n →
    d.residentCap = probeResidentCap numSms smemPerSm 45568 → d.useBetaCoop = true →
    (G.onBatch n hn).grid.card ≤ numSms * (smemPerSm / G.smemBytesPhaseCoopFull)

variable {G}

theorem card_grid : G.grid.card = G.sliceCtas * G.numKTiles * G.nat := by
  rw [grid, Finset.card_product, Finset.card_product, Finset.card_range, Finset.card_range,
    Finset.card_range, Nat.mul_assoc]

/-- A batch of `n` sequences with every switch set in favour of the launch. -/
def coopDispatch (residentCap n : ℕ) : Dispatch where
  fusionBound := true
  mlpFusionBound := true
  coopAttached := true
  phaseEEnabled := true
  forcedPath := .auto
  layerAllowed := true
  diagDisableFw := false
  fallbackRaise := false
  tile := (64, 640, 8)
  woSplit := 1
  residentCap := residentCap
  fusionMaxTokens := n
  isDecodeOnly := true
  numActualTokens := n
  numSeqs := n
  coopFails := false
  liteFails := false
  mlpFails := false
  tile_mem := Dispatch.tile_default
  woSplit_mem := Dispatch.one_mem
  coopAttached_enabled := fun _ => rfl

theorem useBetaCoop_coopDispatch {residentCap n : ℕ} (h : 64 * n ≤ residentCap) :
    (coopDispatch residentCap n).useBetaCoop = true := by
  simp [coopDispatch, Dispatch.useBetaCoop, Dispatch.phaseEActive, Dispatch.useFusion,
    Dispatch.fitsBuffer, h]

theorem le_residentCap_of_useBetaCoop {d : Dispatch} (h : d.useBetaCoop = true) :
    64 * d.numSeqs ≤ d.residentCap := by
  simp only [Dispatch.useBetaCoop, Bool.and_eq_true, decide_eq_true_eq] at h
  exact h.1.2

/-- The launch fits exactly if the grid of one sequence is as much smaller than 64 as the CTAs
counted by the cap are more than those that fit. -/
theorem launchFits_iff (G : Geometry) (smemPerSm : ℕ) :
    G.LaunchFits smemPerSm ↔ G.sliceCtas * G.numKTiles * max 1 (smemPerSm / 45568) ≤
      64 * (smemPerSm / G.smemBytesPhaseCoopFull) := by
  constructor
  · intro h
    -- on 64 SMs the gate lets through as many sequences as CTAs are counted for one SM
    have hgate : 64 * max 1 (smemPerSm / 45568) ≤ probeResidentCap 64 smemPerSm 45568 :=
      Nat.le_of_eq (Nat.mul_comm _ _)
    have hfits := h 64 _ (Nat.le_max_left _ _) _ rfl rfl rfl (useBetaCoop_coopDispatch hgate)
    rw [card_grid] at hfits
    exact hfits
  · intro h numSms n hn d hseqs _ hcap hcoop
    have hgate : 64 * n ≤ max 1 (smemPerSm / 45568) * numSms := by
      have hle := le_residentCap_of_useBetaCoop hcoop
      rw [hseqs, hcap] at hle
      exact hle
    rw [card_grid]
    refine Nat.le_of_mul_le_mul_left ?_ (by decide : 0 < 64)
    calc 64 * (G.sliceCtas * G.numKTiles * n)
        = G.sliceCtas * G.numKTiles * (64 * n) := Nat.mul_left_comm _ _ _
      _ ≤ G.sliceCtas * G.numKTiles * (max 1 (smemPerSm / 45568) * numSms) :=
        Nat.mul_le_mul_left _ hgate
      _ = G.sliceCtas * G.numKTiles * max 1 (smemPerSm / 45568) * numSms :=
        (Nat.mul_assoc _ _ _).symm
      _ ≤ 64 * (smemPerSm / G.smemBytesPhaseCoopFull) * numSms := Nat.mul_le_mul_right _ h
      _ = 64 * (numSms * (smemPerSm / G.smemBytesPhaseCoopFull)) := by
        rw [Nat.mul_assoc, Nat.mul_comm numSms]

/-- The preset `decode-balanced` for a hidden size of 5120. -/
def decodeBalanced : Geometry :=
  { qwen27b with
    nat := 1
    tileS := 128
    sliceCtas := 16
    nat_pos := by decide
    tileS_pos := by decide
    intermediateSize_tiles := by decide
    tileS_blocks := by decide
    woSplit_le := by decide }

/-- With 48 SMs of 102400 bytes the gate sees 64 CTAs where 128 are launched and 96 fit. -/
theorem decodeBalanced_too_large :
    (coopDispatch (probeResidentCap 48 102400 45568) 1).useBetaCoop = true ∧
      ¬ (decodeBalanced.onBatch 1 (Nat.le_refl 1)).grid.card ≤
        48 * (102400 / decodeBalanced.smemBytesPhaseCoopFull) ∧
      ¬ decodeBalanced.LaunchFits 102400 := by
  have hcoop : (coopDispatch (probeResidentCap 48 102400 45568) 1).useBetaCoop = true := by decide
  have hcard : ¬ (decodeBalanced.onBatch 1 (Nat.le_refl 1)).grid.card ≤
      48 * (102400 / decodeBalanced.smemBytesPhaseCoopFull) := by
    rw [card_grid]
    decide
  exact ⟨hcoop, hcard, fun h => hcard (h 48 1 _ _ rfl rfl rfl hcoop)⟩

end Nvllm.Kernel.AttnOutput.Geometry
