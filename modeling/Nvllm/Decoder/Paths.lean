import Mathlib.Analysis.SpecialFunctions.Sigmoid
import Nvllm.Decoder.Reference

/-! # When all routes of a decoder layer agree

Over the reals, the routes of a layer return one pair for all weights and inputs exactly if the
layer is `Uniform`. For each condition a probe is run on two routes that treat it differently: the
probe projects one attention element to every output row, so that the residual shows what the
route made of that element. Where the rows of a batch interfere in the buffer of the cooperative
kernel, the probe shows what another row left there.
-/

namespace Nvllm.Decoder

open Finset
open Nvllm.Kernel.AttnOutput (Geometry)

/-- Exact arithmetic. -/
noncomputable def exact : Scalar ℝ where
  sigmoid := Real.sigmoid
  rsqrt := fun x => (√x)⁻¹

/-- **All routes agree** on a row of a batch of `n`: whatever the dispatch chooses, whatever
unwritten memory holds and whatever the other rows do to a shared buffer, the forward returns the
same pair. -/
def Layer.PathsAgree (L : Layer) (n : ℕ) : Prop :=
  ∀ (W : Weights L ℝ) (hidden : Vec ℝ L.hiddenSize) (residual : Option (Vec ℝ L.hiddenSize)),
    ∃ out, ∀ (d : Dispatch) (m : Memory L ℝ), d.Serving n → m.Shares d →
      forward exact W m d hidden residual = some out

/-! ## Routes -/

/-- A prefill batch of `n` tokens on the legacy route. -/
def prefillRoute (n : ℕ) : Dispatch where
  fusionBound := true
  mlpFusionBound := true
  coopAttached := false
  phaseEEnabled := false
  forcedPath := .auto
  layerAllowed := true
  diagDisableFw := false
  fallbackRaise := false
  tile := (64, 640, 8)
  woSplit := 1
  residentCap := 64 * n
  fusionMaxTokens := n
  isDecodeOnly := false
  numActualTokens := n
  numSeqs := n
  coopFails := false
  liteFails := false
  mlpFails := false
  tile_mem := Dispatch.tile_default
  woSplit_mem := Dispatch.one_mem
  coopAttached_enabled := by decide

/-- A decode batch: the paged kernel with fused W_O and norm, then the MLP op. -/
def pagedRoute (n : ℕ) : Dispatch := { prefillRoute n with isDecodeOnly := true }

/-- A prefill batch on the framework-output route. -/
def frameworkRoute (n : ℕ) : Dispatch :=
  { prefillRoute n with
    coopAttached := true
    phaseEEnabled := true
    coopAttached_enabled := fun _ => rfl }

/-- A decode batch on β-coop, consumed by the legacy route. -/
def coopRoute (n ws : ℕ) (hws : ws ∈ [1, 2, 4, 8]) : Dispatch :=
  { frameworkRoute n with
    isDecodeOnly := true
    diagDisableFw := true
    woSplit := ws
    woSplit_mem := hws }

section Residuals

variable {R : Type} [Field R] (S : Scalar R) {L : Layer} (W : Weights L R) (m : Memory L R)
  (h r : Vec R L.hiddenSize) (n : ℕ)

theorem prefillRoute_residual : (afterInputNorm S W m (prefillRoute n) h r).map Prod.snd =
    some fun k => applyAttnLayerScale W (projected S W h) k + r := rfl

theorem frameworkRoute_residual : (afterInputNorm S W m (frameworkRoute n) h r).map Prod.snd =
    some fun k => projected S W h k + r := rfl

theorem backendForward_pagedRoute : backendForward S W m (pagedRoute n) h r =
    pagedThenLite S W m (pagedRoute n) false h r := by
  have hf : (pagedRoute n).useFusion = true := by
    simp [pagedRoute, prefillRoute, Dispatch.useFusion, Dispatch.fitsBuffer]
  rw [backendForward, if_pos hf]
  rfl

theorem pagedRoute_residual (hH : L.hiddenSize = woHiddenDim) :
    (afterInputNorm S W m (pagedRoute n) h r).map Prod.snd =
      some fun k => fusedWo S W m k h + r := by
  have hp : pagedFused S W m h r = some (postNorm S W (fun k => fusedWo S W m k h) fun _ => r) :=
    if_pos hH
  rw [afterInputNorm, backendForward_pagedRoute, pagedThenLite, hp]
  rfl

theorem coopRoute_eq (ws : ℕ) (hws : ws ∈ [1, 2, 4, 8]) :
    afterInputNorm S W m (coopRoute n ws hws) h r =
      some (applyFfnLayerScale W (mlpKernel S W (coopFused S W m ws h r).1),
        coopResidual S W m ws h r) := by
  have hf : (coopRoute n ws hws).useFusion = true := by
    simp [coopRoute, frameworkRoute, prefillRoute, Dispatch.useFusion, Dispatch.fitsBuffer]
  have hc : (coopRoute n ws hws).useBetaCoop = true := by
    simp [Dispatch.useBetaCoop, Dispatch.phaseEActive, Dispatch.useFusion, Dispatch.fitsBuffer,
      coopRoute, frameworkRoute, prefillRoute]
  rw [afterInputNorm, backendForward, if_pos hf, if_pos hc]
  rfl

theorem coopRoute_residual (ws : ℕ) (hws : ws ∈ [1, 2, 4, 8]) :
    (afterInputNorm S W m (coopRoute n ws hws) h r).map Prod.snd =
      some (coopResidual S W m ws h r) := by
  rw [coopRoute_eq]
  rfl

end Residuals

theorem prefillRoute_serving (n : ℕ) : (prefillRoute n).Serving n :=
  ⟨rfl, rfl, rfl, rfl, fun _ => rfl⟩

theorem pagedRoute_serving (n : ℕ) : (pagedRoute n).Serving n := ⟨rfl, rfl, rfl, rfl, fun _ => rfl⟩

theorem frameworkRoute_serving (n : ℕ) : (frameworkRoute n).Serving n :=
  ⟨rfl, rfl, rfl, rfl, fun _ => rfl⟩

theorem coopRoute_serving (n ws : ℕ) (hws : ws ∈ [1, 2, 4, 8]) : (coopRoute n ws hws).Serving n :=
  ⟨rfl, rfl, rfl, rfl, fun _ => rfl⟩

/-! ## The probe -/

section

variable {L : Layer}

/-- Attention gives 1 everywhere, W_O of rank `k0` copies element `j0` to every row, all gates
are 0, the attention scale is 1 and the MLP is 0. -/
def probe (k0 : Fin L.tpSize) (j0 : Fin L.qSize) : Weights L ℝ where
  inputLayernorm := 0
  postAttentionLayernorm := 0
  attention := fun _ _ _ => 1
  gate := fun _ _ _ => 0
  oProj := fun k _ => if k = k0 then Pi.single j0 1 else 0
  gateProj := 0
  upProj := 0
  downProj := 0
  attnLayerScale := fun _ => 1
  ffnLayerScale := 0
  quantIn := id
  quantMid := id

/-- Memory with zeros except for `b` in the attention buffers, and rows that do not interfere. -/
def memory (b : ℝ) : Memory L ℝ where
  gateBuf := fun _ _ => 0
  attnBuf := fun _ _ => b
  stray := fun _ => 0
  coopAttn := fun _ => id
  coopNorm := fun _ => id

theorem memory_shares (b : ℝ) (d : Dispatch) : (memory (L := L) b).Shares d :=
  fun _ => ⟨fun _ _ => rfl, fun _ _ => rfl⟩

/-- Another row has filled the buffer of the cooperative kernel with `b`. -/
def clobbered (b : ℝ) : Memory L ℝ := { memory 0 with coopAttn := fun _ _ _ => b }

variable (k0 : Fin L.tpSize) (j0 : Fin L.qSize)

theorem probe_dot (k : Fin L.tpSize) (i : Fin L.hiddenSize) (v : Vec ℝ L.qSize) :
    (probe k0 j0).oProj k i ⬝ᵥ v = if k = k0 then v j0 else 0 := by
  by_cases hk : k = k0
  · simp [probe, hk]
  · simp [probe, hk]

/-- The projected element: 1, or 1/2 after the gate. -/
theorem probe_projected (h : Vec ℝ L.hiddenSize) (k : Fin L.tpSize) (i : Fin L.hiddenSize) :
    projected exact (probe k0 j0) h k i = if L.attnOutputGate then 1 / 2 else 1 := by
  have hsum : projected exact (probe k0 j0) h k i =
      applyGate exact (probe k0 j0) h (fun _ _ => 1) k0 j0 := by
    simp only [projected, oProjModule, allReduce, Finset.sum_apply, Matrix.mulVec, probe_dot]
    simp [probe]
  rw [hsum]
  by_cases hg : L.attnOutputGate = true <;>
    simp [applyGate, hg, Scalar.gated, probe, exact]

omit k0 j0 in
/-- Past the end of the tensors the sum of the decode kernel adds zeros. -/
theorem woGather_memory (hg : L.groupSize ≤ 16) (b : ℝ) (w a : Vec ℝ L.qSize) :
    woGather (memory b) w a = w ⬝ᵥ a := by
  have hle : L.qSize ≤ L.numHeads * kernelHeadDim := by
    apply Nat.mul_le_mul_left
    rcases L.headSize_mem with h | h <;> simp [h, kernelHeadDim]
  rw [woGather_eq_sum _ hg, ← sum_peek (memory (L := L) b).stray]
  symm
  apply Finset.sum_subset (Finset.range_subset_range.mpr hle)
  intro i _ hi
  have hi : ¬ i < L.qSize := by simpa using hi
  simp [peek, hi, memory]

/-- The element through the fused W_O of the decode kernel: only on the rank that holds the
weight, and halved by a gate of 0 whether the layer has a gate or not. -/
theorem probe_fusedWo (hg : L.groupSize ≤ 16) (b : ℝ) (h : Vec ℝ L.hiddenSize)
    (k : Fin L.tpSize) (i : Fin L.hiddenSize) :
    fusedWo exact (probe k0 j0) (memory b) k h i =
      if k = k0 then (if L.headSize = kernelHeadDim then 1 else b) / 2 else 0 := by
  have hgate : gateOperand (probe k0 j0) (memory b) k h = fun _ => 0 := by
    unfold gateOperand
    split <;> rfl
  have hattn : decodeAttention (probe k0 j0) (memory b) k h =
      fun _ => if L.headSize = kernelHeadDim then 1 else b := by
    unfold decodeAttention
    split <;> rfl
  unfold fusedWo
  rw [woGather_memory hg, probe_dot, hgate, hattn]
  simp [Scalar.gated, exact, div_eq_mul_inv]

theorem probe_coopResidual {ws : ℕ} (hws : 0 < ws) (b : ℝ) (h r : Vec ℝ L.hiddenSize)
    (i : Fin L.hiddenSize) :
    coopResidual exact (probe k0 j0) (clobbered b) ws h r k0 i = b + r i := by
  show coopWo _ _ _ _ + r i = _
  rw [coopWo_eq _ hws, probe_dot, if_pos rfl]
  rfl

end

/-! ## Each condition is necessary -/

/-- The launch of the default preset. -/
def Layer.coopGeometry (L : Layer) (hH : L.hiddenSize = 5120) {n : ℕ} (hn : 0 < n) {ws : ℕ}
    (hws : ws ∈ [1, 2, 4, 8]) : Geometry :=
  { Kernel.AttnOutput.qwen27b with
    nat := n
    hiddenSize := L.hiddenSize
    intermediateSize := L.intermediateSize
    numAttnHeads := L.numHeads
    numKvHeads := L.numKvHeads
    headDim := L.headSize
    woSplit := ws
    nat_pos := hn
    numKvHeads_pos := Nat.pos_of_dvd_of_pos L.numKvHeads_dvd L.numHeads_pos
    hiddenSize_groups := by rw [hH]
    intermediateSize_tiles := L.intermediateSize_tiles
    hiddenSize_tiles := by rw [hH]; rfl
    woSplit_mem := hws
    woSplit_le := (woSplit_pos hws).2 }

namespace Layer.PathsAgree

variable {L : Layer} {n : ℕ} (hL : L.PathsAgree n)
include hL

/-- Two routes of an agreeing layer leave the same residual. -/
theorem residual_eq (W : Weights L ℝ) {m m' : Memory L ℝ} {d d' : Dispatch} (hd : d.Serving n)
    (hd' : d'.Serving n) (hm : m.Shares d) (hm' : m'.Shares d') (r : Vec ℝ L.hiddenSize)
    {x y : Sharded L ℝ L.hiddenSize}
    (hx : (afterInputNorm exact W m d
      (exact.rmsNorm L.rmsNormEps W.inputLayernorm r) r).map Prod.snd = some x)
    (hy : (afterInputNorm exact W m' d'
      (exact.rmsNorm L.rmsNormEps W.inputLayernorm r) r).map Prod.snd = some y) : x = y := by
  obtain ⟨out, hout⟩ := hL W r none
  have hdout := hout d m hd hm
  have hdout' := hout d' m' hd' hm'
  simp only [forward] at hdout hdout'
  rw [hdout] at hx
  rw [hdout'] at hy
  exact (Option.some.inj hx).symm.trans (Option.some.inj hy)

theorem hiddenSize : L.hiddenSize = 5120 := by
  by_contra hH
  have hq : 0 < L.qSize := Nat.mul_pos L.numHeads_pos L.headSize_pos
  obtain ⟨out, hout⟩ := hL (probe ⟨0, L.tpSize_pos⟩ ⟨0, hq⟩) 0 none
  have h := hout (pagedRoute n) (memory 0) (pagedRoute_serving n) (memory_shares _ _)
  -- the decode kernel raises
  have hnone : ∀ (W : Weights L ℝ) (m : Memory L ℝ) (h r : Vec ℝ L.hiddenSize),
      afterInputNorm exact W m (pagedRoute n) h r = none := by
    intro W m h r
    have hp : pagedFused exact W m h r = none := if_neg hH
    rw [afterInputNorm, backendForward_pagedRoute, pagedThenLite, hp]
    rfl
  simp [forward, hnone] at h

/-- If the rows interfere, the residual shows what another row left in the buffer. -/
theorem isolated (hn : 0 < n) {ws : ℕ} (hws : ws ∈ [1, 2, 4, 8]) :
    (L.coopGeometry hL.hiddenSize hn hws).Isolated := by
  by_contra hnot
  have hlaunches : (coopRoute n ws hws).Launches L (L.coopGeometry hL.hiddenSize hn hws) :=
    ⟨rfl, rfl, rfl, rfl, rfl, rfl, rfl, rfl⟩
  have hshares : ∀ b, (clobbered (L := L) b).Shares (coopRoute n ws hws) :=
    fun b hall => absurd (hall _ hlaunches) hnot
  have hq : 0 < L.qSize := Nat.mul_pos L.numHeads_pos L.headSize_pos
  let k0 : Fin L.tpSize := ⟨0, L.tpSize_pos⟩
  let i0 : Fin L.hiddenSize := ⟨0, by rw [hL.hiddenSize]; decide⟩
  have h := hL.residual_eq (probe k0 ⟨0, hq⟩) (coopRoute_serving n ws hws)
    (coopRoute_serving n ws hws) (hshares 0) (hshares 1) 0
    (coopRoute_residual ..) (coopRoute_residual ..)
  have h := congrFun (congrFun h k0) i0
  rw [probe_coopResidual k0 _ (woSplit_pos hws).1, probe_coopResidual k0 _ (woSplit_pos hws).1] at h
  simp at h

theorem fits (hn : 0 < n) {ws : ℕ} (hws : ws ∈ [1, 2, 4, 8]) :
    (L.coopGeometry hL.hiddenSize hn hws).Fits := by
  rcases (hL.isolated hn hws).safe with h | ⟨h, -⟩ | h
  · have hpos : 0 < L.kPerHead := Nat.mul_pos L.groupSize_pos L.headSize_pos
    exact absurd h hpos.ne'
  · have h : L.hiddenSize = 0 := h
    rw [hL.hiddenSize] at h
    cases h
  · exact h

theorem groupSize (hn : 0 < n) : L.groupSize ≤ 16 := (hL.fits hn Dispatch.one_mem).group_le

/-- Four CTAs store the heads: all KV heads need one, and with a split W_O, which waits for one
arrival per KV head, all of them are waited for. -/
theorem numKvHeads (hn : 0 < n) : L.numKvHeads = 4 := by
  have hcovered : min L.numKvHeads (max (L.hiddenSize / 640) 1) ≤
    min 4 (max (L.hiddenSize / 640) 1) := (hL.fits hn Dispatch.one_mem).covered
  have hwaits : 2 = 1 ∨ min 4 (max (L.hiddenSize / 640) 1) ≤ L.numKvHeads :=
    (hL.fits hn (by decide : 2 ∈ [1, 2, 4, 8])).waits
  rw [hL.hiddenSize] at hcovered hwaits
  omega

/-- What the unfused and the paged route make of the probe, on any rank. -/
theorem probe_eq (hn : 0 < n) (k0 k : Fin L.tpSize) (b : ℝ) :
    (if L.attnOutputGate then 1 / 2 else 1) * (if L.layerScale then 2 else 1) =
      if k = k0 then (if L.headSize = kernelHeadDim then 1 else b) / 2 else (0 : ℝ) := by
  have hq : 0 < L.qSize := Nat.mul_pos L.numHeads_pos L.headSize_pos
  let i0 : Fin L.hiddenSize := ⟨0, by rw [hL.hiddenSize]; decide⟩
  have h := hL.residual_eq (probe k0 ⟨0, hq⟩) (prefillRoute_serving n) (pagedRoute_serving n)
    (memory_shares b _) (memory_shares b _) 0 (prefillRoute_residual ..)
    (pagedRoute_residual _ _ _ _ _ _ hL.hiddenSize)
  have h := congrFun (congrFun h k) i0
  simp only [Pi.add_apply, Pi.zero_apply, add_zero, probe_fusedWo k0 _ (hL.groupSize hn)] at h
  rw [← h]
  by_cases hs : L.layerScale = true
  · simp only [applyAttnLayerScale, hs, if_true, scaled, probe_projected]
    norm_num [probe]
  · simp [applyAttnLayerScale, hs, probe_projected]

theorem tpSize (hn : 0 < n) : L.tpSize = 1 := by
  by_contra htp
  have hpos := L.tpSize_pos
  have h := hL.probe_eq hn ⟨1, by omega⟩ ⟨0, hpos⟩ 0
  have hne : (⟨0, hpos⟩ : Fin L.tpSize) ≠ ⟨1, by omega⟩ := by simp
  split_ifs at h <;> norm_num at h

theorem headSize (hn : 0 < n) : L.headSize = kernelHeadDim := by
  by_contra hh
  have h0 := hL.probe_eq hn ⟨0, L.tpSize_pos⟩ ⟨0, L.tpSize_pos⟩ 0
  have h1 := hL.probe_eq hn ⟨0, L.tpSize_pos⟩ ⟨0, L.tpSize_pos⟩ 1
  rw [if_pos rfl, if_neg hh] at h0 h1
  rw [h0] at h1
  norm_num at h1

/-- The framework-output route drops the scale. -/
theorem noScale : L.layerScale = false := by
  by_contra hs
  have hs : L.layerScale = true := by simpa using hs
  have hq : 0 < L.qSize := Nat.mul_pos L.numHeads_pos L.headSize_pos
  let k0 : Fin L.tpSize := ⟨0, L.tpSize_pos⟩
  let i0 : Fin L.hiddenSize := ⟨0, by rw [hL.hiddenSize]; decide⟩
  have h := hL.residual_eq (probe k0 ⟨0, hq⟩) (prefillRoute_serving n) (frameworkRoute_serving n)
    (memory_shares 0 _) (memory_shares 0 _) 0 (prefillRoute_residual ..)
    (frameworkRoute_residual ..)
  have h := congrFun (congrFun h k0) i0
  simp only [Pi.add_apply, Pi.zero_apply, add_zero, applyAttnLayerScale, hs, if_true, scaled,
    probe_projected] at h
  split_ifs at h <;> norm_num [probe] at h

theorem gate (hn : 0 < n) : L.attnOutputGate = true := by
  by_contra hg
  have h := hL.probe_eq hn ⟨0, L.tpSize_pos⟩ ⟨0, L.tpSize_pos⟩ 0
  rw [if_neg hg, if_pos rfl, if_pos (hL.headSize hn)] at h
  simp [hL.noScale] at h

/-- The heads of one row fit a row of the buffer; in a batch they fill it. -/
theorem rows (hn : 0 < n) : L.numHeads ≤ 20 ∧ (n = 1 ∨ L.numHeads = 20) := by
  have hfits := hL.fits hn Dispatch.one_mem
  have hhead : L.headSize = 256 := hL.headSize hn
  have hproducers : min 4 (max (L.hiddenSize / 640) 1) = L.numKvHeads := by
    rw [hL.hiddenSize, hL.numKvHeads hn]
    decide
  have hlast : (n - 1) * L.qSize + min 4 (max (L.hiddenSize / 640) 1) * L.kPerHead ≤
    n * L.hiddenSize := hfits.last_row
  rw [hproducers, L.numKvHeads_mul_kPerHead, ← Nat.succ_mul, Nat.succ_eq_add_one,
    Nat.sub_add_cancel hn, hL.hiddenSize, Layer.qSize, hhead] at hlast
  have hle : L.numHeads * 256 ≤ 5120 := Nat.le_of_mul_le_mul_left hlast hn
  refine ⟨by omega, hfits.stride.imp_right fun hstride => ?_⟩
  have hstride : L.hiddenSize ≤ L.numHeads * L.headSize := hstride
  rw [hL.hiddenSize, hhead] at hstride
  omega

end Layer.PathsAgree

/-! ## The epsilon of the cooperative kernel

It is seen only through the MLP, so the second probe has an MLP: `x` is sent to
`silu(x j0) * x j0`, which is strictly increasing in a positive `x j0`. -/

section

variable {L : Layer}

/-- W_O is 0, the MLP multiplies element `j0` with its `silu`. -/
def mlpProbe (i0 : Fin L.intermediateSize) (j0 : Fin L.hiddenSize) : Weights L ℝ where
  inputLayernorm := 0
  postAttentionLayernorm := 0
  attention := 0
  gate := 0
  oProj := 0
  gateProj := fun _ _ => Pi.single j0 1
  upProj := fun _ _ => Pi.single j0 1
  downProj := fun _ _ => Pi.single i0 1
  attnLayerScale := 0
  ffnLayerScale := 0
  quantIn := id
  quantMid := id

theorem mlpLocal_mlpProbe (i0 : Fin L.intermediateSize) (j0 i : Fin L.hiddenSize)
    (k : Fin L.tpSize) (x : Vec ℝ L.hiddenSize) :
    mlpLocal exact (mlpProbe i0 j0) k x i = exact.silu (x j0) * x j0 := by
  simp [mlpLocal, mlpProbe, Matrix.mulVec]

theorem silu_mul_self_strictMonoOn : StrictMonoOn (fun x => exact.silu x * x) (Set.Ioi 0) := by
  intro x hx y hy hxy
  have hs : Real.sigmoid x < Real.sigmoid y := Real.sigmoid_lt hxy
  have h : x * Real.sigmoid x < y * Real.sigmoid y :=
    mul_lt_mul'' hxy hs hx.le (Real.sigmoid_nonneg x)
  exact mul_lt_mul'' h hxy (mul_nonneg hx.le (Real.sigmoid_nonneg x)) hx.le

theorem rmsNorm_const {n : ℕ} (hn : n ≠ 0) (eps t : ℝ) (j : Fin n) :
    exact.rmsNorm eps 0 (fun _ => t) j = t * (√(t ^ 2 + eps))⁻¹ := by
  have hn : (n : ℝ) ≠ 0 := Nat.cast_ne_zero.mpr hn
  simp [Scalar.rmsNorm, exact, mul_div_cancel_left₀ _ hn]

/-- A row on which two different epsilons are told apart. -/
theorem rmsNorm_const_ne {n : ℕ} (hn : n ≠ 0) {eps eps' : ℝ} (hne : eps ≠ eps') (j : Fin n) :
    ∃ t : ℝ, exact.silu (exact.rmsNorm eps 0 (fun _ => t) j) *
        exact.rmsNorm eps 0 (fun _ => t) j ≠
      exact.silu (exact.rmsNorm eps' 0 (fun _ => t) j) * exact.rmsNorm eps' 0 (fun _ => t) j := by
  -- large enough for both radicands to be positive
  let t : ℝ := 1 + |eps| + |eps'|
  have ht : 0 < t := by positivity
  have hsq : 1 + |eps| + |eps'| ≤ t ^ 2 := by
    have h1 : 1 ≤ t := by
      have := abs_nonneg eps
      have := abs_nonneg eps'
      linarith
    calc 1 + |eps| + |eps'| = t := rfl
      _ ≤ t ^ 2 := by nlinarith
  have hpos : 0 < t ^ 2 + eps := by
    have := neg_abs_le eps
    have := abs_nonneg eps'
    linarith
  have hpos' : 0 < t ^ 2 + eps' := by
    have := neg_abs_le eps'
    have := abs_nonneg eps
    linarith
  have hval : 0 < t * (√(t ^ 2 + eps))⁻¹ := mul_pos ht (inv_pos.mpr (Real.sqrt_pos.mpr hpos))
  have hval' : 0 < t * (√(t ^ 2 + eps'))⁻¹ := mul_pos ht (inv_pos.mpr (Real.sqrt_pos.mpr hpos'))
  refine ⟨t, fun h => hne ?_⟩
  rw [rmsNorm_const hn, rmsNorm_const hn] at h
  have h := silu_mul_self_strictMonoOn.injOn hval hval' h
  have h := inv_injective (mul_left_cancel₀ ht.ne' h)
  have h := (Real.sqrt_inj hpos.le hpos'.le).mp h
  linarith

theorem prefillRoute_hidden (W : Weights L ℝ) (m : Memory L ℝ) (h r : Vec ℝ L.hiddenSize)
    (n : ℕ) : (afterInputNorm exact W m (prefillRoute n) h r).map Prod.fst =
      some (applyFfnLayerScale W (mlpKernel exact W
        (postNorm exact W (applyAttnLayerScale W (projected exact W h)) fun _ => r).1)) := by
  have hm : ∀ x, cuteMlpForward exact W (prefillRoute n) x x = mlpKernel exact W x := by
    simp [cuteMlpForward, prefillRoute, Dispatch.fitsBuffer]
  rw [← hm]
  rfl

theorem Layer.PathsAgree.eps {n : ℕ} (hL : L.PathsAgree n) : L.rmsNormEps = 1 / 1000000 := by
  by_contra hne
  have hH : L.hiddenSize ≠ 0 := by
    rw [hL.hiddenSize]
    decide
  let k0 : Fin L.tpSize := ⟨0, L.tpSize_pos⟩
  let j0 : Fin L.hiddenSize := ⟨0, Nat.pos_of_ne_zero hH⟩
  let W : Weights L ℝ := mlpProbe ⟨0, L.intermediateSize_pos⟩ j0
  have hne : (L.rmsNormEps : ℝ) ≠ (coopRmsEps : ℝ) := fun h => hne (Rat.cast_injective h)
  obtain ⟨t, ht⟩ := rmsNorm_const_ne hH hne j0
  obtain ⟨out, hout⟩ := hL W (fun _ => t) none
  have hpre := hout _ (memory 0) (prefillRoute_serving n) (memory_shares _ _)
  have hcoop := hout _ (memory 0) (coopRoute_serving n 1 Dispatch.one_mem) (memory_shares _ _)
  simp only [forward] at hpre hcoop
  have hpre := congrArg (Option.map Prod.fst) hpre
  have hcoop := congrArg (Option.map Prod.fst) hcoop
  rw [prefillRoute_hidden] at hpre
  rw [coopRoute_eq] at hcoop
  have h := congrFun (congrFun (Option.some.inj (hpre.trans hcoop.symm)) k0) j0
  -- W_O is 0 on both routes, so both normalise the input row
  have hproj : ∀ h, projected exact W h = 0 := by
    intro h
    funext k i
    simp [projected, oProjModule, allReduce, W, mlpProbe]
  have hres : ∀ h, coopResidual exact W (memory 0) 1 h (fun _ => t) k0 = fun _ => t := by
    intro h
    funext i
    show coopWo _ _ _ _ + t = t
    rw [coopWo_eq _ Nat.one_pos, show W.oProj k0 i = 0 from rfl, zero_dotProduct, zero_add]
  have hshared : ∀ x, (memory (L := L) 0).coopNorm k0 x = x := fun _ => rfl
  have hnorm : W.postAttentionLayernorm = 0 := rfl
  apply ht
  simpa [applyFfnLayerScale, applyAttnLayerScale, hL.noScale, hproj, mlpKernel,
    show ∀ x, mlpLocal exact W k0 x j0 = _ from mlpLocal_mlpProbe _ j0 j0 k0, postNorm, coopFused,
    hshared, hres, hnorm] using h

end

/-! ## The equivalence -/

/-- **All routes of a layer agree exactly if the layer is uniform**: one rank, hidden size 5120,
head size 256, 4 KV heads, at most 20 query heads and in a batch of several rows exactly 20, an
output gate, no layer scale, epsilon `1e-6`. -/
theorem Layer.pathsAgree_iff_uniform (L : Layer) {n : ℕ} (hn : 0 < n) :
    L.PathsAgree n ↔ L.Uniform n := by
  constructor
  · intro h
    obtain ⟨hheads, hrows⟩ := h.rows hn
    exact ⟨h.tpSize hn, h.hiddenSize, h.headSize hn, h.numKvHeads hn, hheads, hrows, h.gate hn,
      h.noScale, h.eps⟩
  · intro h W hidden residual
    exact ⟨_, fun d m hd hm => h.forward_eq exact W m hd hm _ _⟩

/-- A layer of hidden size 5120 with 16 heads. -/
def sixteenHeads : Layer where
  tpSize := 1
  hiddenSize := 5120
  intermediateSize := 17408
  numHeads := 16
  numKvHeads := 4
  headSize := 256
  attnOutputGate := true
  layerScale := false
  rmsNormEps := 1 / 1000000
  tpSize_pos := Nat.one_pos
  intermediateSize_pos := by decide
  intermediateSize_tiles := Kernel.AttnOutput.qwen27b.intermediateSize_tiles
  numHeads_pos := by decide
  numKvHeads_dvd := by decide
  headSize_mem := by decide

/-- Its routes agree on a single sequence. With two, the rows of the cooperative kernel overlap. -/
theorem sixteenHeads_pathsAgree : sixteenHeads.PathsAgree 1 ∧ ¬ sixteenHeads.PathsAgree 2 := by
  refine ⟨(sixteenHeads.pathsAgree_iff_uniform Nat.one_pos).mpr ?_, fun h => ?_⟩
  · exact ⟨rfl, rfl, rfl, rfl, by decide, .inl rfl, rfl, rfl, rfl⟩
  · have hrows := ((sixteenHeads.pathsAgree_iff_uniform Nat.two_pos).mp h).rows
    exact absurd hrows (by decide)

/-- Qwen3.5-27B on two ranks. -/
def qwen27bTp2 : Layer where
  tpSize := 2
  hiddenSize := 5120
  intermediateSize := 8704
  numHeads := 12
  numKvHeads := 2
  headSize := 256
  attnOutputGate := true
  layerScale := false
  rmsNormEps := 1 / 1000000
  tpSize_pos := Nat.two_pos
  intermediateSize_pos := by decide
  intermediateSize_tiles := by decide
  numHeads_pos := by decide
  numKvHeads_dvd := by decide
  headSize_mem := by decide

def rank0 : Fin qwen27bTp2.tpSize := ⟨0, by decide⟩

def rank1 : Fin qwen27bTp2.tpSize := ⟨1, by decide⟩

def row0 : Fin qwen27bTp2.hiddenSize := ⟨0, by decide⟩

/-- Rank 1 of the two holds the only weight of W_O. After a prefill step the residual of rank 0
is 1/2, after a decode step through the paged kernel, which never sums over the ranks, it is 0. -/
theorem qwen27bTp2_routes_differ :
    (forward exact (probe rank1 ⟨0, by decide⟩) (memory 0) (prefillRoute 1) 0 none).map
        (fun out => out.2 rank0 row0) = some (1 / 2) ∧
      (forward exact (probe rank1 ⟨0, by decide⟩) (memory 0) (pagedRoute 1) 0 none).map
        (fun out => out.2 rank0 row0) = some 0 := by
  let W : Weights qwen27bTp2 ℝ := probe rank1 ⟨0, by decide⟩
  let h := exact.rmsNorm qwen27bTp2.rmsNormEps W.inputLayernorm 0
  constructor
  · have hres := congrArg (Option.map fun res => res rank0 row0)
      (prefillRoute_residual exact W (memory 0) h 0 1)
    have hproj := probe_projected rank1 ⟨0, by decide⟩ h rank0 row0
    have hgate : qwen27bTp2.attnOutputGate = true := rfl
    have hscale : qwen27bTp2.layerScale = false := rfl
    refine hres.trans (congrArg some ?_)
    simpa [applyAttnLayerScale, hgate, hscale] using hproj
  · have hres := congrArg (Option.map fun res => res rank0 row0)
      (pagedRoute_residual exact W (memory 0) h 0 1 rfl)
    have hproj := probe_fusedWo rank1 ⟨0, by decide⟩ (by decide) 0 h rank0 row0
    rw [if_neg (by decide)] at hproj
    refine hres.trans (congrArg some ?_)
    simpa using hproj

end Nvllm.Decoder
