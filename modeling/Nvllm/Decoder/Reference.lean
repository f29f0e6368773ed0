import Nvllm.Decoder.Forward
import Nvllm.Kernel.AttnIsolation
import Nvllm.Lib.SlicedSum

/-! # Layers on which every route computes the reference

`reference` is the layer as the model code states it, with all steps done by modules. The legacy
route without any kernel computes it for every layer (`forward_unfused`). For a `Uniform` layer
each kernel computes the steps it replaces, also in a batch whose rows share the buffer of the
cooperative kernel, and so does the whole forward on every route (`Uniform.forward_eq`).
-/

namespace Nvllm.Decoder

open Finset Nvllm.SlicedSum
open Nvllm.Kernel.AttnOutput (Geometry)

variable {R : Type} [Field R]

/-! ## The reference -/

section

variable (S : Scalar R) {L : Layer} (W : Weights L R)

/-- Output projection of the gated attention. -/
def projected (h : Vec R L.hiddenSize) : Sharded L R L.hiddenSize :=
  oProjModule W (applyGate S W h fun k => W.attention k h)

def reference (h r : Vec R L.hiddenSize) : Sharded L R L.hiddenSize × Sharded L R L.hiddenSize :=
  let (n, res) := postNorm S W (applyAttnLayerScale W (projected S W h)) fun _ => r
  (applyFfnLayerScale W (mlpModules S W n), res)

/-- No kernel takes part: a batch with a prefill that does not fit the fusion buffers. -/
theorem forward_unfused (m : Memory L R) {d : Dispatch} (h r : Vec R L.hiddenSize)
    (hdec : d.isDecodeOnly = false) (hfits : d.fitsBuffer = false)
    (hfw : d.frameworkOutput = false) : afterInputNorm S W m d h r = some (reference S W h r) := by
  have hraw : pagedRaw W m d h = fun k => W.attention k h := by
    funext k
    simp [pagedRaw, hdec]
  simp [afterInputNorm, backendForward, Dispatch.useFusion, hdec, hfits, hfw, legacyFinish,
    hraw, cuteMlpForward, reference, projected]

end

/-! ## What the kernels compute -/

section

variable {L : Layer}

theorem Layer.numKvHeads_mul_groupSize (L : Layer) : L.numKvHeads * L.groupSize = L.numHeads :=
  Nat.mul_div_cancel' L.numKvHeads_dvd

theorem Layer.numKvHeads_mul_kPerHead (L : Layer) : L.numKvHeads * L.kPerHead = L.qSize := by
  unfold Layer.kPerHead Layer.qSize
  rw [← Nat.mul_assoc, L.numKvHeads_mul_groupSize]

theorem Layer.groupSize_pos (L : Layer) : 0 < L.groupSize :=
  Nat.pos_of_mul_pos_left (L.numKvHeads_mul_groupSize ▸ L.numHeads_pos)

theorem Layer.headSize_pos (L : Layer) : 0 < L.headSize := by
  rcases L.headSize_mem with h | h <;> omega

omit [Field R] in
theorem peek_of_lt {n : ℕ} (stray : ℕ → R) (v : Vec R n) (i : Fin n) : peek stray v i = v i := by
  simp [peek]

/-- A dot product addressed element by element. -/
theorem sum_peek {n : ℕ} (stray : ℕ → R) (w a : Vec R n) :
    ∑ i ∈ range n, peek stray w i * peek stray a i = w ⬝ᵥ a := by
  rw [Finset.sum_range]
  simp [peek_of_lt, dotProduct]

theorem woSplit_pos {ws : ℕ} (hws : ws ∈ [1, 2, 4, 8]) : 0 < ws ∧ ws ≤ 8 := by
  simp only [List.mem_cons, List.not_mem_nil, or_false] at hws
  omega

/-- The slices of the cooperative kernel make up the whole projection. -/
theorem coopWo_eq (m : Memory L R) {ws : ℕ} (hws : 0 < ws) (w a : Vec R L.qSize) :
    coopWo m ws w a = w ⬝ᵥ a := by
  unfold coopWo
  rw [Finset.sum_comm]
  have hslices : ∀ kv, ∑ bx ∈ range ws,
      ∑ t ∈ Ico (L.kPerHead * bx / ws) (L.kPerHead * (bx + 1) / ws),
        peek m.stray w (kv * L.kPerHead + t) * peek m.stray a (kv * L.kPerHead + t) =
      ∑ t ∈ range L.kPerHead,
        peek m.stray w (kv * L.kPerHead + t) * peek m.stray a (kv * L.kPerHead + t) := by
    intro kv
    have h := sum_slices (monotone_mul_div L.kPerHead ws) ws fun t =>
      peek m.stray w (kv * L.kPerHead + t) * peek m.stray a (kv * L.kPerHead + t)
    simpa [Nat.mul_div_cancel _ hws] using h
  simp only [hslices]
  rw [sum_blocks L.numKvHeads L.kPerHead fun i => peek m.stray w i * peek m.stray a i,
    L.numKvHeads_mul_kPerHead, sum_peek]

theorem numQTiles_eq_one (hg : L.groupSize ≤ 16) : numQTiles L = 1 := by
  unfold numQTiles ctaQ
  omega

/-- With one q tile the slots of the decode kernel are consecutive blocks of the row. -/
theorem woGather_eq_sum (m : Memory L R) (hg : L.groupSize ≤ 16) (w a : Vec R L.qSize) :
    woGather m w a =
      ∑ i ∈ range (L.numHeads * kernelHeadDim), peek m.stray w i * peek m.stray a i := by
  unfold woGather
  rw [numQTiles_eq_one hg, ← L.numKvHeads_mul_groupSize, Nat.mul_assoc,
    ← sum_blocks L.numKvHeads (L.groupSize * kernelHeadDim)]
  simp [woSlot, Nat.mul_assoc]

theorem woGather_eq (m : Memory L R) (hg : L.groupSize ≤ 16) (hh : L.headSize = kernelHeadDim)
    (w a : Vec R L.qSize) : woGather m w a = w ⬝ᵥ a := by
  rw [woGather_eq_sum m hg, ← hh]
  exact sum_peek m.stray w a

/-- All heads are among those that the attention CTAs of the cooperative kernel store. -/
theorem coopAttention_eq (S : Scalar R) (W : Weights L R) (m : Memory L R) (hg : L.groupSize ≤ 16)
    (hkv : L.numKvHeads ≤ 4) (k : Fin L.tpSize) (h : Vec R L.hiddenSize) :
    coopAttention S W m k h = S.gated (gateOperand W m k h) (W.attention k h) := by
  funext j
  have hhead : (j : ℕ) / L.headSize < L.numKvHeads * L.groupSize := by
    rw [Nat.div_lt_iff_lt_mul L.headSize_pos, L.numKvHeads_mul_groupSize]
    exact j.isLt
  have hkvj : (j : ℕ) / L.headSize / L.groupSize < 4 :=
    (Nat.div_lt_of_lt_mul (Nat.mul_comm _ _ ▸ hhead)).trans_le hkv
  have hrow : (j : ℕ) / L.headSize % L.groupSize < 16 :=
    (Nat.mod_lt _ L.groupSize_pos).trans_le hg
  simp [coopAttention, hkvj, hrow]

end

/-! ## Uniform layers -/

/-- One rank, the dimensions the kernels are written for, a gate, no layer scale, and the epsilon
of the cooperative kernel. The heads of a row fit a row of the cooperative kernel's buffer, and in
a batch of more than one row they fill it. -/
structure Layer.Uniform (L : Layer) (n : ℕ) : Prop where
  tpSize : L.tpSize = 1
  hiddenSize : L.hiddenSize = 5120
  headSize : L.headSize = 256
  numKvHeads : L.numKvHeads = 4
  numHeads : L.numHeads ≤ 20
  rows : n = 1 ∨ L.numHeads = 20
  gate : L.attnOutputGate = true
  noScale : L.layerScale = false
  eps : L.rmsNormEps = 1 / 1000000

namespace Layer.Uniform

variable {L : Layer} {n : ℕ} (hL : L.Uniform n) (S : Scalar R) (W : Weights L R) (m : Memory L R)
include hL

theorem groupSize : L.groupSize ≤ 16 := by
  have := hL.numHeads
  rw [Layer.groupSize, hL.numKvHeads]
  omega

/-- **The rows of a uniform layer do not interfere**: the attention rows of the cooperative launch
are the rows of the buffer. -/
theorem isolated {d : Dispatch} {G : Geometry} (hd : d.Serving n) (hG : d.Launches L G) :
    G.Isolated := by
  have hkv : G.numKvHeads = 4 := hG.numKvHeads.trans hL.numKvHeads
  have hhead : G.headDim = 256 := hG.headDim.trans hL.headSize
  have hhidden : G.hiddenSize = 5120 := hG.hiddenSize.trans hL.hiddenSize
  have hprod : G.producers ≤ 4 := Nat.min_le_left _ _
  have hgroup : G.groupSize = L.numHeads / 4 := by
    rw [Geometry.groupSize, hG.numAttnHeads, hkv]
  have hle := hL.numHeads
  have hrow : G.producers * G.kPerHead ≤ G.attnStride := by
    refine (Nat.mul_le_mul_right _ hprod).trans ?_
    rw [← hkv]
    exact G.kPerHead_mul_le
  have hstride : G.attnStride = L.numHeads * 256 := by
    rw [Geometry.attnStride, hG.numAttnHeads, hhead]
  refine Geometry.Safe.isolated (.inr (.inr ⟨?_, ?_, ?_, ?_, ?_, ?_, .inr (hkv ▸ hprod)⟩))
  · omega
  · rw [Geometry.consumers, hkv]
    exact le_rfl
  · omega
  · rw [hhead]
  · rcases hL.rows with hn | hheads
    · exact .inl (hG.nat.trans (hd.tokens.trans hn))
    · right
      omega
  · have hfits : G.attnStride ≤ G.hiddenSize := by omega
    have hpos := G.nat_pos
    calc (G.nat - 1) * G.attnStride + G.producers * G.kPerHead
        ≤ (G.nat - 1) * G.attnStride + 1 * G.attnStride := by omega
      _ = G.nat * G.attnStride := by rw [← Nat.add_mul, Nat.sub_add_cancel hpos]
      _ ≤ G.nat * G.hiddenSize := Nat.mul_le_mul_left _ hfits

theorem allReduce_eq {n : ℕ} (x : Sharded L R n) : allReduce x = x := by
  obtain ⟨tp, _⟩ := L
  obtain rfl : tp = 1 := hL.tpSize
  funext k
  simp [allReduce, Subsingleton.elim k 0]

theorem mlpModules_eq (x : Sharded L R L.hiddenSize) : mlpModules S W x = mlpKernel S W x :=
  hL.allReduce_eq _

theorem applyAttnLayerScale_eq (x : Sharded L R L.hiddenSize) : applyAttnLayerScale W x = x := by
  funext k
  simp [applyAttnLayerScale, hL.noScale]

theorem applyFfnLayerScale_eq (x : Sharded L R L.hiddenSize) : applyFfnLayerScale W x = x := by
  funext k
  simp [applyFfnLayerScale, hL.noScale]

theorem projected_eq (h : Vec R L.hiddenSize) (k : Fin L.tpSize) :
    projected S W h k = (W.oProj k).mulVec (S.gated (W.gate k h) (W.attention k h)) := by
  simp [projected, oProjModule, hL.allReduce_eq, applyGate, hL.gate]

theorem fusedWo_eq (h : Vec R L.hiddenSize) (k : Fin L.tpSize) :
    fusedWo S W m k h = projected S W h k := by
  rw [hL.projected_eq]
  funext i
  simp [fusedWo, woGather_eq m hL.groupSize hL.headSize, gateOperand, hL.gate, decodeAttention,
    hL.headSize, kernelHeadDim, Matrix.mulVec]

theorem reference_eq (h r : Vec R L.hiddenSize) : reference S W h r =
    (mlpKernel S W (postNorm S W (projected S W h) fun _ => r).1,
      (postNorm S W (projected S W h) fun _ => r).2) := by
  simp [reference, hL.applyAttnLayerScale_eq, hL.applyFfnLayerScale_eq, hL.mlpModules_eq]

theorem pagedFused_eq (h r : Vec R L.hiddenSize) :
    pagedFused S W m h r = some (postNorm S W (projected S W h) fun _ => r) := by
  simp [pagedFused, woHiddenDim, hL.hiddenSize, hL.fusedWo_eq]

theorem coopFused_eq {d : Dispatch} (hd : d.Serving n) (hm : m.Shares d)
    (h r : Vec R L.hiddenSize) :
    coopFused S W m d.woSplit h r = postNorm S W (projected S W h) fun _ => r := by
  obtain ⟨hattn, hnorm⟩ := hm fun G hG => hL.isolated hd hG
  have hres : coopResidual S W m d.woSplit h r = fun k => projected S W h k + r := by
    funext k i
    simp [coopResidual, hattn, coopWo_eq m (woSplit_pos d.woSplit_mem).1,
      coopAttention_eq S W m hL.groupSize hL.numKvHeads.le, gateOperand, hL.gate, hL.projected_eq,
      Matrix.mulVec]
  simp [coopFused, postNorm, hnorm, hres, coopRmsEps, hL.eps]

end Layer.Uniform

/-- An outcome whose buffers hold what the modules would have computed. -/
def Outcome.Correct (S : Scalar R) {L : Layer} (W : Weights L R) (h r : Vec R L.hiddenSize) :
    Outcome L R → Prop
  | .raw a => a = fun k => W.attention k h
  | .fused n res => (n, res) = postNorm S W (projected S W h) fun _ => r
  | .consumed n res mlp =>
    (n, res) = (postNorm S W (projected S W h) fun _ => r) ∧ mlp = mlpKernel S W n

namespace Layer.Uniform

variable {L : Layer} {n : ℕ} (hL : L.Uniform n) (S : Scalar R) (W : Weights L R) (m : Memory L R)
  {d : Dispatch}
include hL

theorem pagedThenLite_correct (lite : Bool) (h r : Vec R L.hiddenSize) :
    ∃ out, pagedThenLite S W m d lite h r = some out ∧ out.Correct S W h r := by
  let p := postNorm S W (projected S W h) fun _ => r
  by_cases hl : (lite && !d.liteFails) = true
  · refine ⟨.consumed p.1 p.2 (mlpKernel S W p.1), ?_, rfl, rfl⟩
    simp [pagedThenLite, hL.pagedFused_eq, hl, p]
  · refine ⟨.fused p.1 p.2, ?_, rfl⟩
    simp [pagedThenLite, hL.pagedFused_eq, hl, p]

theorem backendForward_correct (hd : d.Serving n) (hm : m.Shares d)
    (h r : Vec R L.hiddenSize) :
    ∃ out, backendForward S W m d h r = some out ∧ out.Correct S W h r := by
  unfold backendForward
  by_cases hf : d.useFusion = true
  · rw [if_pos hf]
    by_cases hc : d.useBetaCoop = true
    · rw [if_pos hc]
      by_cases hr : d.coopRaises L = true
      · -- the failed launch is repeated with the paged kernel
        rw [if_pos hr, if_neg (by simp [hd.fallbackRaise])]
        exact hL.pagedThenLite_correct S W m true h r
      · rw [if_neg hr]
        exact ⟨_, rfl, hL.coopFused_eq S W m hd hm h r, rfl⟩
    · rw [if_neg hc]
      exact hL.pagedThenLite_correct S W m _ h r
  · rw [if_neg hf]
    refine ⟨_, rfl, ?_⟩
    funext k
    simp [pagedRaw, decodeAttention, hL.headSize, kernelHeadDim]

theorem cuteMlpForward_eq (x : Sharded L R L.hiddenSize) :
    cuteMlpForward S W d x x = mlpKernel S W x := by
  unfold cuteMlpForward
  rw [hL.mlpModules_eq, ite_self]

theorem frameworkFinish_eq {h r : Vec R L.hiddenSize} {out : Outcome L R}
    (hout : out.Correct S W h r) : frameworkFinish S W h r out = reference S W h r := by
  rw [hL.reference_eq]
  cases out with
  | raw a =>
    subst hout
    simp [frameworkFinish, hL.mlpModules_eq, projected]
  | fused n res =>
    rw [← show (n, res) = _ from hout]
    simp [frameworkFinish, hL.mlpModules_eq]
  | consumed n res mlp =>
    rw [← hout.1, hout.2]
    rfl

theorem legacyFinish_eq {h r : Vec R L.hiddenSize} {out : Outcome L R}
    (hout : out.Correct S W h r) : legacyFinish S W d h r out = reference S W h r := by
  rw [hL.reference_eq]
  cases out with
  | raw a =>
    subst hout
    simp [legacyFinish, hL.applyAttnLayerScale_eq, hL.applyFfnLayerScale_eq,
      hL.cuteMlpForward_eq, projected]
  | fused n res =>
    rw [← show (n, res) = _ from hout]
    simp [legacyFinish, hL.applyAttnLayerScale_eq, hL.applyFfnLayerScale_eq,
      hL.cuteMlpForward_eq]
  | consumed n res mlp =>
    rw [← hout.1, hout.2]
    simp [legacyFinish, hL.applyFfnLayerScale_eq]

/-- **Every route computes the reference.** -/
theorem forward_eq (hd : d.Serving n) (hm : m.Shares d)
    (h r : Vec R L.hiddenSize) : afterInputNorm S W m d h r = some (reference S W h r) := by
  obtain ⟨out, hout, hcorrect⟩ := hL.backendForward_correct S W m hd hm h r
  unfold afterInputNorm
  rw [hout]
  by_cases hfw : d.frameworkOutput = true
  · simp [hfw, hL.frameworkFinish_eq S W hcorrect]
  · simp [hfw, hL.legacyFinish_eq S W hcorrect]

end Layer.Uniform

end Nvllm.Decoder
