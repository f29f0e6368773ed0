import Nvllm.Decoder.Steps
import Nvllm.Kernel.AttnOutput

/-! # The forward of a full-attention layer and its dispatch

`Dispatch` holds what decides the route: environment flags and attach results, which are fixed
for the process, and the batch and launch failures of one forward. `backendForward` is the part
that `CutePagedAttentionImpl.forward` plays, `forward` is `Qwen3_5DecoderLayer.forward`. An
exception that reaches the caller is `none`. Batches have no padding rows. The forward is that of
one row; `Memory.Shares` says what the other rows of the batch may do to it.
-/

namespace Nvllm.Decoder

open Nvllm.Kernel.AttnOutput (Geometry)

/-- `CUTE_PHASE_E_PATH`. -/
inductive PhaseEPath
  | auto
  | coop
  | lite
  deriving DecidableEq, Repr

/-- `_TILE_PRESETS`: `(tile_s, tile_k, slice_ctas)`. -/
def tilePresets : List (ℕ × ℕ × ℕ) :=
  [(256, 640, 8), (128, 640, 16), (64, 640, 32), (256, 1280, 8), (64, 640, 8)]

structure Dispatch where
  /-- Results of `_resolve_fusion_weights` and `_resolve_mlp_weights`. -/
  fusionBound : Bool
  mlpFusionBound : Bool
  /-- `_phase_e_coop_kernel is not None`. -/
  coopAttached : Bool
  /-- `CUTE_PHASE_E_FUSION=1`. -/
  phaseEEnabled : Bool
  forcedPath : PhaseEPath
  /-- `CUTE_PHASE_E_LAYERS` is unset or lists the layer. -/
  layerAllowed : Bool
  /-- `CUTE_PHASE3_DIAG_DISABLE_FW=1`. -/
  diagDisableFw : Bool
  /-- `CUTE_PHASE_E_FALLBACK_RAISE=1`. -/
  fallbackRaise : Bool
  /-- The preset that `CUTE_MLP_TILE` names. -/
  tile : ℕ × ℕ × ℕ
  woSplit : ℕ
  residentCap : ℕ
  fusionMaxTokens : ℕ
  isDecodeOnly : Bool
  numActualTokens : ℕ
  numSeqs : ℕ
  /-- The launch raises. -/
  coopFails : Bool
  liteFails : Bool
  mlpFails : Bool
  tile_mem : tile ∈ tilePresets
  woSplit_mem : woSplit ∈ [1, 2, 4, 8]
  coopAttached_enabled : coopAttached = true → phaseEEnabled = true

namespace Dispatch

theorem tile_default : (64, 640, 8) ∈ tilePresets := by decide

theorem one_mem : 1 ∈ [1, 2, 4, 8] := by decide

variable (d : Dispatch)

/-- `attach_fusion`, `attach_mlp_fusion` and weight resolution succeeded, and a failed launch
chooses another route: the debug flag that makes it an exception of the forward is off. The batch
has `n` rows, a decode batch one for each sequence. -/
structure Serving (n : ℕ) : Prop where
  fusionBound : d.fusionBound = true
  mlpFusionBound : d.mlpFusionBound = true
  fallbackRaise : d.fallbackRaise = false
  tokens : d.numActualTokens = n
  seqs : d.isDecodeOnly = true → d.numSeqs = n

def fitsBuffer : Bool := d.numActualTokens ≤ d.fusionMaxTokens

/-- `_fusion_active`. -/
def useFusion : Bool := d.fusionBound && d.isDecodeOnly && d.fitsBuffer

/-- `_beta_coop_framework_output_bound`. -/
def frameworkOutput : Bool :=
  d.fusionBound && d.mlpFusionBound && d.coopAttached && !d.diagDisableFw

def phaseEActive : Bool :=
  d.phaseEEnabled && d.isDecodeOnly && (d.coopAttached || d.mlpFusionBound) && d.layerAllowed &&
    d.useFusion && d.mlpFusionBound && d.fitsBuffer

def useBetaCoop : Bool :=
  d.phaseEActive && d.coopAttached && decide (64 * d.numSeqs ≤ d.residentCap) &&
    (d.forcedPath = .coop || d.forcedPath = .auto)

def useBetaLite : Bool :=
  d.phaseEActive && !d.useBetaCoop && (d.forcedPath = .lite || d.forcedPath = .auto)

/-- `run_beta_coop_full` raises: the launch fails, or its shape assertion on the gate meets the
empty tensor that the framework-output route passes without `attn_output_gate`. -/
def coopRaises (L : Layer) : Bool := d.coopFails || (d.frameworkOutput && !L.attnOutputGate)

/-- `G` is the cooperative launch of layer `L` for the batch. -/
structure Launches (L : Layer) (G : Geometry) : Prop where
  nat : G.nat = d.numActualTokens
  hiddenSize : G.hiddenSize = L.hiddenSize
  intermediateSize : G.intermediateSize = L.intermediateSize
  numAttnHeads : G.numAttnHeads = L.numHeads
  numKvHeads : G.numKvHeads = L.numKvHeads
  headDim : G.headDim = L.headSize
  tile : (G.tileS, G.tileK, G.sliceCtas) = d.tile
  woSplit : G.woSplit = d.woSplit

end Dispatch

/-- The buffer of the cooperative launch. If the sequences of the launch do not interfere, a row
finds there what it has stored; otherwise it may find anything: what another row stored, what was
there before the launch, or what lies behind the buffer. -/
def Memory.Shares {L : Layer} {R : Type} (m : Memory L R) (d : Dispatch) : Prop :=
  (∀ G, d.Launches L G → G.Isolated) → (∀ k a, m.coopAttn k a = a) ∧ ∀ k x, m.coopNorm k x = x

variable {R : Type} [Field R]

/-- What the attention backend leaves behind. -/
inductive Outcome (L : Layer) (R : Type)
  /-- Attention only. -/
  | raw (attnOutput : Sharded L R L.qSize)
  /-- Gate, W_O, residual and norm are done. -/
  | fused (rmsnormOutput residualOutput : Sharded L R L.hiddenSize)
  /-- The MLP is done as well. -/
  | consumed (rmsnormOutput residualOutput mlpOutput : Sharded L R L.hiddenSize)

section

variable (S : Scalar R) {L : Layer} (W : Weights L R) (m : Memory L R) (d : Dispatch)

/-- Attention without fusion: the decode kernel for a decode batch, else the reference. -/
def pagedRaw (h : Vec R L.hiddenSize) : Sharded L R L.qSize := fun k =>
  if d.isDecodeOnly then decodeAttention W m k h else W.attention k h

/-- Paged kernel, then β-lite: the MLP kernel on what the paged kernel wrote, if `lite`. -/
def pagedThenLite (lite : Bool) (h r : Vec R L.hiddenSize) : Option (Outcome L R) := do
  let (n, res) ← pagedFused S W m h r
  if lite && !d.liteFails then return .consumed n res (mlpKernel S W n)
  return .fused n res

/-- **`CutePagedAttentionImpl.forward`** up to the writer-invariant fallback. A failed β-coop
launch is repeated with the paged kernel and β-lite. -/
def backendForward (h r : Vec R L.hiddenSize) : Option (Outcome L R) :=
  if d.useFusion then
    if d.useBetaCoop then
      if d.coopRaises L then
        if d.fallbackRaise then none else pagedThenLite S W m d true h r
      else
        let (n, res) := coopFused S W m d.woSplit h r
        some (.consumed n res (mlpKernel S W n))
    else pagedThenLite S W m d d.useBetaLite h r
  else some (.raw (pagedRaw W m d h))

/-- `cute_mlp_forward`: `x` is the argument of the op, `src` what the kernel reads. -/
def cuteMlpForward (src x : Sharded L R L.hiddenSize) : Sharded L R L.hiddenSize :=
  if d.mlpFusionBound && d.fitsBuffer && !d.mlpFails then mlpKernel S W src else mlpModules S W x

/-- Fallback of the framework-output route: modules do what no kernel did. -/
def frameworkFinish (h r : Vec R L.hiddenSize) :
    Outcome L R → Sharded L R L.hiddenSize × Sharded L R L.hiddenSize
  | .raw a =>
    let (n, res) := postNorm S W (oProjModule W (applyGate S W h a)) fun _ => r
    (mlpModules S W n, res)
  | .fused n res => (mlpModules S W n, res)
  | .consumed _ res mlp => (mlp, res)

/-- The rest of the layer on the legacy route. -/
def legacyFinish (h r : Vec R L.hiddenSize) :
    Outcome L R → Sharded L R L.hiddenSize × Sharded L R L.hiddenSize
  | .raw a =>
    let o := applyAttnLayerScale W (oProjModule W (applyGate S W h a))
    let (n, res) := postNorm S W o fun _ => r
    (applyFfnLayerScale W (cuteMlpForward S W d n n), res)
  | .fused n res =>
    let x := applyAttnLayerScale W n
    (applyFfnLayerScale W (cuteMlpForward S W d n x), res)
  | .consumed _ res mlp => (applyFfnLayerScale W mlp, res)

/-- The part of the forward after `input_layernorm`. -/
def afterInputNorm (h r : Vec R L.hiddenSize) :
    Option (Sharded L R L.hiddenSize × Sharded L R L.hiddenSize) := do
  let out ← backendForward S W m d h r
  if d.frameworkOutput then return frameworkFinish S W h r out
  return legacyFinish S W d h r out

/-- **`Qwen3_5DecoderLayer.forward`** on one row: `(hidden_states, residual)` on each rank. -/
def forward (hidden : Vec R L.hiddenSize) (residual : Option (Vec R L.hiddenSize)) :
    Option (Sharded L R L.hiddenSize × Sharded L R L.hiddenSize) :=
  -- the first layer has no residual yet
  let r := match residual with
    | none => hidden
    | some r => hidden + r
  afterInputNorm S W m d (S.rmsNorm L.rmsNormEps W.inputLayernorm r) r

end

end Nvllm.Decoder
