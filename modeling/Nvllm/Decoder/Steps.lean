import Mathlib.Algebra.BigOperators.Fin
import Mathlib.Data.Matrix.Mul
import Mathlib.Data.Rat.Cast.Defs

/-! # A full-attention decoder layer and the kernels it is moved into

`Qwen3_5DecoderLayer` normalises its input, runs attention, gates the result, projects it with
the row-parallel W_O, adds the residual, normalises again and runs the MLP. Which of these steps
are done by modules of the model, which by the paged decode kernel and which by the cooperative
kernel is decided for each forward. This module has the steps themselves and what each kernel
computes from its operands, for one token row and over an arbitrary field.

The values of a tensor-parallel group are families over the ranks. Attention (the QKV projection,
the rotary embedding and the paged attention over the KV cache of the rank) is an arbitrary
function of the normalised row, quantisation of the MLP activations as well. A kernel launch is
taken as the data flow of its CTAs. What the memory holds where nothing was stored, where another
row may have stored, or outside a tensor, is a parameter.
-/

namespace Nvllm.Decoder

open Finset

abbrev Vec (R : Type) (n : ℕ) := Fin n → R

/-! ## The layer -/

/-- Static data of a layer as one rank sees it: head counts and intermediate size are those of
the rank. The intermediate size is a multiple of every `tile_s` that `attach_mlp_fusion` accepts,
hence of 64. -/
structure Layer where
  tpSize : ℕ
  hiddenSize : ℕ
  intermediateSize : ℕ
  numHeads : ℕ
  numKvHeads : ℕ
  headSize : ℕ
  attnOutputGate : Bool
  layerScale : Bool
  rmsNormEps : ℚ
  tpSize_pos : 0 < tpSize
  intermediateSize_pos : 0 < intermediateSize
  intermediateSize_tiles : intermediateSize % 64 = 0
  numHeads_pos : 0 < numHeads
  numKvHeads_dvd : numKvHeads ∣ numHeads
  headSize_mem : headSize = 128 ∨ headSize = 256

namespace Layer

variable (L : Layer)

def qSize : ℕ := L.numHeads * L.headSize

def groupSize : ℕ := L.numHeads / L.numKvHeads

/-- Elements of the query heads of one KV head. -/
def kPerHead : ℕ := L.groupSize * L.headSize

end Layer

/-- One vector for each rank. -/
abbrev Sharded (L : Layer) (R : Type) (n : ℕ) := Fin L.tpSize → Vec R n

/-- Weights and the two abstract functions. `attention k` and `gate k` give, from the normalised
row, the attention output of the heads of rank `k` and their gate. -/
structure Weights (L : Layer) (R : Type) where
  inputLayernorm : Vec R L.hiddenSize
  postAttentionLayernorm : Vec R L.hiddenSize
  attention : Fin L.tpSize → Vec R L.hiddenSize → Vec R L.qSize
  gate : Fin L.tpSize → Vec R L.hiddenSize → Vec R L.qSize
  oProj : Fin L.tpSize → Matrix (Fin L.hiddenSize) (Fin L.qSize) R
  gateProj : Fin L.tpSize → Matrix (Fin L.intermediateSize) (Fin L.hiddenSize) R
  upProj : Fin L.tpSize → Matrix (Fin L.intermediateSize) (Fin L.hiddenSize) R
  downProj : Fin L.tpSize → Matrix (Fin L.hiddenSize) (Fin L.intermediateSize) R
  attnLayerScale : Vec R L.hiddenSize
  ffnLayerScale : Vec R L.hiddenSize
  quantIn : Vec R L.hiddenSize → Vec R L.hiddenSize
  quantMid : Vec R L.intermediateSize → Vec R L.intermediateSize

/-- What a load finds where the forward stored nothing: `gate_buf` (allocated with `torch.empty`)
while no gate is mirrored into it, the attention buffer of a kernel, and addresses past the end of
a tensor. The rows of a batch share the buffer of the cooperative kernel: `coopAttn` is what its
W_O phase finds there once the row has stored its heads, `coopNorm` what its MLP phase finds once
the row has stored its norm. -/
structure Memory (L : Layer) (R : Type) where
  gateBuf : Sharded L R L.qSize
  attnBuf : Sharded L R L.qSize
  stray : ℕ → R
  coopAttn : Fin L.tpSize → Vec R L.qSize → Vec R L.qSize
  coopNorm : Fin L.tpSize → Vec R L.hiddenSize → Vec R L.hiddenSize

/-- The functions beyond the field operations. -/
structure Scalar (R : Type) where
  sigmoid : R → R
  rsqrt : R → R

variable {R : Type} [Field R]

namespace Scalar

variable (S : Scalar R)

def silu (x : R) : R := x * S.sigmoid x

/-- `Qwen3_5RMSNorm`: `x * rsqrt(mean(x * x) + eps) * (1 + weight)`. -/
def rmsNorm {n : ℕ} (eps : R) (weight x : Vec R n) : Vec R n := fun j =>
  x j * S.rsqrt ((∑ i, x i ^ 2) / n + eps) * (1 + weight j)

/-- `sigmoid(gate) * attn_output`. -/
def gated {n : ℕ} (g a : Vec R n) : Vec R n := fun j => a j * S.sigmoid (g j)

end Scalar

/-- Sum over the ranks, the same on each. -/
def allReduce {L : Layer} {n : ℕ} (x : Sharded L R n) : Sharded L R n := fun _ => ∑ k, x k

/-- `x * (scale + 1)`. -/
def scaled {n : ℕ} (scale x : Vec R n) : Vec R n := fun j => x j * (scale j + 1)

section Modules

variable (S : Scalar R) {L : Layer} (W : Weights L R)

/-- The row-parallel output projection with its reduction over the ranks. -/
def oProjModule (a : Sharded L R L.qSize) : Sharded L R L.hiddenSize :=
  allReduce fun k => (W.oProj k).mulVec (a k)

/-- `gate_up_proj`, `act_fn` and `down_proj` on the weights of one rank. -/
def mlpLocal (k : Fin L.tpSize) (x : Vec R L.hiddenSize) : Vec R L.hiddenSize :=
  (W.downProj k).mulVec <| W.quantMid fun i =>
    S.silu ((W.gateProj k).mulVec (W.quantIn x) i) * (W.upProj k).mulVec (W.quantIn x) i

/-- The MLP modules; `down_proj` is row-parallel. -/
def mlpModules (x : Sharded L R L.hiddenSize) : Sharded L R L.hiddenSize :=
  allReduce fun k => mlpLocal S W k (x k)

/-- `Phase_D_MLP_Kernel` on each rank; nothing is exchanged. -/
def mlpKernel (x : Sharded L R L.hiddenSize) : Sharded L R L.hiddenSize := fun k =>
  mlpLocal S W k (x k)

/-- `post_attention_layernorm(hidden_states, residual)`: the normalised sum and the sum. -/
def postNorm (x r : Sharded L R L.hiddenSize) :
    Sharded L R L.hiddenSize × Sharded L R L.hiddenSize :=
  (fun k => S.rmsNorm L.rmsNormEps W.postAttentionLayernorm (x k + r k), fun k => x k + r k)

/-- The gate of the attention output, when the layer has one. -/
def applyGate (h : Vec R L.hiddenSize) (a : Sharded L R L.qSize) : Sharded L R L.qSize := fun k =>
  if L.attnOutputGate then S.gated (W.gate k h) (a k) else a k

def applyAttnLayerScale (x : Sharded L R L.hiddenSize) : Sharded L R L.hiddenSize := fun k =>
  if L.layerScale then scaled W.attnLayerScale (x k) else x k

def applyFfnLayerScale (x : Sharded L R L.hiddenSize) : Sharded L R L.hiddenSize := fun k =>
  if L.layerScale then scaled W.ffnLayerScale (x k) else x k

end Modules

/-! ## Kernels -/

/-- `DECODE_CONFIG.head_dim`. -/
def kernelHeadDim : ℕ := 256

/-- `DECODE_CONFIG.cta_q`. -/
def ctaQ : ℕ := 16

/-- The hidden size for which W_O of the decode kernel is written. -/
def woHiddenDim : ℕ := 5120

/-- `rms_eps` of the cooperative kernel, never overridden. -/
def coopRmsEps : ℚ := 1 / 1000000

/-- Element `i` of a tensor addressed without a bounds check. -/
def peek {n : ℕ} (stray : ℕ → R) (v : Vec R n) (i : ℕ) : R :=
  if h : i < n then v ⟨i, h⟩ else stray i

section Kernels

variable (S : Scalar R) {L : Layer} (W : Weights L R) (m : Memory L R)

/-- What the kernels load as the gate. Both are always given a gate buffer: without
`attn_output_gate` it is `gate_buf`, which nobody wrote, or the address of an empty tensor. -/
def gateOperand (k : Fin L.tpSize) (h : Vec R L.hiddenSize) : Vec R L.qSize :=
  if L.attnOutputGate then W.gate k h else m.gateBuf k

/-- Phase A of the decode kernel. Compiled for head dimension 256, it addresses query and output
of any other head size with the wrong strides. -/
def decodeAttention (k : Fin L.tpSize) (h : Vec R L.hiddenSize) : Vec R L.qSize :=
  if L.headSize = kernelHeadDim then W.attention k h else m.attnBuf k

def numQTiles (L : Layer) : ℕ := max ((L.groupSize + ctaQ - 1) / ctaQ) 1

/-- Phase B of CTA `(bx, kv)` for one output row with weights `w`: the whole group of the KV
head, starting at the first head of the q tile. -/
def woSlot (w a : Vec R L.qSize) (bx kv : ℕ) : R :=
  ∑ k ∈ range (L.groupSize * kernelHeadDim),
    peek m.stray w (kv * (L.groupSize * kernelHeadDim) + k) *
      peek m.stray a ((kv * L.groupSize + bx * ctaQ) * kernelHeadDim + k)

/-- Phase B.5: the slots of all CTAs of the sequence. -/
def woGather (w a : Vec R L.qSize) : R :=
  ∑ bx ∈ range (numQTiles L), ∑ kv ∈ range L.numKvHeads, woSlot m w a bx kv

/-- Fused W_O of the decode kernel on rank `k`. -/
def fusedWo (k : Fin L.tpSize) (h : Vec R L.hiddenSize) : Vec R L.hiddenSize := fun i =>
  woGather m (W.oProj k i) (S.gated (gateOperand W m k h) (decodeAttention W m k h))

/-- **The decode kernel with fused W_O and RMSNorm**: `(rmsnorm_output, residual_output)`. Any
other hidden size than 5120 raises. -/
def pagedFused (h r : Vec R L.hiddenSize) :
    Option (Sharded L R L.hiddenSize × Sharded L R L.hiddenSize) :=
  if L.hiddenSize = woHiddenDim then
    some (postNorm S W (fun k => fusedWo S W m k h) fun _ => r)
  else none

/-- Attention phase of the cooperative kernel: the CTAs `by < 4`, rows `< 16` of the group;
elements of other heads keep what the buffer held. -/
def coopAttention (k : Fin L.tpSize) (h : Vec R L.hiddenSize) : Vec R L.qSize := fun j =>
  let head := (j : ℕ) / L.headSize
  if head / L.groupSize < 4 ∧ head % L.groupSize < 16 then
    S.gated (gateOperand W m k h) (W.attention k h) j
  else m.attnBuf k j

/-- W_O of the cooperative kernel: `wo_split` CTAs for each KV head, each with a slice of the
elements of the head. -/
def coopWo (woSplit : ℕ) (w a : Vec R L.qSize) : R :=
  ∑ bx ∈ range woSplit, ∑ kv ∈ range L.numKvHeads,
    ∑ t ∈ Ico (L.kPerHead * bx / woSplit) (L.kPerHead * (bx + 1) / woSplit),
      peek m.stray w (kv * L.kPerHead + t) * peek m.stray a (kv * L.kPerHead + t)

def coopResidual (woSplit : ℕ) (h r : Vec R L.hiddenSize) : Sharded L R L.hiddenSize := fun k =>
  (fun i => coopWo m woSplit (W.oProj k i) (m.coopAttn k (coopAttention S W m k h))) + r

/-- **The cooperative kernel** up to its MLP phase: `(attn_output, residual_output)` as the MLP
phase finds them. The kernel normalises with its own epsilon. -/
def coopFused (woSplit : ℕ) (h r : Vec R L.hiddenSize) :
    Sharded L R L.hiddenSize × Sharded L R L.hiddenSize :=
  (fun k => m.coopNorm k
      (S.rmsNorm coopRmsEps W.postAttentionLayernorm (coopResidual S W m woSplit h r k)),
    coopResidual S W m woSplit h r)

end Kernels

end Nvllm.Decoder
