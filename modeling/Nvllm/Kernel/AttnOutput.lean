import Mathlib.Data.Finset.Prod
import Mathlib.Tactic.Ring
import Nvllm.Lib.Coop

/-! # The buffer `attn_output` of the cooperative phase-E launch

`_kernel_phase_0_to_4` uses the buffer `attn_output` of shape `(nat, hidden_size)` three times:
the attention CTAs store their heads to it with the row stride `num_q_heads * head_dim`, the W_O
CTAs load them back with the same stride, and the elected CTA stores the normalised row, which
all CTAs load in the MLP phase, with the row stride `hidden_size`. This module writes down these
accesses as one program per CTA, with the counters that order the CTAs of one sequence.

Element indices are natural numbers; the kernel's 32-bit index arithmetic is exact for a launch that
`IndicesFit`. The accesses of the threads of one CTA are put in one order. Between two block
barriers they are to different elements, and the arrivals of thread 0 on the pre-W_O counter and the
grid barrier follow a block barrier. Its arrival on the phase-1 counter follows a fence only: here
it is taken to come after the W_O loads of the other threads of its CTA, too (what a CTA with
several threads can do at this point is the subject of `Kernel.LastCtaRace`).
-/

namespace Nvllm.Kernel.AttnOutput

open Nvllm.Coop

/-- Parameters of a launch that `PhaseE_Beta_Kernel.__init__` and the shape assertions of
`run_beta_coop_full` accept; `num_kv_heads` is at least 1 in every caller. -/
structure Geometry where
  nat : ℕ
  hiddenSize : ℕ
  intermediateSize : ℕ
  numAttnHeads : ℕ
  numKvHeads : ℕ
  headDim : ℕ
  tileS : ℕ
  tileK : ℕ
  sliceCtas : ℕ
  woSplit : ℕ
  nat_pos : 1 ≤ nat
  numKvHeads_pos : 1 ≤ numKvHeads
  tileS_pos : 0 < tileS
  tileK_pos : 0 < tileK
  hiddenSize_groups : hiddenSize % 1024 = 0
  intermediateSize_tiles : intermediateSize % tileS = 0
  hiddenSize_tiles : hiddenSize % tileK = 0
  tileS_blocks : tileS % 16 = 0
  woSplit_mem : woSplit ∈ [1, 2, 4, 8]
  woSplit_le : woSplit ≤ sliceCtas
  tileK_threads : if 128 ≤ tileK then tileK % 128 = 0 else 128 % tileK = 0

/-- Two sequences with the dimensions of Qwen3.5-27B: 24 heads of 256 give attention rows of
6144 elements in a buffer with rows of 5120. -/
def qwen27b : Geometry where
  nat := 2
  hiddenSize := 5120
  intermediateSize := 17408
  numAttnHeads := 24
  numKvHeads := 4
  headDim := 256
  tileS := 64
  tileK := 640
  sliceCtas := 8
  woSplit := 1
  nat_pos := by decide
  numKvHeads_pos := by decide
  tileS_pos := by decide
  tileK_pos := by decide
  hiddenSize_groups := by decide
  intermediateSize_tiles := by decide
  hiddenSize_tiles := by decide
  tileS_blocks := by decide
  woSplit_mem := by decide
  woSplit_le := by decide
  tileK_threads := by decide

/-- What an element of the buffer holds: what was there at launch, column `col` of attention
head `head`, or element `j` of the normalised row. -/
inductive Cell
  | launch
  | attn (seq head col : ℕ)
  | norm (seq j : ℕ)
  deriving DecidableEq, Repr

/-- The counters, one of each for a sequence. -/
inductive Counter
  | preWo (seq : ℕ)
  | phase1 (seq : ℕ)
  | gridBarrier (seq : ℕ)
  deriving DecidableEq, Repr

/-- `(bx, by, bz)`; `bz` is the sequence. -/
abbrev Cta := ℕ × ℕ × ℕ

namespace Geometry

variable (G : Geometry)

def numKTiles : ℕ := max (G.hiddenSize / G.tileK) 1

def groupSize : ℕ := G.numAttnHeads / G.numKvHeads

/-- Elements of one KV head: `group_size * head_dim`. -/
def kPerHead : ℕ := G.groupSize * G.headDim

/-- Row stride of the attention stores and the W_O loads. -/
def attnStride : ℕ := G.numAttnHeads * G.headDim

/-- The bound that keeps 32-bit element indices exact (`index_lt`). -/
def IndicesFit : Prop :=
  G.nat * G.attnStride + 4 * G.kPerHead ≤ 2 ^ 31 ∧ G.nat * G.hiddenSize ≤ 2 ^ 31

def grid : Finset Cta :=
  Finset.range G.sliceCtas ×ˢ Finset.range G.numKTiles ×ˢ Finset.range G.nat

/-- Element of column `col` of head `head` of a sequence. -/
def attnIdx (seq head col : ℕ) : ℕ := seq * G.attnStride + head * G.headDim + col

/-- Phase 1, attention: gated to `bx == 0` and the literal `by < 4`; 16 rows of the q tile, of
which those below the group size are stored, and 16 columns for each MMA step. -/
def attnStores (c : Cta) : List (Op Counter Cell) :=
  if c.1 = 0 ∧ c.2.1 < 4 then
    (List.range (G.headDim / 16)).flatMap fun md =>
      (List.range 16).flatMap fun row =>
        if row < G.groupSize then
          (List.range 16).map fun col =>
            let head := c.2.1 * G.groupSize + row
            .store (G.attnIdx c.2.2 head (md * 16 + col)) (.attn c.2.2 head (md * 16 + col))
        else []
  else []

/-- The arrival of an attention CTA on the pre-W_O counter. -/
def attnArrive (c : Cta) : List (Op Counter Cell) :=
  if c.1 = 0 ∧ c.2.1 < 4 then [.arrive (.preWo c.2.2)] else []

/-- The W_O CTAs with `bx > 0` wait for `num_kv_heads` arrivals. -/
def preWoWait (c : Cta) : List (Op Counter Cell) :=
  if 0 < c.1 ∧ c.1 < G.woSplit ∧ c.2.1 < G.numKvHeads then
    [.await (.preWo c.2.2) G.numKvHeads]
  else []

def kStartInHead (bx : ℕ) : ℕ := G.kPerHead * bx / G.woSplit

def kEndInHead (bx : ℕ) : ℕ := G.kPerHead * (bx + 1) / G.woSplit

/-- W_O: for each group of 8 output rows the CTA goes through its slice of one KV head. -/
def woLoads (c : Cta) : List (Op Counter Cell) :=
  if c.1 < G.woSplit ∧ c.2.1 < G.numKvHeads then
    (List.range (G.hiddenSize / 128 / 8)).flatMap fun _ =>
      (List.range (G.kEndInHead c.1 - G.kStartInHead c.1)).map fun k =>
        .load (c.2.2 * G.attnStride + c.2.1 * G.kPerHead + (G.kStartInHead c.1 + k))
  else []

/-- Phase C of the elected CTA, with the row stride `hidden_size`. -/
def normStores (seq : ℕ) : List (ℕ × Cell) :=
  (List.range 128).flatMap fun tid =>
    (List.range (G.hiddenSize / 128 / 8)).flatMap fun grp =>
      (List.range 8).map fun oi =>
        let j := tid * (G.hiddenSize / 128) + (grp * 8 + oi)
        (seq * G.hiddenSize + j, .norm seq j)

def woElect (c : Cta) : List (Op Counter Cell) :=
  if c.1 < G.woSplit ∧ c.2.1 < G.numKvHeads then
    [.elect (.phase1 c.2.2) (G.numKvHeads * G.woSplit) (G.normStores c.2.2)]
  else []

/-- The barrier of all CTAs of the sequence. -/
def gridWait (c : Cta) : List (Op Counter Cell) :=
  [.arrive (.gridBarrier c.2.2), .await (.gridBarrier c.2.2) (G.sliceCtas * G.numKTiles)]

/-- Phase 3: every CTA loads the whole row of its sequence. -/
def mlpLoads (c : Cta) : List (Op Counter Cell) :=
  (List.range (G.hiddenSize / 128)).flatMap fun i =>
    (List.range 128).map fun tid => .load (c.2.2 * G.hiddenSize + (i * 128 + tid))

/-- Accesses and signals of a CTA up to the end of its W_O loads. -/
def woPhase (c : Cta) : List (Op Counter Cell) :=
  G.attnStores c ++ attnArrive c ++ G.preWoWait c ++ G.woLoads c

/-- **The program of a CTA.** -/
def ctaProgram (c : Cta) : List (Op Counter Cell) :=
  G.woPhase c ++ G.woElect c ++ G.gridWait c ++ G.mlpLoads c

def launch : Launch Cta Counter Cell where
  grid := G.grid
  prog := G.ctaProgram
  mem := fun _ => .launch

/-- Elements a CTA may store to, those it would store as the elected CTA included. -/
def Writes (c : Cta) (x : ℕ) : Prop :=
  (∃ v, .store x v ∈ G.ctaProgram c) ∨
    ∃ k n body v, .elect k n body ∈ G.ctaProgram c ∧ (x, v) ∈ body

def Reads (c : Cta) (x : ℕ) : Prop := .load x ∈ G.ctaProgram c

/-- **Sequences do not interfere.** No CTA of one sequence stores to an element that a CTA of
another one accesses; every index is inside the buffer; the W_O phase of a sequence loads only
elements that its own attention phase stores, and in every interleaving each such load finds what
the attention phase of the sequence stored. -/
structure Isolated : Prop where
  disjoint : ∀ c ∈ G.grid, ∀ c' ∈ G.grid, c.2.2 ≠ c'.2.2 → ∀ x, G.Writes c' x →
    ¬ G.Reads c x ∧ ¬ G.Writes c x
  inBounds : ∀ c ∈ G.grid, ∀ x, G.Reads c x ∨ G.Writes c x → x < G.nat * G.hiddenSize
  produced : ∀ c ∈ G.grid, ∀ x, .load x ∈ G.woLoads c →
    ∃ c' ∈ G.grid, c'.2.2 = c.2.2 ∧ ∃ v, .store x v ∈ G.attnStores c'
  loads : ∀ s, G.launch.Reached s → ∀ c x, G.launch.AtOp s c (.load x) →
    s.pc c < (G.woPhase c).length →
    ∃ head col, col < G.headDim ∧ x = G.attnIdx c.2.2 head col ∧ s.mem x = .attn c.2.2 head col

end Geometry

end Nvllm.Kernel.AttnOutput
