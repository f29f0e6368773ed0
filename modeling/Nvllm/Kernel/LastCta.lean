import Mathlib.Algebra.BigOperators.Intervals
import Mathlib.Algebra.Order.BigOperators.Group.Finset
import Nvllm.Lib.Run

/-! # Last-CTA election of the fused W_O kernels

The fused W_O phase of the paged decode kernel (`kernel.py`, Phase B and B.5) and Phase 1 of the
phase-E kernels (`phase_e_kernel.py`) split the output projection of one sequence over several
CTAs. Each CTA stores its sums into its own slot of `wo_output`, announces itself with one atomic
add on an arrival counter, and the CTA that finds the counter at `total - 1` adds up all slots
into slot 0.

The model is one sequence of one launch: the threads of all its CTAs take their steps in any
order. A plain store goes into a buffer of the thread and becomes visible at any later time, in
any order with respect to the thread's other stores; `_threadfence` waits until the buffer of
the calling thread is empty; `sync_threads` waits for the threads of the CTA; the atomic add on
the counter is one indivisible step.
-/

namespace Nvllm.Kernel.LastCta

/-! ## The program of a thread -/

/-- Where the block barrier stands when thread 0 announces its CTA. The W_O kernels go from
`_threadfence()` to the atomic add directly; Phase 4 of the MLP kernel (`mlp_kernel.py`) has a
`sync_threads()` in between. -/
inductive ArrivalOrder
  | fenceArrive
  | fenceBarrierArrive
  deriving DecidableEq, Repr

/-- Program counter of a thread. `store r`: the rows below `r` of the thread are stored.
`gather r k`: the sums of the rows below `r` are stored to slot 0 and the slots below `k` of row
`r` are added up. `done b`: finished, `b` tells whether the CTA took the gather branch. -/
inductive Pc
  | store (r : ℕ)
  | fence
  | preSync
  | arrive
  | publish (oldCount : ℕ)
  | sync
  | readFlag
  | gather (r k : ℕ)
  | gatherFence
  | gatherSync
  | done (last : Bool)
  deriving DecidableEq, Repr

/-- Position of a program counter in the program text; barriers compare these. -/
def Pc.stage : Pc → ℕ
  | .store _ => 0
  | .fence => 1
  | .preSync => 2
  | .arrive => 3
  | .publish _ => 4
  | .sync => 5
  | .readFlag => 6
  | .gather _ _ => 7
  | .gatherFence => 8
  | .gatherSync => 9
  | .done _ => 10

/-- The thread is past its read of `sync_md` and its CTA was the last one. -/
def Pc.isLastCta : Pc → Bool
  | .gather _ _ => true
  | .gatherFence => true
  | .gatherSync => true
  | .done b => b
  | _ => false

/-- A slot and a row of `wo_output` (of the sequence). -/
abbrev Loc := ℕ × ℕ

/-- One sequence of a launch. `ctas` is `total_ctas_per_seq` (`total_wo_slots` in phase E),
`rows` the rows per thread (`hidden_size = threads * rows`), `gemv c j` the sum that CTA `c`
accumulates for row `j`, `woOutput` and `syncMd` what the buffer and the shared words hold when
the launch starts. -/
structure Launch (V : Type*) where
  order : ArrivalOrder
  ctas : ℕ
  threads : ℕ
  rows : ℕ
  gemv : ℕ → ℕ → V
  woOutput : ℕ → ℕ → V
  syncMd : ℕ → Bool

/-- A thread: program counter, stores that are not visible yet (oldest first), `gather_acc`. -/
structure Thread (V : Type*) where
  pc : Pc
  buf : List (Loc × V)
  acc : V

/-- State of a launch. `stored c j` records that a store of this launch to row `j` of slot `c`
is visible; no thread reads it. -/
structure State (V : Type*) where
  mem : ℕ → ℕ → V
  stored : ℕ → ℕ → Bool
  count : ℕ
  flag : ℕ → Bool
  thr : ℕ → ℕ → Thread V

variable {V : Type*}

/-- Row `r` of thread `tid`: `my_start_c + r`. -/
def Launch.row (L : Launch V) (tid r : ℕ) : ℕ := tid * L.rows + r

def State.setThr (s : State V) (c t : ℕ) (th : Thread V) : State V :=
  { s with thr := fun c' t' => if c' = c ∧ t' = t then th else s.thr c' t' }

/-- A store becomes visible. -/
def State.write (s : State V) (l : Loc) (v : V) : State V :=
  { s with
    mem := fun c j => if c = l.1 ∧ j = l.2 then v else s.mem c j
    stored := fun c j => if c = l.1 ∧ j = l.2 then true else s.stored c j }

/-- The oldest store to `l` in a buffer, and the buffer without it. -/
def takePending (l : Loc) : List (Loc × V) → Option (V × List (Loc × V))
  | [] => none
  | (k, v) :: rest =>
    if k = l then some (v, rest)
    else (takePending l rest).map fun p => (p.1, (k, v) :: p.2)

/-- A global load sees the thread's own latest store, else the memory. -/
def State.load (s : State V) (c t : ℕ) (l : Loc) : V :=
  match (s.thr c t).buf.reverse.find? fun e => e.1 = l with
  | some e => e.2
  | none => s.mem l.1 l.2

/-- All threads of CTA `c` have come to the barrier at `stage`. -/
def Launch.atBarrier (L : Launch V) (s : State V) (c stage : ℕ) : Bool :=
  (List.range L.threads).all fun t => stage ≤ (s.thr c t).pc.stage

/-- `if tid == 0: _atomic_add_u32(...)`: only thread 0 announces the CTA. -/
def arrivePc (t : ℕ) : Pc := if t = 0 then .arrive else .sync

/-- What follows the fence after the slot stores. -/
def Launch.afterFence (L : Launch V) (t : ℕ) : Pc :=
  match L.order with
  | .fenceArrive => arrivePc t
  | .fenceBarrierArrive => .preSync

/-- One step of thread `t` of CTA `c`. -/
def Launch.exec [Add V] [Zero V] (L : Launch V) (s : State V) (c t : ℕ) : Option (State V) :=
  let th := s.thr c t
  match th.pc with
  | .store r =>
    if r < L.rows then
      let e := ((c, L.row t r), L.gemv c (L.row t r))
      some (s.setThr c t { th with pc := .store (r + 1), buf := th.buf ++ [e] })
    else some (s.setThr c t { th with pc := .fence })
  | .fence =>
    if th.buf.isEmpty then some (s.setThr c t { th with pc := L.afterFence t }) else none
  | .preSync =>
    if L.atBarrier s c 2 then some (s.setThr c t { th with pc := arrivePc t }) else none
  | .arrive =>
    some { s.setThr c t { th with pc := .publish s.count } with count := s.count + 1 }
  | .publish old =>
    some { s.setThr c t { th with pc := .sync } with
      flag := fun c' => if c' = c then old = L.ctas - 1 else s.flag c' }
  | .sync =>
    if L.atBarrier s c 5 then some (s.setThr c t { th with pc := .readFlag }) else none
  | .readFlag =>
    if s.flag c then some (s.setThr c t { th with pc := .gather 0 0, acc := 0 })
    else some (s.setThr c t { th with pc := .done false })
  | .gather r k =>
    if r < L.rows then
      if k < L.ctas then
        some (s.setThr c t
          { th with pc := .gather r (k + 1), acc := th.acc + s.load c t (k, L.row t r) })
      else
        let e := ((0, L.row t r), th.acc)
        some (s.setThr c t { pc := .gather (r + 1) 0, buf := th.buf ++ [e], acc := 0 })
    else some (s.setThr c t { th with pc := .gatherFence })
  | .gatherFence =>
    if th.buf.isEmpty then some (s.setThr c t { th with pc := .gatherSync }) else none
  | .gatherSync =>
    if L.atBarrier s c 9 then some (s.setThr c t { th with pc := .done true }) else none
  | .done _ => none

/-- A label of a run: a thread takes its next step, or one of its stores becomes visible. -/
inductive Label
  | exec (c t : ℕ)
  | flush (c t : ℕ) (l : Loc)
  deriving DecidableEq, Repr

def Launch.step [Add V] [Zero V] (L : Launch V) (s : State V) : Label → Option (State V)
  | .exec c t => if c < L.ctas ∧ t < L.threads then L.exec s c t else none
  | .flush c t l =>
    if c < L.ctas ∧ t < L.threads then
      (takePending l (s.thr c t).buf).map fun p =>
        (s.setThr c t { s.thr c t with buf := p.2 }).write l p.1
    else none

/-- The launch starts with the arrival counter at 0. -/
def Launch.init [Zero V] (L : Launch V) : State V where
  mem := L.woOutput
  stored := fun _ _ => false
  count := 0
  flag := L.syncMd
  thr := fun _ _ => { pc := .store 0, buf := [], acc := 0 }

end Nvllm.Kernel.LastCta
