import Mathlib.Algebra.BigOperators.Group.Finset.Piecewise
import Mathlib.Algebra.Order.BigOperators.Group.Finset
import Mathlib.Data.List.TakeDrop
import Nvllm.Lib.Run

/-! # Cooperative programs over one memory

A launch is a finite grid of workers, each with a straight-line program over a shared memory of
cells. Workers meet only at counters: `arrive` adds one, `await` waits for a number, `elect` adds
one and gives the worker that brings the counter to `n` a list of stores to do before it goes on.
The workers' steps interleave in any order.
-/

namespace Nvllm.Coop

open Nvllm.Run List

inductive Op (κ V : Type*)
  | store (x : ℕ) (v : V)
  | load (x : ℕ)
  | arrive (k : κ)
  | await (k : κ) (n : ℕ)
  | elect (k : κ) (n : ℕ) (body : List (ℕ × V))

structure Launch (ι κ V : Type*) where
  grid : Finset ι
  prog : ι → List (Op κ V)
  mem : ℕ → V

/-- `pc c` operations of the program of `c` are done; `body c` are the stores that `c` still has
to do because it was elected. -/
structure State (ι κ V : Type*) where
  mem : ℕ → V
  ctr : κ → ℕ
  pc : ι → ℕ
  body : ι → List (ℕ × V)

variable {ι κ V : Type*} [DecidableEq ι] [DecidableEq κ]

def State.next (s : State ι κ V) (c : ι) : State ι κ V :=
  { s with pc := Function.update s.pc c (s.pc c + 1) }

/-- One operation of worker `c`; an `await` may not be possible yet. -/
def State.exec (s : State ι κ V) (c : ι) : Op κ V → Option (State ι κ V)
  | .store x v => some { s.next c with mem := Function.update s.mem x v }
  | .load _ => some (s.next c)
  | .arrive k => some { s.next c with ctr := Function.update s.ctr k (s.ctr k + 1) }
  | .await k n => if n ≤ s.ctr k then some (s.next c) else none
  | .elect k n body =>
    some { s.next c with
      ctr := Function.update s.ctr k (s.ctr k + 1)
      body := Function.update s.body c (if s.ctr k + 1 = n then body else []) }

def Launch.step (L : Launch ι κ V) (s : State ι κ V) (c : ι) : Option (State ι κ V) :=
  if c ∈ L.grid then
    match s.body c with
    | (x, v) :: rest =>
      some { s with
        mem := Function.update s.mem x v
        body := Function.update s.body c rest }
    | [] => ((L.prog c)[s.pc c]?).bind (s.exec c)
  else none

def Launch.init (L : Launch ι κ V) : State ι κ V where
  mem := L.mem
  ctr := fun _ => 0
  pc := fun _ => 0
  body := fun _ => []

/-- A state of some interleaving. -/
def Launch.Reached (L : Launch ι κ V) (s : State ι κ V) : Prop :=
  Reach L.step always L.init s

/-- Worker `c` has done the operation `op`. -/
def Launch.Did (L : Launch ι κ V) (s : State ι κ V) (c : ι) (op : Op κ V) : Prop :=
  op ∈ (L.prog c).take (s.pc c)

/-- The next operation of worker `c` is `op`. -/
def Launch.AtOp (L : Launch ι κ V) (s : State ι κ V) (c : ι) (op : Op κ V) : Prop :=
  c ∈ L.grid ∧ s.body c = [] ∧ (L.prog c)[s.pc c]? = some op

/-- The operation adds one to the counter `k`. -/
def Op.signals (k : κ) : Op κ V → Bool
  | .arrive k' => k' = k
  | .elect k' _ _ => k' = k
  | _ => false

section

variable {L : Launch ι κ V} {s s' : State ι κ V} {c : ι}

/-- **What a step does.** Either a pending store of an elected worker, or the next operation. -/
theorem Launch.step_cases (h : L.step s c = some s') : c ∈ L.grid ∧
    ((∃ x v rest, s.body c = (x, v) :: rest ∧
      s' = { s with
        mem := Function.update s.mem x v
        body := Function.update s.body c rest }) ∨
    (∃ op, L.AtOp s c op ∧ s.exec c op = some s')) := by
  unfold Launch.step at h
  split at h
  · rename_i hc
    refine ⟨hc, ?_⟩
    split at h
    · rename_i x v rest hb
      exact .inl ⟨x, v, rest, hb, (Option.some.inj h).symm⟩
    · rename_i hb
      obtain ⟨op, hop, hex⟩ := Option.bind_eq_some_iff.mp h
      exact .inr ⟨op, ⟨hc, hb, hop⟩, hex⟩
  · cases h

variable {op : Op κ V}

theorem Launch.step_of_atOp (h : L.AtOp s c op) : L.step s c = s.exec c op := by
  obtain ⟨hc, hb, hop⟩ := h
  simp [Launch.step, hc, hb, hop]

theorem State.exec_await {k : κ} {n : ℕ} :
    s.exec c (.await k n) = some s' ↔ n ≤ s.ctr k ∧ s.next c = s' := by
  simp [State.exec]

theorem State.exec_pc (h : s.exec c op = some s') :
    s'.pc = Function.update s.pc c (s.pc c + 1) := by
  cases op with
  | await k n =>
    obtain ⟨-, rfl⟩ := State.exec_await.mp h
    rfl
  | _ =>
    cases h
    rfl

theorem State.exec_ctr (h : s.exec c op = some s') (k : κ) :
    s'.ctr k = s.ctr k + if op.signals k then 1 else 0 := by
  cases op with
  | await k' n =>
    obtain ⟨-, rfl⟩ := State.exec_await.mp h
    simp [State.next, Op.signals]
  | arrive k' | elect k' n body =>
    cases h
    by_cases hk : k' = k
    · subst hk
      simp [Op.signals]
    · simp [Op.signals, hk, Function.update_of_ne (Ne.symm hk)]
  | store x v | load x =>
    cases h
    simp [State.next, Op.signals]

omit [DecidableEq ι] [DecidableEq κ] in
theorem Launch.take_succ_of_atOp (h : L.AtOp s c op) :
    (L.prog c).take (s.pc c + 1) = (L.prog c).take (s.pc c) ++ [op] := by
  rw [take_add_one, h.2.2]
  rfl

/-- After a step a worker has done what it had done, and the operation it was at. -/
theorem Launch.did_step (h : L.step s c = some s') {c' : ι} :
    L.Did s' c' op ↔ L.Did s c' op ∨ (c' = c ∧ L.AtOp s c op) := by
  obtain ⟨-, ⟨x, v, rest, hb, rfl⟩ | ⟨o, hat, hex⟩⟩ := L.step_cases h
  · simp [Launch.Did, Launch.AtOp, hb]
  · have hpc := State.exec_pc hex
    by_cases hcc : c' = c
    · subst hcc
      have hop : L.AtOp s c' op ↔ op = o := by
        constructor
        · intro h'
          have := h'.2.2.symm.trans hat.2.2
          exact Option.some.inj this
        · rintro rfl
          exact hat
      simp [Launch.Did, hpc, L.take_succ_of_atOp hat, hop]
    · simp [Launch.Did, hpc, hcc]

omit [DecidableEq ι] [DecidableEq κ] in
theorem Launch.did_of_length_le {pre post : List (Op κ V)} (hprog : L.prog c = pre ++ post)
    (hle : pre.length ≤ s.pc c) (hop : op ∈ pre) : L.Did s c op := by
  rw [Launch.Did, hprog, take_append, take_of_length_le hle]
  exact mem_append_left _ hop

theorem Launch.ctr_le_step (h : L.step s c = some s') (k : κ) : s.ctr k ≤ s'.ctr k := by
  obtain ⟨-, ⟨x, v, rest, hb, rfl⟩ | ⟨o, hat, hex⟩⟩ := L.step_cases h
  · exact le_rfl
  · rw [State.exec_ctr hex k]
    omega

/-- **Counters count.** In every interleaving a counter holds the number of operations on it that
were done. -/
theorem Launch.Reached.ctr_eq (h : L.Reached s) (k : κ) :
    s.ctr k = ∑ c ∈ L.grid, ((L.prog c).take (s.pc c)).countP (Op.signals k) := by
  refine h.invariant
    (fun s => s.ctr k = ∑ c ∈ L.grid, ((L.prog c).take (s.pc c)).countP (Op.signals k))
    (by simp [Launch.init]) ?_
  intro s c s' hi _ hs
  obtain ⟨hc, ⟨x, v, rest, hb, rfl⟩ | ⟨op, hat, hex⟩⟩ := L.step_cases hs
  · exact hi
  · rw [State.exec_ctr hex k, hi, State.exec_pc hex]
    rw [← Finset.add_sum_erase _ _ hc, ← Finset.add_sum_erase _ _ hc]
    have hrest : ∀ d ∈ L.grid.erase c,
        ((L.prog d).take (Function.update s.pc c (s.pc c + 1) d)).countP (Op.signals k) =
          ((L.prog d).take (s.pc d)).countP (Op.signals k) := by
      intro d hd
      rw [Function.update_of_ne (Finset.ne_of_mem_erase hd)]
    rw [Finset.sum_congr rfl hrest, Function.update_self, L.take_succ_of_atOp hat,
      countP_append, countP_singleton]
    omega

/-- A counter that every worker of `W` raises at most once, and no other worker, is below `n` as
long as one of at most `n` workers has not raised it. -/
theorem Launch.Reached.ctr_lt (h : L.Reached s) {k : κ} {W : Finset ι}
    (hone : ∀ d ∈ L.grid, ((L.prog d).countP (Op.signals k)) ≤ if d ∈ W then 1 else 0)
    {n : ℕ} (hW : W.card ≤ n) (hc : c ∈ W)
    (hnot : ((L.prog c).take (s.pc c)).countP (Op.signals k) = 0) : s.ctr k < n := by
  rw [h.ctr_eq k]
  have hle : ∀ d ∈ L.grid, ((L.prog d).take (s.pc d)).countP (Op.signals k) ≤
      if d ∈ W.erase c then 1 else 0 := by
    intro d hd
    by_cases hdc : d = c
    · subst hdc
      simp [hnot]
    · have hsub := ((L.prog d).take_sublist (s.pc d)).countP_le (p := Op.signals k)
      have := hone d hd
      simp only [Finset.mem_erase, ne_eq, hdc, not_false_eq_true, true_and]
      omega
  calc ∑ d ∈ L.grid, ((L.prog d).take (s.pc d)).countP (Op.signals k)
      ≤ ∑ d ∈ L.grid, (if d ∈ W.erase c then 1 else 0) := Finset.sum_le_sum hle
    _ = (L.grid ∩ W.erase c).card := by
        rw [← Finset.card_filter, Finset.filter_mem_eq_inter]
    _ ≤ (W.erase c).card := Finset.card_le_card Finset.inter_subset_right
    _ < W.card := Finset.card_erase_lt_of_mem hc
    _ ≤ n := hW

/-- A worker that is past a wait knows that the counter has come to its number. -/
theorem Launch.Reached.await_le (h : L.Reached s) {k : κ} {n : ℕ}
    (hd : L.Did s c (.await k n)) : n ≤ s.ctr k := by
  revert hd
  refine h.invariant (fun s => L.Did s c (.await k n) → n ≤ s.ctr k)
    (by simp [Launch.init, Launch.Did]) ?_
  intro s d s' hi _ hs hd
  rcases (L.did_step hs).mp hd with hd | ⟨rfl, hat⟩
  · exact (hi hd).trans (L.ctr_le_step hs k)
  · rw [L.step_of_atOp hat] at hs
    obtain ⟨hle, rfl⟩ := State.exec_await.mp hs
    exact hle

/-- A worker can do any number of stores and arrivals on its own. -/
theorem Launch.reach_run (hc : c ∈ L.grid) (pre : List (Op κ V))
    (hpre : ∀ op ∈ pre, (∃ x v, op = .store x v) ∨ ∃ k, op = .arrive k)
    (hb : s.body c = []) (hprog : pre <+: (L.prog c).drop (s.pc c)) :
    ∃ s', Reach L.step always s s' ∧ s'.body = s.body ∧
      s'.pc = Function.update s.pc c (s.pc c + pre.length) ∧
      (∀ k, s'.ctr k = s.ctr k + pre.countP (Op.signals k)) ∧
      ∀ x, (∀ v, Op.store x v ∉ pre) → s'.mem x = s.mem x := by
  induction pre generalizing s with
  | nil => exact ⟨s, .init, rfl, by simp, by simp, fun _ _ => rfl⟩
  | cons op pre ih =>
    obtain ⟨rest, hrest⟩ := hprog
    have hat : L.AtOp s c op := by
      refine ⟨hc, hb, ?_⟩
      have := congrArg (fun l => l[0]?) hrest
      simpa [getElem?_drop] using this.symm
    obtain ⟨m, hex, hmb, hmem⟩ : ∃ m, s.exec c op = some m ∧ m.body = s.body ∧
        ∀ x, (∀ v, op ≠ .store x v) → m.mem x = s.mem x := by
      rcases hpre op (by simp) with ⟨x, v, rfl⟩ | ⟨k, rfl⟩
      · refine ⟨_, rfl, rfl, fun y hy => ?_⟩
        have : y ≠ x := fun he => hy v (by rw [he])
        simp [Function.update_of_ne this]
      · exact ⟨_, rfl, rfl, fun _ _ => rfl⟩
    have hpc := State.exec_pc hex
    have hstep : L.step s c = some m := by rw [L.step_of_atOp hat, hex]
    obtain ⟨s', hr, hb', hpc', hctr', hmem'⟩ := ih (s := m)
      (fun o ho => hpre o (mem_cons_of_mem _ ho)) (by rw [hmb, hb]) (by
        refine ⟨rest, ?_⟩
        rw [hpc, Function.update_self, ← drop_drop, ← hrest]
        rfl)
    refine ⟨s', (Reach.init.next trivial hstep).trans hr, by rw [hb', hmb], ?_, ?_, ?_⟩
    · rw [hpc', hpc, Function.update_self, Function.update_idem, length_cons]
      congr 1
      omega
    · intro k
      rw [hctr' k, State.exec_ctr hex k, countP_cons]
      omega
    · intro x hx
      rw [hmem' x fun v hv => hx v (mem_cons_of_mem _ hv),
        hmem x fun v he => hx v (by rw [he]; simp)]

end

end Nvllm.Coop
