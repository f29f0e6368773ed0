import Mathlib.Algebra.Order.BigOperators.Group.Finset
import Mathlib.Data.Fintype.BigOperators
import Mathlib.Data.Fintype.Lattice
import Mathlib.Tactic.IntervalCases
import Nvllm.Lib.Run

/-! # FP4 quantisation of the intermediate in place

Stage 3b of `Phase_D_MLP_Kernel` (`mlp_kernel.py`): four warps of 32 lanes turn the BF16 values
in `smem_interm_bf16` into FP4 blocks of 16. A pass handles four blocks, one a warp. The nibbles
go, a byte each, into the buffer that later passes still read BF16 values from; lane 0 of a warp
then packs the 16 nibbles of its block into `smem_interm_fp4`.

A lane runs the instructions of a pass in order, an instruction whose predicate is false does
nothing. The lanes interleave freely: `sync_threads` waits for all 128, a shuffle for the lane
whose value it takes. The floating-point instructions are arbitrary functions.
-/

namespace Nvllm.Kernel.Fp4Pack

open Nvllm.Run

abbrev Byte := BitVec 8

/-- Warp and lane of a thread. -/
abbrev Lane := Fin 4 × Fin 32

/-! ## Stage 3b -/

inductive Op
  | loadBf16
  | shuffle (k : ℕ)
  | storeScale
  | loadScale
  | storeNib
  | loadLo (i : ℕ)
  | loadHi (i : ℕ)
  | storePacked (i : ℕ)
  | sync
  deriving DecidableEq, Repr

/-- The instructions of one pass of the block loop. -/
def pass : List Op :=
  [.loadBf16, .shuffle 0, .shuffle 1, .shuffle 2, .shuffle 3, .storeScale, .sync,
    .loadScale, .storeNib, .sync] ++
  (List.range 8).flatMap (fun i => [.loadLo i, .loadHi i, .storePacked i]) ++ [.sync]

/-- `tile_s`, the three shared buffers when the stage starts, and the arithmetic of the kernel. -/
structure Launch (F : Type*) where
  tileS : ℕ
  dvd : 16 ∣ tileS
  interm : ℕ → Byte
  scale : ℕ → Byte
  fp4 : ℕ → Byte
  zero : F
  fp4Max : F
  minScale : F
  bitcast : BitVec 32 → F
  lt : F → F → Bool
  sub : F → F → F
  div : F → F → F
  encodeUe4m3 : F → Byte
  decodeUe4m3 : Byte → F
  divToFp4Nibble : F → F → Byte

/-- `pc` instructions are done, 35 in each pass; `absVal k` is `abs_val` after `k` shuffles. -/
structure Thread (F : Type*) where
  pc : ℕ
  myVal : F
  absVal : ℕ → F
  scaleRt : F
  nibLo : Byte
  nibHi : Byte

structure State (F : Type*) where
  interm : ℕ → Byte
  scale : ℕ → Byte
  fp4 : ℕ → Byte
  thr : Lane → Thread F

variable {F : Type*}

def Thread.blkIter (th : Thread F) : ℕ := th.pc / 35

def State.next (s : State F) (t : Lane) (th : Thread F) : State F :=
  { s with thr := Function.update s.thr t { th with pc := th.pc + 1 } }

/-- `warp + blk_iter * 4` -/
def myBlock (t : Lane) (blkIter : ℕ) : ℕ := t.1 + blkIter * 4

def elemIdx (t : Lane) (blkIter : ℕ) : ℕ := myBlock t blkIter * 16 + t.2

def pack (lo hi : Byte) : Byte := (lo &&& 0xF) ||| ((hi &&& 0xF) <<< 4)

namespace Launch

variable (L : Launch F)

def nblocks : ℕ := L.tileS / 16

/-- `blk_iter_max` -/
def passes : ℕ := (L.nblocks + 3) >>> 2

/-- `my_block_valid and lane < FP4_BLOCK_SIZE` -/
def Active (t : Lane) (blkIter : ℕ) : Prop := myBlock t blkIter < L.nblocks ∧ t.2.val < 16

/-- `my_block_valid and lane == 0` -/
def Packs (t : Lane) (blkIter : ℕ) : Prop := myBlock t blkIter < L.nblocks ∧ t.2.val = 0

instance (t : Lane) (n : ℕ) : Decidable (L.Active t n) := inferInstanceAs (Decidable (_ ∧ _))

instance (t : Lane) (n : ℕ) : Decidable (L.Packs t n) := inferInstanceAs (Decidable (_ ∧ _))

/-- The BF16 value of two bytes, low byte first. -/
def ofBf16 (lo hi : Byte) : F := L.bitcast ((hi ++ lo : BitVec 16) ++ (0 : BitVec 16))

def abs (v : F) : F := if L.lt v L.zero then L.sub L.zero v else v

def larger (a r : F) : F := if L.lt a r then r else a

def scaleF32 (maxAbs : F) : F :=
  let scale := L.div maxAbs L.fp4Max
  if L.lt scale L.minScale then L.minScale else scale

/-- One instruction of a lane; `none` while it has to wait. -/
def exec (s : State F) (t : Lane) (op : Op) : Option (State F) :=
  let th := s.thr t
  let b := myBlock t th.blkIter
  let e := elemIdx t th.blkIter
  match op with
  | .loadBf16 =>
    let v := if L.Active t th.blkIter then
      L.ofBf16 (s.interm (e * 2)) (s.interm (e * 2 + 1)) else L.zero
    some (s.next t { th with myVal := v, absVal := fun _ => L.abs v })
  | .shuffle k =>
    -- `shfl_xor_sync(abs_val, 1 << k)` and the comparison after it
    let u := s.thr (t.1, t.2 ^^^ Fin.ofNat 32 (2 ^ k))
    if th.pc ≤ u.pc then
      some (s.next t { th with
        absVal := Function.update th.absVal (k + 1) (L.larger (th.absVal k) (u.absVal k)) })
    else none
  | .storeScale =>
    some { s.next t th with
      scale := if L.Packs t th.blkIter then
        Function.update s.scale b (L.encodeUe4m3 (L.scaleF32 (th.absVal 4))) else s.scale }
  | .loadScale =>
    some (s.next t { th with
      scaleRt := if L.Active t th.blkIter then L.decodeUe4m3 (s.scale b)
        else L.scaleF32 (th.absVal 4) })
  | .storeNib =>
    some { s.next t th with
      interm := if L.Active t th.blkIter then
        Function.update s.interm e (L.divToFp4Nibble th.myVal th.scaleRt) else s.interm }
  | .loadLo i =>
    some (s.next t { th with
      nibLo := if L.Packs t th.blkIter then s.interm (b * 16 + i * 2) else th.nibLo })
  | .loadHi i =>
    some (s.next t { th with
      nibHi := if L.Packs t th.blkIter then s.interm (b * 16 + i * 2 + 1) else th.nibHi })
  | .storePacked i =>
    some { s.next t th with
      fp4 := if L.Packs t th.blkIter then
        Function.update s.fp4 (b * 8 + i) (pack th.nibLo th.nibHi) else s.fp4 }
  | .sync => if ∀ u, th.pc ≤ (s.thr u).pc then some (s.next t th) else none

/-- The next instruction of a lane, `none` after the loop. -/
def op? (s : State F) (t : Lane) : Option Op :=
  if (s.thr t).pc < 35 * L.passes then pass[(s.thr t).pc % 35]? else none

def step (s : State F) (t : Lane) : Option (State F) := (L.op? s t).bind (L.exec s t)

def init : State F where
  interm := L.interm
  scale := L.scale
  fp4 := L.fp4
  thr := fun _ => ⟨0, L.zero, fun _ => L.zero, L.zero, 0, 0⟩

/-! ## What the stage is to compute -/

/-- The BF16 value of element `e` when the stage starts. -/
def val (e : ℕ) : F := L.ofBf16 (L.interm (e * 2)) (L.interm (e * 2 + 1))

/-- `abs_val` of a lane of block `b` after `k` shuffles. -/
def absAt (b : ℕ) : ℕ → Fin 32 → F
  | 0, l => L.abs (if b < L.nblocks ∧ l.val < 16 then L.val (b * 16 + l) else L.zero)
  | k + 1, l => L.larger (absAt b k l) (absAt b k (l ^^^ Fin.ofNat 32 (2 ^ k)))

def blockScale (b : ℕ) : Byte := L.encodeUe4m3 (L.scaleF32 (L.absAt b 4 0))

def nib (e : ℕ) : Byte := L.divToFp4Nibble (L.val e) (L.decodeUe4m3 (L.blockScale (e / 16)))

end Launch

/-- The lane that handles element `e`, in pass `e / 64`. -/
def owner (e : ℕ) : Lane := (Fin.ofNat 4 (e / 16), Fin.ofNat 32 (e % 16))

/-- Instruction `k` of the pass of element `e` is done by the lane that handles it. -/
def State.Past (s : State F) (e k : ℕ) : Prop := 35 * (e / 64) + k < (s.thr (owner e)).pc

/-- The nibble of element `e` in the packed buffer. -/
def nibbleAt (fp4 : ℕ → Byte) (e : ℕ) : Byte :=
  if e % 2 = 0 then fp4 (e / 2) &&& 0xF else fp4 (e / 2) >>> 4

/-! ## Proof -/

/-- Where in a pass an instruction stands. -/
def Op.At : Op → ℕ → Prop
  | .loadBf16, k => k = 0
  | .shuffle i, k => i < 4 ∧ k = 1 + i
  | .storeScale, k => k = 5
  | .loadScale, k => k = 7
  | .storeNib, k => k = 8
  | .loadLo i, k => i < 8 ∧ k = 10 + 3 * i
  | .loadHi i, k => i < 8 ∧ k = 11 + 3 * i
  | .storePacked i, k => i < 8 ∧ k = 12 + 3 * i
  | .sync, k => k = 6 ∨ k = 9 ∨ k = 34

theorem Op.at_of_pass {k : ℕ} {op : Op} (h : pass[k]? = some op) : op.At k := by
  have hk : k < 35 := (List.getElem?_eq_some_iff.mp h).1
  interval_cases k <;> cases h <;> simp [Op.At]

/-- What the registers of a lane hold before instruction `k` of pass `n`. -/
structure Launch.Regs (L : Launch F) (t : Lane) (n k : ℕ) (th : Thread F) : Prop where
  myVal : 1 ≤ k → k ≤ 8 → L.Active t n → th.myVal = L.val (elemIdx t n)
  absVal : ∀ j < k, j ≤ 4 → k ≤ 6 → th.absVal j = L.absAt (myBlock t n) j t.2
  scaleRt : k = 8 → L.Active t n → th.scaleRt = L.decodeUe4m3 (L.blockScale (myBlock t n))
  nibLo : ∀ i < 8, k = 11 + 3 * i ∨ k = 12 + 3 * i → L.Packs t n →
    th.nibLo = L.nib (myBlock t n * 16 + i * 2)
  nibHi : ∀ i < 8, k = 12 + 3 * i → L.Packs t n → th.nibHi = L.nib (myBlock t n * 16 + i * 2 + 1)

structure Launch.Inv (L : Launch F) (s : State F) : Prop where
  bound : ∀ t, (s.thr t).pc ≤ 35 * L.passes
  sync : ∀ n, Op.sync.At (n % 35) → ∀ t u, n < (s.thr t).pc → n ≤ (s.thr u).pc
  regs : ∀ t n k, (s.thr t).pc = 35 * n + k → k < 35 → L.Regs t n k (s.thr t)
  -- a byte of the buffer is what it was until its nibble is stored
  interm : ∀ x, s.interm x ≠ L.interm x → x < L.tileS ∧ s.Past x 8
  nib : ∀ x < L.tileS, s.Past x 8 → s.interm x = L.nib x
  scale : ∀ b < L.nblocks, s.Past (b * 16) 5 → s.scale b = L.blockScale b
  fp4 : ∀ j, j / 8 < L.nblocks → s.Past (j / 8 * 16) (12 + 3 * (j % 8)) →
    s.fp4 j = pack (L.nib (j * 2)) (L.nib (j * 2 + 1))

section

variable {L : Launch F} {s s' : State F} {t : Lane}

theorem Launch.op?_some {op : Op} (h : L.op? s t = some op) :
    ∃ n k, (s.thr t).pc = 35 * n + k ∧ (s.thr t).blkIter = n ∧ n < L.passes ∧ k < 35 ∧
      op.At k := by
  unfold Launch.op? at h
  split at h
  · exact ⟨_, _, (Nat.div_add_mod ..).symm, rfl, by omega, by omega, Op.at_of_pass h⟩
  · cases h

theorem Launch.tileS_eq (L : Launch F) : L.tileS = 16 * L.nblocks :=
  (Nat.mul_div_cancel' L.dvd).symm

theorem owner_iff {e n : ℕ} : owner e = t ∧ e / 64 = n ↔ elemIdx t n = e ∧ t.2.val < 16 := by
  obtain ⟨w, l⟩ := t
  simp only [owner, elemIdx, myBlock, Prod.mk.injEq, Fin.ext_iff, Fin.val_ofNat]
  omega

/-- The instruction that a lane does is the only one that becomes done. -/
theorem past_next {th : Thread F} {n k x j : ℕ} (hpc : (s.thr t).pc = 35 * n + k) (hk : k < 35)
    (hthr : s'.thr = Function.update s.thr t th) (hpc' : th.pc = (s.thr t).pc + 1) (hj : j < 35) :
    s'.Past x j ↔ s.Past x j ∨ k = j ∧ elemIdx t n = x ∧ t.2.val < 16 := by
  rw [← owner_iff, State.Past, State.Past, hthr]
  by_cases ho : owner x = t
  · rw [ho, Function.update_self, hpc']
    simp only [true_and]
    omega
  · rw [Function.update_of_ne ho]
    simp [ho]

/-- **One lane steps.** -/
theorem Launch.Inv.next (h : L.Inv s) {n k : ℕ} (hpc : (s.thr t).pc = 35 * n + k)
    (hn : n < L.passes) (hk : k < 35)
    (hsync : Op.sync.At k → ∀ u, (s.thr t).pc ≤ (s.thr u).pc) {th : Thread F}
    (hthr : s'.thr = Function.update s.thr t th) (hpc' : th.pc = (s.thr t).pc + 1)
    (hregs : L.Regs t n (k + 1) th)
    (hinterm : ∀ x, s'.interm x =
      if k = 8 ∧ L.Active t n ∧ x = elemIdx t n then L.nib x else s.interm x)
    (hscale : ∀ b, s'.scale b =
      if k = 5 ∧ L.Packs t n ∧ b = myBlock t n then L.blockScale b else s.scale b)
    (hfp4 : ∀ j, s'.fp4 j = if k = 12 + 3 * (j % 8) ∧ L.Packs t n ∧ j / 8 = myBlock t n then
      pack (L.nib (j * 2)) (L.nib (j * 2 + 1)) else s.fp4 j) : L.Inv s' := by
  have htile := L.tileS_eq
  have hpast : ∀ {x j}, j < 35 → (s'.Past x j ↔ _) := past_next hpc hk hthr hpc'
  have hpcs : ∀ u, (s'.thr u).pc = (s.thr u).pc + if u = t then 1 else 0 := by
    intro u
    rw [hthr, Function.update_apply]
    split
    · rename_i hu
      rw [hpc', hu]
    · rfl
  refine ⟨fun u => ?_, fun m hm u v hu => ?_, fun u m j hu hj => ?_, fun x hx => ?_,
    fun x hx hp => ?_, fun b hb hp => ?_, fun j hj hp => ?_⟩
  · have := h.bound u
    rw [hpcs]
    split
    · rename_i hu
      subst hu
      omega
    · omega
  · rw [hpcs] at hu ⊢
    suffices m ≤ (s.thr v).pc by omega
    by_cases hlt : m < (s.thr u).pc
    · exact h.sync m hm u v hlt
    · split at hu
      · rename_i hut
        subst hut
        obtain rfl : m = (s.thr u).pc := by omega
        exact hsync (by rwa [hpc, Nat.mul_add_mod, Nat.mod_eq_of_lt hk] at hm) v
      · omega
  · rw [hpcs] at hu
    rw [hthr, Function.update_apply]
    split at hu
    · rename_i hut
      subst hut
      rw [if_pos rfl]
      by_cases hlast : k = 34
      · obtain rfl : j = 0 := by omega
        exact ⟨by omega, by omega, by omega, by omega, by omega⟩
      · obtain ⟨rfl, rfl⟩ : m = n ∧ j = k + 1 := by omega
        exact hregs
    · rename_i hut
      rw [if_neg hut]
      exact h.regs u m j hu hj
  · rw [hinterm] at hx
    rw [hpast (by omega)]
    split at hx
    · rename_i he
      obtain ⟨rfl, ⟨hb, hl⟩, rfl⟩ := he
      refine ⟨?_, .inr ⟨rfl, rfl, hl⟩⟩
      rw [htile, elemIdx]
      omega
    · obtain ⟨hlt, hp⟩ := h.interm x hx
      exact ⟨hlt, .inl hp⟩
  · rw [hinterm]
    split
    · rfl
    · rename_i hne
      refine h.nib x hx (((hpast (by omega)).mp hp).resolve_right fun ⟨h8, he, hl⟩ => ?_)
      refine hne ⟨h8, ⟨?_, hl⟩, he.symm⟩
      rw [elemIdx] at he
      omega
  · rw [hscale]
    split
    · rfl
    · rename_i hne
      refine h.scale b hb (((hpast (by omega)).mp hp).resolve_right fun ⟨h5, he, hl⟩ => ?_)
      rw [elemIdx] at he
      exact hne ⟨h5, ⟨by omega, by omega⟩, by omega⟩
  · rw [hfp4]
    split
    · rfl
    · rename_i hne
      refine h.fp4 j hj (((hpast (by omega)).mp hp).resolve_right fun ⟨h12, he, hl⟩ => ?_)
      rw [elemIdx] at he
      exact hne ⟨h12, ⟨by omega, by omega⟩, by omega⟩

theorem myBlock_div (t : Lane) (n : ℕ) : myBlock t n / 4 = n := by
  have := t.1.isLt
  unfold myBlock
  omega

variable {n k : ℕ}

/-- The bytes of an element that is still to be read are as they were. -/
theorem Launch.Inv.unread (h : L.Inv s) (hpc : (s.thr t).pc = 35 * n + k) (hk : k < 6) {x : ℕ}
    (hx : x / 2 = elemIdx t n) : s.interm x = L.interm x := by
  by_contra hne
  have hp : _ < _ := (h.interm x hne).2
  have hdiv := myBlock_div t n
  have := h.sync (35 * n + 6) (.inl (by omega)) (owner x) t (by rw [elemIdx] at hx; omega)
  omega

/-- After the second barrier of a pass the nibbles of the block are there. -/
theorem Launch.Inv.nib_own (h : L.Inv s) (hpc : (s.thr t).pc = 35 * n + k) (hk : 9 < k)
    (hp : L.Packs t n) {i : ℕ} (hi : i < 16) :
    s.interm (myBlock t n * 16 + i) = L.nib (myBlock t n * 16 + i) := by
  have hdiv := myBlock_div t n
  have htile := L.tileS_eq
  have hb := hp.1
  have hle := h.sync (35 * n + 9) (.inr (.inl (by omega))) t (owner (myBlock t n * 16 + i))
    (by omega)
  exact h.nib _ (by omega) (lt_of_lt_of_le (by omega) hle)

/-- **Every step keeps the invariant.** -/
theorem Launch.Inv.step (h : L.Inv s) (hs : L.step s t = some s') : L.Inv s' := by
  obtain ⟨op, hop, hex⟩ := Option.bind_eq_some_iff.mp hs
  obtain ⟨n, k, hpc, hiter, hn, hk, hat⟩ := L.op?_some hop
  have hr := h.regs t n k hpc hk
  have hunread : ∀ x, _ := fun x => h.unread (x := x) hpc
  have hown := fun i => h.nib_own (i := i) hpc
  have hdiv := myBlock_div t n
  -- an instruction that stores nothing
  have hquiet : ∀ th : Thread F, th.pc = (s.thr t).pc → (∀ i < 8, k ≠ 12 + 3 * i) → k ≠ 5 ∧ k ≠ 8 →
      (Op.sync.At k → ∀ u, (s.thr t).pc ≤ (s.thr u).pc) → L.Regs t n (k + 1) th →
      L.Inv (s.next t th) := fun th heq hfp4 hne hb hregs =>
    h.next hpc hn hk hb rfl (congrArg (· + 1) heq) { hregs with }
      (fun _ => (if_neg (by omega)).symm) (fun _ => (if_neg (by omega)).symm)
      fun j => (if_neg fun ⟨he, _⟩ => hfp4 (j % 8) (by omega) he).symm
  cases op with simp only [Launch.exec, hiter] at hex
  | loadBf16 =>
    obtain rfl : k = 0 := hat
    cases hex
    have hv : (if L.Active t n then L.ofBf16 (s.interm (elemIdx t n * 2))
        (s.interm (elemIdx t n * 2 + 1)) else L.zero) =
        if L.Active t n then L.val (elemIdx t n) else L.zero := by
      rw [hunread (elemIdx t n * 2) (by omega) (by omega),
        hunread (elemIdx t n * 2 + 1) (by omega) (by omega)]
      rfl
    rw [hv]
    refine hquiet _ rfl (by omega) (by omega) (by simp [Op.At])
      ⟨fun _ _ ha => if_pos ha, fun j hj _ _ => ?_, by omega, by omega, by omega⟩
    obtain rfl : j = 0 := by omega
    rfl
  | shuffle i =>
    obtain ⟨hi, rfl⟩ := hat
    split at hex
    · rename_i hle
      cases hex
      refine hquiet _ rfl (by omega) (by omega) (by simp [Op.At]; omega)
        ⟨fun _ _ => hr.myVal (by omega) (by omega), fun j hj _ _ => ?_, by omega, by omega,
          by omega⟩
      dsimp only at hj ⊢
      by_cases hji : j = i + 1
      · -- the other lane is in the same pass, since it waits at the next barrier
        set u : Lane := (t.1, t.2 ^^^ Fin.ofNat 32 (2 ^ i))
        have hu := h.sync (35 * n + 6) (.inl (by omega)) u t
        have ha := (h.regs u n ((s.thr u).pc - 35 * n) (by omega) (by omega)).absVal i (by omega)
          (by omega) (by omega)
        rw [hji, Function.update_self, hr.absVal i (by omega) (by omega) (by omega), ha]
        rfl
      · rw [Function.update_of_ne hji]
        exact hr.absVal j (by omega) (by omega) (by omega)
    · cases hex
  | storeScale =>
    obtain rfl : k = 5 := hat
    cases hex
    refine h.next hpc hn hk (by simp [Op.At]) rfl rfl
      ⟨fun _ _ => hr.myVal (by omega) (by omega),
        fun j _ hj _ => hr.absVal j (by omega) hj (by omega), by omega, by omega, by omega⟩
      (fun _ => (if_neg (by omega)).symm) (fun b => ?_) fun _ => (if_neg (by omega)).symm
    by_cases hp : L.Packs t n
    · have h0 : t.2 = 0 := Fin.ext hp.2
      have habs := hr.absVal 4 (by omega) le_rfl (by omega)
      simp only [hp, if_true, true_and, Function.update_apply, habs, h0]
      split
      · rename_i hb
        rw [hb]
        rfl
      · rfl
    · simp [hp]
  | loadScale =>
    obtain rfl : k = 7 := hat
    cases hex
    refine hquiet _ rfl (by omega) (by omega) (by simp [Op.At])
      ⟨fun _ _ => hr.myVal (by omega) (by omega), by omega, fun _ ha => ?_, by omega, by omega⟩
    -- lane 0 of the warp has stored the scale before the barrier
    have hle := h.sync (35 * n + 6) (.inl (by omega)) t (owner (myBlock t n * 16)) (by omega)
    exact (if_pos ha).trans (congrArg _ (h.scale _ ha.1 (lt_of_lt_of_le (by omega) hle)))
  | storeNib =>
    obtain rfl : k = 8 := hat
    cases hex
    refine h.next hpc hn hk (by simp [Op.At]) rfl rfl
      ⟨by omega, by omega, by omega, by omega, by omega⟩ (fun x => ?_)
      (fun _ => (if_neg (by omega)).symm) fun _ => (if_neg (by omega)).symm
    by_cases ha : L.Active t n
    · have hb : elemIdx t n / 16 = myBlock t n := by
        have := ha.2
        rw [elemIdx]
        omega
      simp only [ha, if_true, true_and, Function.update_apply, hr.myVal (by omega) le_rfl ha,
        hr.scaleRt rfl ha]
      split
      · rename_i hx
        rw [hx, Launch.nib, hb]
      · rfl
    · simp [ha]
  | loadLo i =>
    obtain ⟨hi, rfl⟩ := hat
    cases hex
    refine hquiet _ rfl (by omega) (by omega) (by simp [Op.At]; omega)
      ⟨by omega, by omega, by omega, fun j hj hk hp => ?_, by omega⟩
    obtain rfl : i = j := by omega
    exact (if_pos hp).trans (hown (i * 2) (by omega) hp (by omega))
  | loadHi i =>
    obtain ⟨hi, rfl⟩ := hat
    cases hex
    refine hquiet _ rfl (by omega) (by omega) (by simp [Op.At]; omega)
      ⟨by omega, by omega, by omega, fun j hj _ => hr.nibLo j hj (by omega), fun j hj hk hp => ?_⟩
    obtain rfl : i = j := by omega
    exact (if_pos hp).trans (hown (i * 2 + 1) (by omega) hp (by omega))
  | storePacked i =>
    obtain ⟨hi, rfl⟩ := hat
    cases hex
    refine h.next hpc hn hk (by simp [Op.At]; omega) rfl rfl
      ⟨by omega, by omega, by omega, by omega, by omega⟩ (fun _ => (if_neg (by omega)).symm)
      (fun _ => (if_neg (by omega)).symm) fun j => ?_
    by_cases hp : L.Packs t n
    · simp only [hp, if_true, true_and, Function.update_apply, hr.nibLo i hi (.inr rfl) hp,
        hr.nibHi i hi rfl hp]
      have hj : j = myBlock t n * 8 + i ↔ 12 + 3 * i = 12 + 3 * (j % 8) ∧ j / 8 = myBlock t n := by
        omega
      simp only [← hj]
      split
      · rename_i hx
        rw [hx, Nat.add_mul, Nat.mul_assoc]
      · rfl
    · simp [hp]
  | sync =>
    split at hex
    · rename_i hall
      cases hex
      refine hquiet _ rfl ?_ ?_ (fun _ => hall)
        ⟨fun _ _ => hr.myVal ?_ ?_, fun j hj _ _ => ?_, ?_, ?_, ?_⟩
      all_goals
        simp only [Op.At] at hat
        omega
    · cases hex

theorem Launch.exec_thr {op : Op} (h : L.exec s t op = some s') :
    ∃ th, s'.thr = Function.update s.thr t th ∧ th.pc = (s.thr t).pc + 1 := by
  cases op with simp only [Launch.exec] at h
  | shuffle i =>
    split at h <;> cases h
    exact ⟨_, rfl, rfl⟩
  | sync =>
    split at h <;> cases h
    exact ⟨_, rfl, rfl⟩
  | _ =>
    cases h
    exact ⟨_, rfl, rfl⟩

theorem Launch.Inv.init (L : Launch F) : L.Inv L.init := by
  have hpc : ∀ t, (L.init.thr t).pc = 0 := fun _ => rfl
  have hpast : ∀ {x k}, ¬L.init.Past x k := Nat.not_lt_zero _
  refine ⟨fun _ => Nat.zero_le _, fun n _ _ _ hn => absurd hn (Nat.not_lt_zero n),
    fun t n k hnk _ => ?_, fun x hx => absurd rfl hx, fun _ _ hp => absurd hp hpast,
    fun _ _ hp => absurd hp hpast, fun _ _ hp => absurd hp hpast⟩
  rw [hpc] at hnk
  exact ⟨by omega, by omega, by omega, by omega, by omega⟩

/-- The lane that is furthest behind can go on. -/
theorem Launch.Inv.live (h : L.Inv s) :
    (∀ t, (s.thr t).pc = 35 * L.passes) ∨ ∃ t s', L.step s t = some s' := by
  obtain ⟨t, ht⟩ := Finite.exists_min fun t => (s.thr t).pc
  by_cases hlt : (s.thr t).pc < 35 * L.passes
  · obtain ⟨op, hop⟩ : ∃ op, L.op? s t = some op := ⟨_, (if_pos hlt).trans
      (List.getElem?_eq_getElem (show _ < 35 from Nat.mod_lt _ (by omega)))⟩
    refine .inr ⟨t, ?_⟩
    rw [Launch.step, hop]
    cases op with
    | shuffle i => exact ⟨_, if_pos (ht _)⟩
    | sync => exact ⟨_, if_pos ht⟩
    | _ => exact ⟨_, rfl⟩
  · refine .inl fun u => ?_
    have := h.bound u
    have := ht u
    omega

theorem pack_and (lo hi : Byte) : pack lo hi &&& 0xF = lo &&& 0xF := by
  ext i hi
  interval_cases i <;> simp [pack]

theorem pack_shift (lo hi : Byte) : pack lo hi >>> 4 = hi &&& 0xF := by
  ext i hi
  interval_cases i <;> simp [pack]

theorem Launch.Inv.packed (h : L.Inv s) (hdone : ∀ t, (s.thr t).pc = 35 * L.passes) {e : ℕ}
    (he : e < L.tileS) : s.scale (e / 16) = L.blockScale (e / 16) ∧
      nibbleAt s.fp4 e = L.nib e &&& 0xF := by
  have htile := L.tileS_eq
  have hpasses : L.passes = (L.nblocks + 3) / 4 := Nat.shiftRight_eq_div_pow ..
  have hpast : ∀ {x k}, x < L.tileS → k < 35 → s.Past x k := by
    intro x k hx hk
    rw [State.Past, hdone]
    omega
  refine ⟨h.scale _ (by omega) (hpast (by omega) (by omega)), ?_⟩
  rw [nibbleAt, h.fp4 (e / 2) (by omega) (hpast (by omega) (by omega)), pack_and, pack_shift]
  split
  · rw [show e / 2 * 2 = e by omega]
  · rw [show e / 2 * 2 + 1 = e by omega]

end

/-- What holds in a state of stage 3b. -/
structure Launch.Sound (L : Launch F) (s : State F) : Prop where
  /-- A BF16 value is read as it was at the start. -/
  unread : ∀ t, L.op? s t = some .loadBf16 →
    ∀ x, x / 2 = elemIdx t (s.thr t).blkIter → s.interm x = L.interm x
  /-- A nibble is stored over a value that has been read. -/
  stored : ∀ t, L.op? s t = some .storeNib → s.Past (elemIdx t (s.thr t).blkIter / 2) 0
  /-- The packer reads the nibbles of its block. -/
  own : ∀ t i j, L.op? s t = some (.loadLo i) ∧ j = i * 2 ∨
      L.op? s t = some (.loadHi i) ∧ j = i * 2 + 1 → L.Packs t (s.thr t).blkIter →
    s.interm (myBlock t (s.thr t).blkIter * 16 + j) = L.nib (myBlock t (s.thr t).blkIter * 16 + j)
  live : (∀ t, (s.thr t).pc = 35 * L.passes) ∨ ∃ t s', L.step s t = some s'
  packed : (∀ t, (s.thr t).pc = 35 * L.passes) → ∀ e < L.tileS,
    s.scale (e / 16) = L.blockScale (e / 16) ∧
    nibbleAt s.fp4 e = L.divToFp4Nibble (L.val e) (L.decodeUe4m3 (s.scale (e / 16))) &&& 0xF

/-- **Packing in place is sound**, in every interleaving, and every interleaving comes to an end. -/
theorem fp4_pack_sound (L : Launch F) : (∀ s, Reach L.step always L.init s → L.Sound s) ∧
    ∀ ts s, run L.step L.init ts = some s → ts.length ≤ 128 * (35 * L.passes) := by
  refine ⟨fun s hs => ?_, fun ts s hs => ?_⟩
  · have h : L.Inv s := hs.invariant _ (.init L) fun s t s' h _ hst => h.step hst
    refine ⟨fun t hop x hx => ?_, fun t hop => ?_, fun t i j hop hp => ?_, h.live,
      fun hd e he => ?_⟩
    · obtain ⟨n, k, hpc, hiter, -, hk, hat⟩ := L.op?_some hop
      exact h.unread hpc (hat.trans_lt (by omega)) (hiter ▸ hx)
    · obtain ⟨n, k, hpc, hiter, -, hk, hat⟩ := L.op?_some hop
      have hk : k = 8 := hat
      have hle := h.sync (35 * n + 6) (.inl (by omega)) t (owner (elemIdx t n / 2)) (by omega)
      have hdiv := myBlock_div t n
      rw [hiter]
      refine lt_of_lt_of_le ?_ hle
      rw [elemIdx]
      omega
    · have hat : ∃ n k, (s.thr t).pc = 35 * n + k ∧ (s.thr t).blkIter = n ∧ 9 < k ∧ j < 16 := by
        rcases hop with ⟨hop, rfl⟩ | ⟨hop, rfl⟩
        all_goals
          obtain ⟨n, k, hpc, hiter, -, -, hi, hk⟩ := L.op?_some hop
          exact ⟨n, k, hpc, hiter, by omega, by omega⟩
      obtain ⟨n, k, hpc, hiter, hk, hj⟩ := hat
      rw [hiter] at hp ⊢
      exact h.nib_own hpc hk hp hj
    · obtain ⟨hsc, hnib⟩ := h.packed hd he
      rw [hsc]
      exact ⟨rfl, hnib⟩
  · have hle := run_length_le (fun s => ∑ t, (35 * L.passes - (s.thr t).pc)) L.Inv
      (fun s t s' h hst => h.step hst) (fun s t s' h hst => ?_) (.init L) hs
    · simpa [Launch.init, Finset.sum_const] using hle
    · obtain ⟨op, hop, hex⟩ := Option.bind_eq_some_iff.mp hst
      obtain ⟨n, k, hpc, -, hn, hk, -⟩ := L.op?_some hop
      obtain ⟨th, hthr, hpc'⟩ := Launch.exec_thr hex
      rw [hthr]
      refine Finset.sum_lt_sum (fun u _ => ?_) ⟨t, Finset.mem_univ t, ?_⟩
      · by_cases hu : u = t
        · rw [hu, Function.update_self]
          omega
        · rw [Function.update_of_ne hu]
      · rw [Function.update_self]
        omega

end Nvllm.Kernel.Fp4Pack
