import Nvllm.KVCache.Accounting
import Nvllm.KVCache.HitShares

/-! # Resetting the prefix cache of an idle manager

`reset_prefix_cache` succeeds if all blocks but the null block are in the free queue. A manager for
attention sinks takes its blocks out of the queue when it is built and keeps them, so that with such
a group the reset never succeeds. Without one it succeeds exactly if no request holds a block.
-/

namespace Nvllm.KVCache

open Nvllm.Run BlockPool List

namespace KVCacheManager

/-- `SinkFullAttentionManager.__init__` for the groups that have a `sink_len`. -/
def takeSinks (sinkLen : ℕ → Option ℕ) : List Manager → BlockPool → Option BlockPool
  | [], p => some p
  | m :: ms, p =>
    match sinkLen m.groupId with
    | none => takeSinks sinkLen ms p
    | some l =>
      if m.spec.isFull = true ∧ 0 < l ∧ l % m.blockSize = 0 then do
        let (_, q) ← p.freeBlockQueue.popleftN ((l / m.blockSize : ℕ) : ℤ)
        takeSinks sinkLen ms { p with freeBlockQueue := q }
      else none

def initWithSinks (c : KVCacheConfig) (sinkLen : ℕ → Option ℕ) : Option KVCacheManager := do
  let k ← init c
  let pool ← takeSinks sinkLen k.managers k.pool
  return { k with pool }

/-- No request's table holds a proper block. -/
def Idle (k : KVCacheManager) : Prop :=
  ∀ m ∈ k.managers, ∀ r, ∀ b ∈ m.table r, b = k.pool.nullBlock

/-- **Reset works when idle.** It succeeds exactly then, and afterwards no block has a hash, every
hit is the null block, and the free queue holds every proper block. -/
structure ResetWorks (k : KVCacheManager) : Prop where
  succeeds : k.resetPrefixCache.1 = true ↔ k.Idle
  hashes : k.resetPrefixCache.1 = true → ∀ b, (k.resetPrefixCache.2.pool.block b).blockHash = none
  hits : k.resetPrefixCache.1 = true → ∀ r hits n,
    k.resetPrefixCache.2.getComputedBlocks r = some (hits, n) →
      ∀ hs ∈ hits, ∀ b ∈ hs, b = k.pool.nullBlock
  free : k.resetPrefixCache.1 = true → ∃ as, k.resetPrefixCache.2.pool.freeBlockQueue.Repr as ∧
    ∀ b, b < k.pool.numGpuBlocks → b ≠ k.pool.nullBlock → b ∈ as

variable {k : KVCacheManager}

theorem references_eq_zero_iff {ms : List Manager} {b : BlockId} :
    references ms b = 0 ↔ ∀ m ∈ ms, ∀ r, b ∉ m.table r := by
  rw [references, sum_eq_zero_iff, forall_mem_map]
  refine forall₂_congr fun m _ => ⟨fun h r hb => ?_, fun h => ?_⟩
  · have hle := TableInv.count_le_occurrences m.reqToBlocks r b
    have hpos : 0 < (m.table r).count b := count_pos_iff.mpr hb
    rw [Manager.table] at hpos
    omega
  · rw [occurrences, Dict.sumBy, sum_eq_zero_iff, forall_mem_map]
    rintro ⟨r, bs⟩ hmem
    refine count_eq_zero.mpr ?_
    have hr := h r
    rwa [Manager.table, Dict.getD, Dict.get?_of_mem hmem] at hr

/-- The free queue lacks only the null block exactly if it holds every proper block. -/
theorem length_eq_iff {n null : ℕ} {as : List BlockId} (hnull : null < n) (hnd : as.Nodup)
    (hproper : ∀ b ∈ as, b < n ∧ b ≠ null) :
    (n : ℤ) - as.length = 1 ↔ ∀ b, b < n → b ≠ null → b ∈ as := by
  have hlen : ((range n).erase null).length + 1 = n := by
    rw [length_erase_of_mem (mem_range.mpr hnull), length_range]
    omega
  have hmem : ∀ b, b ∈ (range n).erase null ↔ b < n ∧ b ≠ null := fun b => by
    rw [nodup_range.mem_erase_iff, mem_range, and_comm]
  have hsub : as.Subperm ((range n).erase null) :=
    hnd.subperm fun b hb => (hmem b).mpr (hproper b hb)
  constructor
  · intro h b hb hne
    exact (hsub.perm_of_length_le (by omega)).mem_iff.mpr ((hmem b).mpr ⟨hb, hne⟩)
  · intro h
    have hle := ((nodup_range.erase null).subperm fun b hb =>
      h b ((hmem b).mp hb).1 ((hmem b).mp hb).2).length_le
    have hge := hsub.length_le
    omega

theorem Inv.resetWorks (h : k.Inv) : k.ResetWorks := by
  obtain ⟨as, hrepr, hfree⟩ := h.ref.free
  have hiff := length_eq_iff h.ref.null_lt hrepr.nodup
    fun b hb => ⟨((hfree b).mp hb).1, ((hfree b).mp hb).2.1⟩
  have hone : k.resetPrefixCache.1 = true ↔ (k.pool.numGpuBlocks : ℤ) - as.length = 1 := by
    simp only [resetPrefixCache, BlockPool.resetPrefixCache, getNumFreeBlocks, hrepr.size]
    split <;> simp_all
  obtain ⟨hshape, -, hhash, -⟩ := resetPrefixCache_spec h.hash
  have hafter (hr : k.resetPrefixCache.1 = true) (b : BlockId) :
      (k.resetPrefixCache.2.pool.block b).blockHash = none := by
    have hempty : k.pool.resetPrefixCache.2.cachedBlockHashToBlock = ∅ := by
      simp only [resetPrefixCache, BlockPool.resetPrefixCache] at hr ⊢
      split at hr
      · cases hr
      · rw [if_neg ‹_›]
    cases hb : (k.pool.resetPrefixCache.2.block b).blockHash with
    | none => exact hb
    | some key =>
      have hstores := (hhash.stores b key).mp hb
      rw [hempty] at hstores
      simp [BlockHashToBlockMap.Stores] at hstores
  refine ⟨?_, hafter, fun hr r hits n he hs hmem b hb => ?_, fun hr => ⟨as, ?_, ?_⟩⟩
  · rw [hone, hiff]
    constructor
    · intro hall m hm r b hb
      by_contra hne
      have hlt : b < k.pool.numGpuBlocks := by
        rw [Manager.table, Dict.getD] at hb
        cases hget : m.reqToBlocks.get? r with
        | none => simp [hget] at hb
        | some bs =>
          rw [hget] at hb
          exact h.lt m hm r bs hget b hb
      exact references_eq_zero_iff.mp ((hfree b).mp (hall b hlt hne)).2.2 m hm r hb
    · intro hidle b hb hne
      refine (hfree b).mpr ⟨hb, hne, references_eq_zero_iff.mpr fun m hm r hmem => ?_⟩
      exact hne (hidle m hm r b hmem)
  · by_contra hne
    obtain ⟨i, hi⟩ := mem_iff_getElem?.mp hmem
    obtain ⟨hash, hsome⟩ := getComputedBlocks_grouped hhash he hi b hb (hshape.nullBlock ▸ hne)
    cases (hafter hr b).symm.trans hsome
  · simp only [resetPrefixCache, BlockPool.resetPrefixCache]
    split <;> exact hrepr
  · exact hiff.mp (hone.mp hr)

theorem takeSinks_none {sinkLen : ℕ → Option ℕ} (h : ∀ g, sinkLen g = none) (ms : List Manager)
    (p : BlockPool) : takeSinks sinkLen ms p = some p := by
  induction ms with
  | nil => rfl
  | cons m ms ih => rw [takeSinks, h, ih]

/-- **Reset works when idle**, in every run without sink groups whose hits fit. -/
theorem reset_works_of_no_sinks {c : KVCacheConfig} {sinkLen : ℕ → Option ℕ}
    {k0 k : KVCacheManager} (h0 : initWithSinks c sinkLen = some k0)
    (hsinks : ∀ g, sinkLen g = none) (h : Reach step CallFits k0 k) : k.ResetWorks := by
  simp only [initWithSinks, bind, Option.bind_eq_some_iff, takeSinks_none hsinks] at h0
  obtain ⟨k1, hinit, p, ⟨⟩, ⟨⟩⟩ := h0
  exact (h.invariant Inv (init_inv hinit) fun _ _ _ hi hf he => step_inv hi hf he).resetWorks

def sinkConfig : KVCacheConfig where
  numBlocks := 5
  specs := [⟨.full false, 2, 0, Nat.two_pos, trivial⟩]
  maxModelLen := 100
  hashBlockSize := 2
  enableCaching := true
  useEagle := false

/-- A request that holds blocks of an ordinary group, two of them hits. -/
theorem busy_manager_resets_when_idle : ∃ k0 k, initWithSinks sinkConfig (fun _ => none) = some k0 ∧
    Reach step CallFits k0 k ∧ k.managers.map (·.table 1) = [[1, 2, 3]] ∧
    k.resetPrefixCache.1 = false ∧ k.ResetWorks := by
  obtain ⟨k0, hk0, k, hk, htable, hbusy⟩ : ∃ k0 ∈ initWithSinks sinkConfig fun _ => none,
      ∃ k ∈ run (guarded CallFits step) k0 (sharedCalls 4 2),
        k.managers.map (·.table 1) = [[1, 2, 3]] ∧ k.resetPrefixCache.1 = false := by
    decide +kernel
  have hreach := Reach.of_guarded_run .init hk
  exact ⟨k0, k, hk0, hreach, htable, hbusy, reset_works_of_no_sinks hk0 (fun _ => rfl) hreach⟩

/-- With one sink block the reset fails right after the start. -/
theorem sinks_block_reset : ∃ k, initWithSinks sinkConfig (fun _ => some 2) = some k ∧ k.Idle ∧
    k.resetPrefixCache.1 = false ∧ ¬ k.ResetWorks := by
  obtain ⟨k, hk, hempty, hfails⟩ : ∃ k ∈ initWithSinks sinkConfig fun _ => some 2,
      (∀ m ∈ k.managers, m.reqToBlocks.entries = []) ∧ k.resetPrefixCache.1 = false := by
    decide +kernel
  have hidle : k.Idle := by
    intro m hm r b hb
    simp [Manager.table, Dict.getD, Dict.get?, hempty m hm, Dict.lookup] at hb
  refine ⟨k, hk, hidle, hfails, fun h => ?_⟩
  cases hfails.symm.trans (h.succeeds.mpr hidle)

end KVCacheManager

end Nvllm.KVCache
