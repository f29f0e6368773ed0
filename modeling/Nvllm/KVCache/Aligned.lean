import Nvllm.KVCache.Uncached

/-! # The align mode through the methods of a manager

In align mode the speculative blocks of the previous step are found by counting from the end of
the table, and the block of the last state by an index from an earlier call. Both stay valid as
long as the table covers the tokens that are cached and `num_speculative_blocks` more blocks. Each
method works on one request; for all others nothing that matters here changes.
-/

namespace Nvllm.KVCache

open BlockPool

namespace Manager

section

variable {m m' m1 : Manager} {p p' : BlockPool} {rest : BlockId → ℕ} {r r' : RequestId} {s : ℕ}

theorem Only.alignedAt (h : m.Only r m') (hr' : r' ≠ r) (ha : m.AlignedAt s r') :
    m'.AlignedAt s r' := by
  obtain ⟨hcached, halloc, hlast⟩ := ha
  constructor
  · rw [h.cached r' hr', h.table r' hr']
    exact hcached
  · rw [h.allocated r' hr', h.table r' hr']
    exact halloc
  · rw [h.lastState r' hr', h.table r' hr']
    exact hlast

/-- A manager that is aligned for the other requests and for `r`. -/
theorem Only.aligned (h : m.Only r m')
    (hothers : ∀ s, m.spec.kind = .mamba .align s → ∀ r', r' ≠ r → m.AlignedAt s r')
    (hr : ∀ s, m.spec.kind = .mamba .align s → m'.AlignedAt s r) : m'.Aligned := by
  intro s hs r'
  rw [h.config.spec] at hs
  by_cases hr' : r' = r
  · exact hr' ▸ hr s hs
  · exact h.alignedAt hr' (hothers s hs r' hr')

variable {n : ℕ} {new : List BlockId}

/-- Caching changes nothing but how many blocks of `r` are cached. -/
theorem cacheBlocks_cases {hashes : List Bytes} (he : m.cacheBlocks r hashes n p = some (m', p')) :
    m.Only r m' ∧ m'.table r = m.table r ∧ m'.allocatedBlockReqs = m.allocatedBlockReqs ∧
      m'.lastStateBlockIdx = m.lastStateBlockIdx ∧
      (m'.numCachedBlock = m.numCachedBlock ∨
        m'.numCachedBlock = m.numCachedBlock.set r (n / m.blockSize)) := by
  obtain ⟨m1, keys, hbase, rfl⟩ := cacheBlocks_base he
  rcases baseCacheBlocks_cases hbase with ⟨rfl, -, -⟩ | ⟨-, rfl, -⟩
  · exact ⟨⟨⟨rfl, rfl, rfl, rfl⟩, fun _ _ => rfl, fun _ _ => rfl, fun _ _ => Iff.rfl,
      fun _ _ => rfl⟩, rfl, rfl, rfl, .inl rfl⟩
  · have htable := table_setTable_of_eq (m := m) (r := r) rfl
    exact ⟨⟨⟨rfl, rfl, rfl, rfl⟩, fun r' _ => htable r',
      fun r' hr' => Dict.get?_set_of_ne _ _ hr', fun _ _ => Iff.rfl, fun _ _ => rfl⟩, htable r,
      rfl, rfl, .inr rfl⟩

/-! ## The table stays aligned -/

theorem cacheBlocks_aligned {hashes : List Bytes} (ha : m.Aligned)
    (hle : ∀ s, m.spec.kind = .mamba .align s → n / m.blockSize + s ≤ (m.table r).length)
    (he : m.cacheBlocks r hashes n p = some (m', p')) : m'.Aligned := by
  obtain ⟨honly, htable, halloc, hlast, hcached⟩ := cacheBlocks_cases he
  refine honly.aligned (fun s hs r' _ => ha s hs r') fun s hs => ?_
  obtain ⟨hc, hal, hls⟩ := ha s hs r
  rw [← htable, ← halloc] at hal
  rw [← htable, ← hlast] at hls
  refine ⟨fun k hk => ?_, hal, hls⟩
  rw [htable]
  rcases hcached with heq | heq
  · exact hc k (heq ▸ hk)
  · rw [heq, Dict.get?_set_self] at hk
    cases hk
    exact hle s hs

theorem free_aligned (ha : m.Aligned) (he : m.free r p = some (m', p')) : m'.Aligned := by
  obtain ⟨htable, hspec, halloc⟩ := free_tables he
  intro s hs r'
  rw [hspec] at hs
  have halign : m.isAlign = true := by simp [isAlign, hs]
  have hdicts : m'.numCachedBlock = m.numCachedBlock.erase r ∧
      m'.lastStateBlockIdx = m.lastStateBlockIdx.erase r := by
    simp only [free, hs, bind, Option.bind_eq_some_iff] at he
    obtain ⟨p1, -, he⟩ := he
    cases he
    exact ⟨rfl, rfl⟩
  obtain ⟨hc, hal, hls⟩ := ha s hs r'
  by_cases hr : r' = r
  · subst hr
    refine ⟨fun k hk => ?_, fun hmem => absurd rfl ((halloc r' hmem).2 halign), fun idx hidx => ?_⟩
    · rw [hdicts.1, Dict.get?_erase_self] at hk
      cases hk
    · rw [hdicts.2, Dict.get?_erase_self] at hidx
      cases hidx
  · rw [show m.table r' = m'.table r' by rw [htable, if_neg hr]] at hc hal hls
    refine ⟨fun k hk => hc k ?_, fun hmem => hal (halloc r' hmem).1, fun idx hidx => hls idx ?_⟩
    · rwa [hdicts.1, Dict.get?_erase_of_ne _ hr] at hk
    · rwa [hdicts.2, Dict.get?_erase_of_ne _ hr] at hidx

/-- What is known of request `r` before new blocks are added: its cached blocks are no more than
its tokens need, and the index of the last state is inside the table. -/
structure Alignable (m : Manager) (s : ℕ) (r : RequestId) (numTokensMainModel : ℕ) : Prop where
  pos : 0 < numTokensMainModel
  cached : ∀ k, m.numCachedBlock.get? r = some k → k ≤ cdiv numTokensMainModel m.blockSize
  allocated : r ∈ m.allocatedBlockReqs → s + 1 ≤ (m.table r).length
  lastState : ∀ idx, m.lastStateBlockIdx.get? r = some idx → 0 ≤ idx ∧ idx < (m.table r).length

/-- The index that is noted lies inside the table. -/
theorem recordLastState_lt (h : m.Alignable s r n) {idx : ℤ}
    (hidx : (m.recordLastState r s).lastStateBlockIdx.get? r = some idx) :
    0 ≤ idx ∧ idx < (m.table r).length := by
  simp only [recordLastState] at hidx
  split at hidx
  · rename_i hr
    have := h.allocated hr
    simp only [Dict.get?_set_self, Option.some.injEq] at hidx
    omega
  · split at hidx
    · simp only [Dict.get?_set_self, Option.some.injEq] at hidx
      omega
    · exact h.lastState idx hidx

theorem alignAllocateNewBlocks_alignedAt (h : m.Good p rest) (ha : m.Alignable s r n)
    (he : m.alignAllocateNewBlocks s r n p = some (new, m', p')) :
    m'.AlignedAt s r ∧ (m'.table r).length = cdiv n m.blockSize + s := by
  have hcdiv := cdiv_pos ha.pos m.blockSize_pos
  rcases alignAllocateNewBlocks_cases he with
    ⟨heq, rfl, -⟩ | ⟨moved, fresh, k, hlt, hmoved, hk, -, hget, rfl⟩
  · have htable : (m.setTable r (m.table r)).table r = m.table r := by
      rw [table_setTable, if_pos rfl]
    refine ⟨⟨fun c hc => ?_, fun hr => ?_, fun idx hidx => ?_⟩, by rw [htable, heq]⟩
    · have := ha.cached c hc
      rw [htable]
      omega
    · rw [htable]
      exact ha.allocated hr
    · rw [htable]
      exact ha.lastState idx hidx
  · have hfresh := (getNewBlocks_spec h.ref h.hash hget).1
    have hlen : ((((m.recordLastState r s).remember r).setTable r (moved ++ fresh)).table r).length
        = cdiv n m.blockSize + s := by
      rw [table_setTable, if_pos rfl, List.length_append, hfresh, hk]
    refine ⟨⟨fun c hc => ?_, fun _ => ?_, fun idx hidx => ?_⟩, hlen⟩
    · obtain ⟨idx, hidx, -⟩ := recordLastState_eq m r s
      rw [hidx] at hc
      have := ha.cached c hc
      omega
    · omega
    · have := recordLastState_lt ha hidx
      omega

/-- **New blocks** leave the table as long as the tokens require, and aligned. -/
theorem allocateNewBlocks_aligned {l : ℕ} (h : m.Good p rest)
    (hothers : ∀ s, m.spec.kind = .mamba .align s → ∀ r', r' ≠ r → m.AlignedAt s r')
    (ha : ∀ s, m.spec.kind = .mamba .align s → m.Alignable s r l)
    (he : m.allocateNewBlocks r n l p = some (new, m', p')) :
    m'.Aligned ∧ ∀ s, m.spec.kind = .mamba .align s →
      (m'.table r).length = cdiv l m.blockSize + s := by
  have hr : ∀ s, m.spec.kind = .mamba .align s →
      m'.AlignedAt s r ∧ (m'.table r).length = cdiv l m.blockSize + s := by
    intro s hs
    simp only [allocateNewBlocks, hs, if_true] at he
    exact alignAllocateNewBlocks_alignedAt h (ha s hs) he
  obtain ⟨t, -, hg⟩ := allocateNewBlocks_grows he
  exact ⟨hg.only.aligned hothers fun s hs => (hr s hs).1,
    fun s hs => (hr s hs).2⟩

end

end Manager

end Nvllm.KVCache
