import Nvllm.KVCache.Together

/-! # What removing skipped blocks changes

`remove_skipped_blocks` runs before every check for free blocks, so it is the only trace of a call
that finds too few of them. It never raises, and all it does is put the null block in the place of
blocks outside the attention window. In the align mode of mamba the block with the state of two
steps ago is looked up by an index kept from an earlier call; that index has to stay inside the
table, which is part of what is followed here about that mode.
-/

namespace Nvllm.KVCache

open BlockPool List

namespace Manager

/-! ## The align mode -/

/-- What align mode relies on for request `r` with `s` speculative blocks: the speculative blocks
of a request it remembers lie behind its cached blocks, and the index of the last state block is
inside the table. -/
structure AlignedAt (m : Manager) (s : ℕ) (r : RequestId) : Prop where
  cached : ∀ n, m.numCachedBlock.get? r = some n → n + s ≤ (m.table r).length
  allocated : r ∈ m.allocatedBlockReqs → s + 1 ≤ (m.table r).length
  lastState : ∀ idx, m.lastStateBlockIdx.get? r = some idx → 0 ≤ idx ∧ idx < (m.table r).length

def Aligned (m : Manager) : Prop := ∀ s, m.spec.kind = .mamba .align s → ∀ r, m.AlignedAt s r

/-- The number of tokens whose window decides what is removed: all speculative tokens may still be
rejected. -/
def settledTokens (m : Manager) (totalComputedTokens : ℕ) : ℕ :=
  match m.spec.kind with
  | .mamba _ s => totalComputedTokens - s
  | _ => totalComputedTokens

/-- **Only skipped blocks are removed.** Some blocks of `r` below position `limit` have become the
null block; nothing else of the manager has changed. -/
structure Shrunk (null : BlockId) (r : RequestId) (limit : ℤ) (m m' : Manager) : Prop where
  config : m.SameConfig m'
  numCachedBlock : m'.numCachedBlock = m.numCachedBlock
  cachedBlocksThisStep : m'.cachedBlocksThisStep = m.cachedBlocksThisStep
  lastState : m'.lastStateBlockIdx = m.lastStateBlockIdx
  allocated : m'.allocatedBlockReqs = m.allocatedBlockReqs
  others : ∀ r', r' ≠ r → m'.table r' = m.table r'
  length : (m'.table r).length = (m.table r).length
  position : ∀ j : ℕ, (m'.table r)[j]? = (m.table r)[j]? ∨
    ((m'.table r)[j]? = some null ∧ (j : ℤ) < limit)

section

variable {m m' m1 : Manager} {p p' : BlockPool} {rest : BlockId → ℕ} {r : RequestId}
  {null : BlockId} {limit : ℤ}

theorem Shrunk.refl (m : Manager) : m.Shrunk null r limit m :=
  ⟨.refl m, rfl, rfl, rfl, rfl, fun _ _ => rfl, rfl, fun _ => .inl rfl⟩

theorem Shrunk.trans (h : m.Shrunk null r limit m1) (h' : m1.Shrunk null r limit m') :
    m.Shrunk null r limit m' where
  config := h.config.trans h'.config
  numCachedBlock := h'.numCachedBlock.trans h.numCachedBlock
  cachedBlocksThisStep := h'.cachedBlocksThisStep.trans h.cachedBlocksThisStep
  lastState := h'.lastState.trans h.lastState
  allocated := h'.allocated.trans h.allocated
  others r' hr' := (h'.others r' hr').trans (h.others r' hr')
  length := h'.length.trans h.length
  position j := by
    rcases h'.position j with hj | hj
    · rw [hj]
      exact h.position j
    · exact .inr hj

theorem shrunk_setTable {bs : List BlockId} (hlen : bs.length = (m.table r).length)
    (hpos : ∀ j : ℕ, bs[j]? = (m.table r)[j]? ∨ (bs[j]? = some null ∧ (j : ℤ) < limit)) :
    m.Shrunk null r limit (m.setTable r bs) := by
  have hr : (m.setTable r bs).table r = bs := by rw [table_setTable, if_pos rfl]
  refine ⟨⟨rfl, rfl, rfl, rfl⟩, rfl, rfl, rfl, rfl, fun r' hr' => ?_, ?_, fun j => ?_⟩
  · rw [table_setTable, if_neg hr']
  · rw [hr, hlen]
  · rw [hr]
    exact hpos j

theorem Shrunk.length_table (h : m.Shrunk null r limit m') (r' : RequestId) :
    (m'.table r').length = (m.table r').length := by
  by_cases hr : r' = r
  · rw [hr, h.length]
  · rw [h.others r' hr]

theorem Shrunk.aligned (h : m.Shrunk null r limit m') (ha : m.Aligned) : m'.Aligned := by
  intro s hs r'
  rw [h.config.spec] at hs
  obtain ⟨hcached, halloc, hlast⟩ := ha s hs r'
  constructor
  · rw [h.numCachedBlock, h.length_table]
    exact hcached
  · rw [h.allocated, h.length_table]
    exact halloc
  · rw [h.lastState, h.length_table]
    exact hlast

/-! ## The loop -/

theorem removeLoop_position (null : BlockId) (n : ℕ) (bs : List BlockId) (j : ℕ) :
    (removeLoop null n bs).2[j]? = bs[j]? ∨
      ((removeLoop null n bs).2[j]? = some null ∧ j < n) := by
  induction n generalizing bs with
  | zero => exact .inl rfl
  | succ n ih =>
    unfold removeLoop
    split
    · exact .inl rfl
    · rename_i b hb
      split
      · exact .inl rfl
      · rcases ih (bs.set n null) with hj | ⟨hj, hlt⟩
        · -- position `n` itself has become null
          by_cases hn : n = j
          · subst hn
            refine .inr ⟨?_, Nat.lt_succ_self _⟩
            rw [hj, getElem?_set_self (List.getElem?_eq_some_iff.mp hb).1]
          · rw [getElem?_set_ne hn] at hj
            exact .inl hj
        · exact .inr ⟨hj, by omega⟩

variable {n s : ℕ} {mode : MambaCacheMode}

theorem baseRemoveSkippedBlocks_shrunk (h : m.Good p rest) :
    ∃ m' p', m.baseRemoveSkippedBlocks r n p = some (m', p') ∧
      m.Shrunk p.nullBlock r (m.numSkippedBlocks n) m' := by
  simp only [baseRemoveSkippedBlocks]
  split
  · exact ⟨m, p, rfl, .refl m⟩
  · obtain ⟨hperm, -, hmem⟩ := removeLoop_perm p.nullBlock
      (min (m.numSkippedBlocks n).toNat (m.table r).length) (m.table r)
    obtain ⟨p', hfree, -⟩ := TableInv.free_of_perm h hperm
    refine ⟨_, p', by rw [hfree]; rfl, shrunk_setTable ?_ fun j => ?_⟩
    · exact length_removeLoop _ _ _
    · rcases removeLoop_position p.nullBlock (min (m.numSkippedBlocks n).toNat (m.table r).length)
        (m.table r) j with hj | ⟨hj, hlt⟩
      · exact .inl hj
      · exact .inr ⟨hj, by omega⟩

/-! ## The last state block -/

/-- Mamba keeps the last block of the computed tokens. -/
theorem mamba_numSkippedBlocks (hkind : m.spec.kind = .mamba mode s) (hn : 0 < n) :
    m.numSkippedBlocks n = (cdiv n m.blockSize : ℤ) - 1 := by
  have hcdiv : cdiv n m.blockSize = (n - 1) / m.blockSize + 1 := by
    rw [cdiv, show n + m.blockSize - 1 = n - 1 + m.blockSize by omega,
      Nat.add_div_right _ m.blockSize_pos]
  have htokens : m.getNumSkippedTokens n = ((n - 1 : ℕ) : ℤ) := by
    simp only [getNumSkippedTokens, hkind]
    omega
  rw [numSkippedBlocks, htokens, hcdiv]
  omega

theorem cdiv_zero {b : ℕ} (hb : 0 < b) : cdiv 0 b = 0 := by
  rw [cdiv, Nat.div_eq_zero_iff]
  omega

/-- A block behind which another one starts before the last computed token is skipped. -/
theorem lt_numSkippedBlocks {idx : ℤ} (hkind : m.spec.kind = .mamba mode s) (h0 : 0 ≤ idx)
    (hidx : idx < (cdiv n m.blockSize : ℤ) - 1) : idx < m.numSkippedBlocks n := by
  rcases Nat.eq_zero_or_pos n with rfl | hn
  · rw [cdiv_zero m.blockSize_pos] at hidx
    omega
  · rw [mamba_numSkippedBlocks hkind hn]
    exact hidx

theorem removeLastState_shrunk (h : m.Good p rest) (hkind : m.spec.kind = .mamba mode s)
    (hlast : ∀ idx, m.lastStateBlockIdx.get? r = some idx → 0 ≤ idx ∧ idx < (m.table r).length) :
    ∃ m' p', m.removeLastState r n p = some (m', p') ∧
      m.Shrunk p.nullBlock r (m.numSkippedBlocks n) m' := by
  unfold removeLastState
  cases hget : m.lastStateBlockIdx.get? r with
  | none => exact ⟨m, p, rfl, .refl m⟩
  | some idx =>
    obtain ⟨h0, hlt⟩ := hlast idx hget
    obtain ⟨j, rfl⟩ := Int.eq_ofNat_of_zero_le h0
    have hj : j < (m.table r).length := by exact_mod_cast hlt
    have hindex : pyIndex (m.table r).length (j : ℤ) = some j := by
      rw [pyIndex, if_pos h0, if_pos hlt, Int.toNat_natCast]
    have helem : (m.table r)[j]? = some ((m.table r)[j]) := getElem?_eq_getElem hj
    dsimp only
    split
    · rename_i hidx
      have hskip := lt_numSkippedBlocks hkind h0 hidx
      simp only [hindex, helem, bind, Option.bind_some]
      split
      · rename_i hnull
        have hperm := held_set_perm helem hnull
        obtain ⟨p', hfree, -, hs, -⟩ :=
          TableInv.free_of_perm h (singleton_append ▸ hperm)
        refine ⟨_, p', by rw [hfree]; rfl, ?_⟩
        rw [hs.nullBlock]
        refine shrunk_setTable length_set fun i => ?_
        by_cases hi : j = i
        · subst hi
          exact .inr ⟨getElem?_set_self hj, hskip⟩
        · exact .inl (getElem?_set_ne hi)
      · exact ⟨_, p, rfl, shrunk_setTable rfl fun _ => .inl rfl⟩
    · exact ⟨m, p, rfl, .refl m⟩

/-- **Removing skipped blocks** never raises and changes only entries outside the window. -/
theorem removeSkippedBlocks_shrunk (h : m.Good p rest) (ha : m.Aligned) :
    ∃ m' p', m.removeSkippedBlocks r n p = some (m', p') ∧
      m.Shrunk p.nullBlock r (m.numSkippedBlocks (m.settledTokens n)) m' := by
  unfold removeSkippedBlocks
  split
  · rename_i mode s hkind
    have hsettled : m.settledTokens n = n - s := by simp only [settledTokens, hkind]
    obtain ⟨m1, p1, hbase, hshrunk⟩ :=
      baseRemoveSkippedBlocks_shrunk (r := r) (n := n - s) h
    obtain ⟨hkeeps, -⟩ := (baseRemoveSkippedBlocks_drops hbase).keeps h
    rw [hsettled]
    by_cases hmode : mode = .align
    · subst hmode
      have hkind1 : m1.spec.kind = .mamba .align s := by rw [hshrunk.config.spec, hkind]
      obtain ⟨m', p', hlast, hshrunk'⟩ := removeLastState_shrunk (n := n - s) hkeeps.good
        hkind1 (hshrunk.aligned ha s hkind1 r).lastState
      rw [hkeeps.shape.nullBlock, hshrunk.config.numSkippedBlocks] at hshrunk'
      refine ⟨m', p', ?_, hshrunk.trans hshrunk'⟩
      simp only [bind, hbase, Option.bind_some, if_true]
      exact hlast
    · refine ⟨m1, p1, ?_, hshrunk⟩
      simp only [bind, hbase, Option.bind_some, if_neg hmode]
      rfl
  · rename_i hkind
    have hsettled : m.settledTokens n = n := by
      unfold settledTokens
      split
      · rename_i mode s hm
        exact absurd hm (hkind mode s)
      · rfl
    rw [hsettled]
    exact baseRemoveSkippedBlocks_shrunk h

theorem Good.removeSkippedBlocks (h : m.Good p rest) (ha : m.Aligned)
    (he : m.removeSkippedBlocks r n p = some (m', p')) : m.Keeps m' p p' rest ∧
      m.Shrunk p.nullBlock r (m.numSkippedBlocks (m.settledTokens n)) m' ∧ p.SameHashes p' := by
  obtain ⟨m1, p1, he1, hshrunk⟩ := removeSkippedBlocks_shrunk (r := r) (n := n) h ha
  obtain ⟨rfl, rfl⟩ : m1 = m' ∧ p1 = p' := by simpa using he1.symm.trans he
  obtain ⟨m2, p2, hd, hd'⟩ := removeSkippedBlocks_drops he
  exact ⟨(removeSkippedBlocks_keeps h he).1, hshrunk, hd.hashes.trans hd'.hashes⟩

end

end Manager

end Nvllm.KVCache
