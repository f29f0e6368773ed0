import Nvllm.KVCache.Uncached

/-! # What one group takes from the free queue

`get_num_blocks_to_allocate` says how many blocks a group will take, `allocate_new_computed_blocks`
and `allocate_new_blocks` take them. Here it is shown when the two of them succeed, how many free
blocks they use up, and that this is no more than what the first one has announced. The announced
number and the number taken are computed from different formulas, and for the align mode of mamba
they agree only if the table is no longer than what the tokens of the call require.
-/

namespace Nvllm.KVCache

open BlockPool Nvllm.Reserve List

/-! ## The pool -/

namespace BlockPool

variable {p p' : BlockPool} {occ : BlockId → ℕ}

theorem RefInv.getNumFreeBlocks_eq (h : p.RefInv occ) :
    p.getNumFreeBlocks = p.getAllFreeBlocks.length := by
  obtain ⟨as, has, -⟩ := h.free
  rw [getNumFreeBlocks, getAllFreeBlocks, has.toList_eq, has.size]

theorem Queued.perm {as as' : List BlockId} (h : p.Queued as) (h' : p.Queued as') :
    as.Perm as' := by
  rw [perm_ext_iff_of_nodup h.holds.nodup h'.holds.nodup]
  intro b
  rw [h.mem_iff, h'.mem_iff]

/-- There are fewer free blocks than blocks. -/
theorem Queued.length_lt {as : List BlockId} (h : p.Queued as)
    (hnull : p.nullBlock < p.numGpuBlocks) : as.length < p.numGpuBlocks := by
  have hsub : (p.nullBlock :: as) ⊆ range p.numGpuBlocks := by
    intro b hb
    rw [mem_range]
    rcases mem_cons.mp hb with rfl | hb
    · exact hnull
    · exact ((h.mem_iff b).mp hb).1
  have hnd : (p.nullBlock :: as).Nodup :=
    nodup_cons.mpr ⟨fun hb => ((h.mem_iff _).mp hb).2.1 rfl, h.holds.nodup⟩
  have hle := (hnd.subperm hsub).length_le
  simp only [length_cons, length_range] at hle
  omega

/-- **`get_new_blocks`** succeeds if there are enough free blocks. -/
theorem getNewBlocks_some (h : p.RefInv occ) (hh : p.HashInv) {n : ℕ}
    (hn : n ≤ p.getAllFreeBlocks.length) : ∃ bs p', p.getNewBlocks n = some (bs, p') := by
  obtain ⟨as, has, hmem⟩ := h.free
  rw [getAllFreeBlocks, has.toList_eq] at hn
  have hsize : (n : ℤ) ≤ p.freeBlockQueue.size := by
    rw [has.size]
    omega
  obtain ⟨q, hq, -⟩ := has.holds.popleftN_of_le (n := n) hn (.inr hsize)
  have hfresh : ∀ b ∈ as.take n, b < p.blocks.length ∧ (p.block b).refCnt = 0 := by
    intro b hb
    obtain ⟨hlt, hnull, hzero⟩ := (hmem b).mp (mem_of_mem_take hb)
    refine ⟨h.length ▸ hlt, ?_⟩
    rw [h.ref b hnull, hzero]
    rfl
  obtain ⟨p', hp', -⟩ := takeLoop_spec (p := { p with freeBlockQueue := q })
    (hh.of_same (.of_queue p q) (.of_queue p q)) (has.nodup.sublist (take_sublist _ _)) hfresh
  refine ⟨as.take n, p', ?_⟩
  have hfree : ¬ p.getNumFreeBlocks < n := not_lt.mpr hsize
  rw [getNewBlocks, if_neg hfree, hq]
  simp only [bind, Option.bind_some, Int.toNat_natCast, hp']
  rfl

/-- The blocks handed out are missing in the queue. -/
theorem length_getNewBlocks (h : p.RefInv occ) (hh : p.HashInv) {n : ℕ} {bs : List BlockId}
    (hget : p.getNewBlocks n = some (bs, p')) :
    p.getAllFreeBlocks.length ≤ p'.getAllFreeBlocks.length + n := by
  obtain ⟨-, hqueued, -, -⟩ := (h.queued hh).getNewBlocks hget
  obtain ⟨-, -, -, href, hh', -, -⟩ := getNewBlocks_spec h hh hget
  have hlen := (hqueued.perm (href.queued hh')).length_eq
  rw [length_drop, Int.toNat_natCast] at hlen
  omega

end BlockPool

namespace Manager

section

variable {m m' : Manager} {p p' : BlockPool} {rest : BlockId → ℕ} {r : RequestId}
  {hits : List BlockId} {numLocal numExternal : ℕ}

variable {as : List BlockId} {n s main : ℕ}

/-- The hits that are free are those in the queue. -/
theorem getNumEvictableBlocks_eq (h : p.Queued as) (hlt : ∀ b ∈ hits, b < p.numGpuBlocks) :
    getNumEvictableBlocks p hits = hits.countP (· ∈ as) := by
  apply countP_congr
  intro b hb
  have hnull : (p.block b).isNull = false ↔ b ≠ p.nullBlock := by
    rw [← Bool.not_eq_true, h.isNull_iff]
  simp only [decide_eq_true_eq, h.mem_iff, hnull, hlt b hb, true_and]
  exact and_comm

/-! ## Computed blocks -/

/-- The length of the table once the computed blocks are in it. -/
def placedLength (m : Manager) (r : RequestId) (hits : List BlockId)
    (numLocal numExternal : ℕ) : ℕ :=
  (m.numSkippedBlocks (numLocal + numExternal)).toNat +
    (m.claim r hits numLocal numExternal).named.length +
    (m.claim r hits numLocal numExternal).fresh

theorem touchHits_some {occ : BlockId → ℕ} (h : p.RefInv occ) (hlt : ∀ b ∈ hits, b < p.numGpuBlocks)
    (hcaching : m.enableCaching = false → hits = []) : ∃ p', m.touchHits hits p = some p' := by
  unfold touchHits
  by_cases hc : m.enableCaching = true
  · obtain ⟨p', hp', -⟩ := touch_spec h hlt
    exact ⟨p', by rw [if_pos hc, hp']⟩
  · exact ⟨p, by rw [if_neg hc, if_pos (hcaching (by simpa using hc))]⟩

/-- The number of new blocks for external tokens, as a number of the claim. -/
theorem fresh_eq (htakes : m.takesHits r = true)
    (hext : 0 < m.externalInWindow (numLocal + numExternal) numExternal) (null : BlockId)
    (hfit : 0 < numExternal → hits.length ≤ cdiv (numLocal + numExternal) m.blockSize) :
    (cdiv (numLocal + numExternal) m.blockSize : ℤ) -
        (replicate (m.numSkippedBlocks (numLocal + numExternal)).toNat null ++
          m.hitsInWindow (numLocal + numExternal) hits).length =
      ((m.claim r hits numLocal numExternal).fresh : ℤ) := by
  have hle := padded_le hfit hext
  simp only [claim, htakes, if_true, if_pos hext, length_append, length_replicate]
  omega

/-- **Computed blocks** can be added if the claim of the group costs no more than what is free. -/
theorem addComputedBlocks_some (h : m.Good p rest) (hhits : Hits p hits)
    (htakes : m.takesHits r = true) (hcaching : m.enableCaching = false → hits = [])
    (hfit : 0 < numExternal → hits.length ≤ cdiv (numLocal + numExternal) m.blockSize)
    (hroom : (m.claim r hits numLocal numExternal).cost p.getAllFreeBlocks ≤
      p.getAllFreeBlocks.length) :
    ∃ m' p', m.addComputedBlocks r hits numLocal numExternal p = some (m', p') ∧
      (m'.table r).length = m.placedLength r hits numLocal numExternal ∧
      m'.numCachedBlock = m.numCachedBlock.set r
        ((m.numSkippedBlocks (numLocal + numExternal)).toNat +
          (m.claim r hits numLocal numExternal).named.length) ∧
      m'.lastStateBlockIdx = m.lastStateBlockIdx := by
  have hnamed : (m.claim r hits numLocal numExternal).named =
      m.hitsInWindow (numLocal + numExternal) hits := by simp only [claim, htakes, if_true]
  have hlt : ∀ b ∈ m.hitsInWindow (numLocal + numExternal) hits, b < p.numGpuBlocks := by
    intro b hb
    rw [hitsInWindow_eq] at hb
    exact hhits.lt b (mem_of_mem_drop hb)
  obtain ⟨p1, htouch⟩ := touchHits_some (m := m) h.ref hlt fun hc => by
    rw [hcaching hc, hitsInWindow_eq, drop_nil]
  obtain ⟨href, hs, hh⟩ := touchHits_spec h.ref hlt htouch
  simp only [addComputedBlocks, bind, htouch, Option.bind_some]
  by_cases hext : 0 < m.externalInWindow (numLocal + numExternal) numExternal
  · rw [if_pos hext, fresh_eq htakes hext p1.nullBlock hfit]
    -- touching has left enough blocks for the external tokens
    obtain ⟨hqueued, -, -⟩ := touchHits_queued (h.ref.queued h.hash) hlt htouch
    have hleft := (hqueued.perm (href.queued (h.hash.of_same hs hh))).length_eq
    have hcost := length_le_without (h.ref.queued h.hash).holds.nodup
      (m.hitsInWindow (numLocal + numExternal) hits)
    rw [Claim.cost, hnamed] at hroom
    obtain ⟨new, p2, hget⟩ := getNewBlocks_some (n := (m.claim r hits numLocal numExternal).fresh)
      href (h.hash.of_same hs hh) (by omega)
    have hlen := (getNewBlocks_spec href (h.hash.of_same hs hh) hget).1
    rw [hget]
    refine ⟨_, p2, rfl, ?_, ?_, rfl⟩
    · rw [table_setTable, if_pos rfl, placedLength, hnamed, length_append,
        length_append, length_replicate, hlen]
    · rw [hnamed, length_append, length_replicate]
      rfl
  · rw [if_neg hext]
    have hfresh : (m.claim r hits numLocal numExternal).fresh = 0 := by
      simp only [claim, htakes, if_true, if_neg hext]
    refine ⟨_, p1, rfl, ?_, ?_, rfl⟩
    · rw [table_setTable, if_pos rfl, placedLength, hnamed, hfresh, length_append,
        length_replicate, Nat.add_zero]
    · rw [hnamed, length_append, length_replicate]
      rfl

/-! ## New blocks -/

/-- The number of blocks that `allocate_new_blocks` takes if the table has `len` blocks. -/
def newBlocksTaken (m : Manager) (r : RequestId) (numTokens numTokensMainModel len : ℕ) : ℕ :=
  match m.spec.kind with
  | .mamba mode s =>
    if mode = .align then
      if cdiv numTokensMainModel m.blockSize + s ≤ len then 0
      else if r ∈ m.allocatedBlockReqs then 1
      else cdiv numTokensMainModel m.blockSize + s -
        max len (cdiv numTokensMainModel m.blockSize - 1)
    else cdiv (numTokens + m.blockSize * s) m.blockSize - len
  | _ => cdiv numTokens m.blockSize - len

theorem newBlocksTaken_eq (hkind : ∀ mode s, m.spec.kind ≠ .mamba mode s) (n l len : ℕ) :
    m.newBlocksTaken r n l len = cdiv n m.blockSize - len := by
  unfold newBlocksTaken
  split
  · rename_i mode s hm
    exact absurd hm (hkind mode s)
  · rfl

theorem baseAllocateNewBlocks_some (h : m.Good p rest)
    (hroom : cdiv n m.blockSize - (m.table r).length ≤ p.getAllFreeBlocks.length) :
    ∃ new m' p', m.baseAllocateNewBlocks r n p = some (new, m', p') ∧
      p.getAllFreeBlocks.length ≤
        p'.getAllFreeBlocks.length + (cdiv n m.blockSize - (m.table r).length) := by
  simp only [baseAllocateNewBlocks]
  split
  · exact ⟨[], _, p, rfl, by omega⟩
  · obtain ⟨new, p', hget⟩ := getNewBlocks_some h.ref h.hash hroom
    rw [show (cdiv n m.blockSize : ℤ) - (m.table r).length =
      ((cdiv n m.blockSize - (m.table r).length : ℕ) : ℤ) by omega, hget]
    exact ⟨new, _, p', rfl, length_getNewBlocks h.ref h.hash hget⟩

/-- The loop over the speculative blocks succeeds if they are in the table. -/
theorem moveLoop_some (null : BlockId) (k : ℤ) (n : ℕ) {i : ℤ} (bs : List BlockId) (h0 : 0 ≤ i)
    (hlen : i + n ≤ bs.length) : ∃ bs', moveLoop null k n i bs = some bs' := by
  induction n generalizing i bs with
  | zero => exact ⟨bs, rfl⟩
  | succ n ih =>
    unfold moveLoop
    split
    · obtain ⟨j, rfl⟩ := Int.eq_ofNat_of_zero_le h0
      have hj : j < bs.length := by omega
      have hindex : pyIndex bs.length (j : ℤ) = some j := by
        rw [pyIndex, if_pos h0, if_pos (by omega), Int.toNat_natCast]
      simp only [hindex, bind, Option.bind_some, getElem?_eq_getElem hj]
      apply ih
      · omega
      · simp only [length_set, length_append, length_singleton]
        omega
    · exact ⟨bs, rfl⟩

/-- Preparing the table succeeds; then one block is missing if the speculative blocks were moved,
and otherwise those behind the padding. -/
theorem alignTable_some (null : BlockId) (s required : ℕ) (allocated : Bool) (bs : List BlockId)
    (hlt : bs.length < required) (hspec : allocated = true → s ≤ bs.length) :
    ∃ moved, alignTable null s required allocated bs = some moved ∧
      moved.length = if allocated then required - 1 else max bs.length (required - s - 1) := by
  simp only [alignTable]
  generalize hn : ((required : ℤ) - s - 1 - bs.length).toNat = n
  have hpad : (bs ++ replicate n null).length = bs.length + n := by simp
  cases allocated with
  | false =>
    refine ⟨_, rfl, ?_⟩
    simp only [Bool.false_eq_true, if_false]
    omega
  | true =>
    have hspec := hspec rfl
    obtain ⟨moved, hmoved⟩ := moveLoop_some null ((required : ℤ) - s - 1) s
      (i := (bs.length : ℤ) - s) (bs ++ replicate n null) (by omega)
      (by rw [hpad]; omega)
    refine ⟨moved, hmoved, ?_⟩
    have hlen := moveLoop_length hmoved
    simp only [if_true]
    omega

theorem alignAllocateNewBlocks_some (h : m.Good p rest) (hkind : m.spec.kind = .mamba .align s)
    (hle : (m.table r).length ≤ cdiv n m.blockSize + s)
    (halloc : r ∈ m.allocatedBlockReqs → s + 1 ≤ (m.table r).length) (numTokens : ℕ)
    (hroom : m.newBlocksTaken r numTokens n (m.table r).length ≤ p.getAllFreeBlocks.length) :
    ∃ new m' p', m.alignAllocateNewBlocks s r n p = some (new, m', p') ∧
      p.getAllFreeBlocks.length ≤
        p'.getAllFreeBlocks.length + m.newBlocksTaken r numTokens n (m.table r).length := by
  simp only [alignAllocateNewBlocks]
  split
  · exact ⟨[], _, p, rfl, by omega⟩
  · rw [if_neg (by omega)]
    obtain ⟨moved, hmoved, hlen⟩ := alignTable_some p.nullBlock s
      (cdiv n m.blockSize + s) (decide (r ∈ m.allocatedBlockReqs)) (m.table r) (by omega)
      (fun hdec => by
        have := halloc (by simpa using hdec)
        omega)
    have htaken : cdiv n m.blockSize + s - moved.length =
        m.newBlocksTaken r numTokens n (m.table r).length := by
      simp only [newBlocksTaken, hkind, if_true]
      rw [if_neg (by omega), hlen]
      by_cases hr : r ∈ m.allocatedBlockReqs
      · simp only [hr, decide_true, if_true]
        omega
      · simp only [hr, decide_false, Bool.false_eq_true, if_false]
        omega
    have hshort : moved.length ≤ cdiv n m.blockSize + s := by
      rw [hlen]
      split <;> omega
    have hcheck : ((cdiv n m.blockSize + s : ℕ) : ℤ) - moved.length ≤
        ((if decide (r ∈ m.allocatedBlockReqs) = true then 1 else s + 1 : ℕ) : ℤ) := by
      rw [hlen]
      split <;> omega
    obtain ⟨fresh, p', hget⟩ := getNewBlocks_some h.ref h.hash (htaken ▸ hroom)
    have hfree := length_getNewBlocks h.ref h.hash hget
    rw [Int.ofNat_sub hshort] at hget
    simp only [hmoved, bind, Option.bind_some, if_pos hcheck, hget]
    exact ⟨_, _, p', rfl, by rw [← htaken]; exact hfree⟩

/-- What the align mode needs of the table before new blocks are added. -/
def RoomToAlign (m : Manager) (r : RequestId) (numTokensMainModel : ℕ) : Prop :=
  ∀ s, m.spec.kind = .mamba .align s →
    (m.table r).length ≤ cdiv numTokensMainModel m.blockSize + s ∧
      (r ∈ m.allocatedBlockReqs → s + 1 ≤ (m.table r).length)

/-- **New blocks** can be added if there are as many free ones. -/
theorem allocateNewBlocks_some {l : ℕ} (h : m.Good p rest) (halign : m.RoomToAlign r l)
    (hroom : m.newBlocksTaken r n l (m.table r).length ≤ p.getAllFreeBlocks.length) :
    ∃ new m' p', m.allocateNewBlocks r n l p = some (new, m', p') ∧
      p.getAllFreeBlocks.length ≤
        p'.getAllFreeBlocks.length + m.newBlocksTaken r n l (m.table r).length := by
  unfold allocateNewBlocks
  split
  · rename_i mode s hkind
    by_cases hmode : mode = .align
    · subst hmode
      obtain ⟨hle, halloc⟩ := halign s hkind
      exact alignAllocateNewBlocks_some h hkind hle halloc n hroom
    · simp only [newBlocksTaken, hkind, if_neg hmode] at hroom ⊢
      exact baseAllocateNewBlocks_some h hroom
  · rename_i hkind
    rw [newBlocksTaken_eq hkind] at hroom ⊢
    exact baseAllocateNewBlocks_some h hroom

/-! ## The announced number -/

theorem cdiv_mono {a b c : ℕ} (h : a ≤ b) : cdiv a c ≤ cdiv b c :=
  Nat.div_le_div_right (by omega)

/-- The length of the table when new blocks are added. -/
def lengthAfter (m : Manager) (r : RequestId) (hits : List BlockId)
    (numLocal numExternal : ℕ) : ℕ :=
  if m.takesHits r then m.placedLength r hits numLocal numExternal else (m.table r).length

theorem placedLength_eq (htakes : m.takesHits r = true) :
    m.placedLength r hits numLocal numExternal =
      (m.numSkippedBlocks (numLocal + numExternal)).toNat +
        (hits.length - (m.numSkippedBlocks (numLocal + numExternal)).toNat) +
        (m.claim r hits numLocal numExternal).fresh := by
  simp only [placedLength, claim, htakes, if_true, hitsInWindow_eq, length_drop]

variable (hits numLocal numExternal) in
theorem fresh_le (htakes : m.takesHits r = true) :
    (m.claim r hits numLocal numExternal).fresh ≤ cdiv (numLocal + numExternal) m.blockSize -
      ((m.numSkippedBlocks (numLocal + numExternal)).toNat +
        (hits.length - (m.numSkippedBlocks (numLocal + numExternal)).toNat)) ∧
    (numExternal = 0 → (m.claim r hits numLocal numExternal).fresh = 0) := by
  simp only [claim, htakes, if_true, hitsInWindow_eq, length_drop]
  have hle := m.externalInWindow_le (numLocal + numExternal) numExternal
  split
  · omega
  · exact ⟨Nat.zero_le _, fun _ => rfl⟩

/-- The base class announces at least what a new request takes. -/
theorem base_announced_fresh (h : p.Queued as) (hlt : ∀ b ∈ hits, b < p.numGpuBlocks)
    (htakes : m.takesHits r = true) (hempty : m.table r = []) (hle : numLocal + numExternal ≤ n) :
    ∃ need, m.baseNumBlocksToAllocate p r n hits (numLocal + numExternal) = some need ∧ 0 ≤ need ∧
      ((m.claim r hits numLocal numExternal).cost as + (cdiv n m.blockSize -
        m.placedLength r hits numLocal numExternal) : ℕ) ≤ need := by
  have hnot : ¬ m.numCachedBlock.contains r = true := by
    intro hc
    simp [takesHits, hc] at htakes
  have hevict : getNumEvictableBlocks p
      (hits.drop (m.numSkippedBlocks (numLocal + numExternal)).toNat) =
      (m.claim r hits numLocal numExternal).named.countP (· ∈ as) := by
    rw [getNumEvictableBlocks_eq h fun b hb => hlt b (mem_of_mem_drop hb)]
    simp only [claim, htakes, if_true, hitsInWindow_eq]
  obtain ⟨hfresh, -⟩ := fresh_le hits numLocal numExternal htakes
  have hmono := cdiv_mono (c := m.blockSize) hle
  simp only [baseNumBlocksToAllocate, hempty, length_nil, if_neg hnot, Int.natCast_zero,
    sub_zero, add_zero]
  rw [show (max 0 (m.numSkippedBlocks (numLocal + numExternal))).toNat =
    (m.numSkippedBlocks (numLocal + numExternal)).toNat by omega, hevict, Claim.cost,
    placedLength_eq htakes]
  refine ⟨_, rfl, by omega, ?_⟩
  omega

/-- It announces at least what a request with a table takes, if the table covers the skipped
blocks. -/
theorem base_announced {total : ℕ} (hskip : m.numSkippedBlocks total ≤ (m.table r).length) :
    ∃ need, m.baseNumBlocksToAllocate p r n [] total = some need ∧ 0 ≤ need ∧
      ((cdiv n m.blockSize - (m.table r).length : ℕ) : ℤ) ≤ need := by
  simp only [baseNumBlocksToAllocate]
  split
  · exact ⟨_, rfl, by omega, by omega⟩
  · refine ⟨_, rfl, ?_, ?_⟩
    · omega
    · simp only [length_nil, drop_nil, getNumEvictableBlocks, countP_nil]
      omega

/-- The align mode announces at least what a new request takes, if external tokens come without a
block for new tokens. -/
theorem align_announced_fresh (h : p.Queued as) (hlt : ∀ b ∈ hits, b < p.numGpuBlocks)
    (hkind : m.spec.kind = .mamba .align s) (htakes : m.takesHits r = true)
    (hempty : m.table r = []) (hr : r ∉ m.allocatedBlockReqs)
    (hhits : hits.length ≤ cdiv (numLocal + numExternal) m.blockSize)
    (hmain : numLocal + numExternal ≤ main) (hext : numExternal = 0 ∨
      cdiv main m.blockSize = cdiv (numLocal + numExternal) m.blockSize) :
    0 ≤ m.alignNumBlocksToAllocate p s r hits main ∧
      ((m.claim r hits numLocal numExternal).cost as + m.newBlocksTaken r n main
        (m.placedLength r hits numLocal numExternal) : ℕ) ≤
        m.alignNumBlocksToAllocate p s r hits main := by
  have hmono := cdiv_mono (c := m.blockSize) hmain
  obtain ⟨hfresh, hnone⟩ := fresh_le hits numLocal numExternal htakes
  have hnamed : (m.claim r hits numLocal numExternal).named.countP (· ∈ as) ≤
      getNumEvictableBlocks p hits := by
    rw [getNumEvictableBlocks_eq h hlt]
    simp only [claim, htakes, if_true, hitsInWindow_eq]
    exact (drop_sublist _ _).countP_le
  have hskip : (m.numSkippedBlocks (numLocal + numExternal)).toNat =
      cdiv (numLocal + numExternal) m.blockSize - 1 := by
    rcases Nat.eq_zero_or_pos (numLocal + numExternal) with hz | hz
    · rw [hz, cdiv_zero m.blockSize_pos]
      simp only [numSkippedBlocks, getNumSkippedTokens, hkind]
      have hbs := m.blockSize_pos
      have : ((0 : ℕ) - 1 : ℤ) / m.blockSize < 0 := Int.ediv_neg_of_neg_of_pos (by omega) (by omega)
      omega
    · rw [mamba_numSkippedBlocks hkind hz]
      omega
  simp only [alignNumBlocksToAllocate, newBlocksTaken, hkind, if_true, hempty, length_nil,
    if_neg hr, Claim.cost, placedLength_eq htakes, hskip] at hfresh ⊢
  generalize (m.claim r hits numLocal numExternal).fresh = fresh at *
  generalize cdiv (numLocal + numExternal) m.blockSize = t at *
  generalize cdiv main m.blockSize = c at *
  constructor
  · split <;> omega
  · rcases hext with hext | hext
    · split <;> split <;> push_cast <;> omega
    · split <;> split <;> push_cast <;> omega

theorem align_announced (hkind : m.spec.kind = .mamba .align s)
    (hle : (m.table r).length ≤ cdiv main m.blockSize + s) :
    0 ≤ m.alignNumBlocksToAllocate p s r [] main ∧
      (m.newBlocksTaken r n main (m.table r).length : ℤ) ≤
        m.alignNumBlocksToAllocate p s r [] main := by
  simp only [alignNumBlocksToAllocate, newBlocksTaken, hkind, if_true, length_nil,
    getNumEvictableBlocks, countP_nil]
  constructor
  · split
    · split <;> omega
    · omega
  · split
    · split
      · split <;> omega
      · omega
    · split
      · split
        · omega
        · omega
      · omega

/-- Mamba outside the align mode counts its speculative blocks with the block size of the spec and
takes them with the block size of the manager. -/
def SameSpeculation (m : Manager) : Prop :=
  ∀ mode s, m.spec.kind = .mamba mode s → mode ≠ .align → m.worldSize ≤ 1 ∨ s = 0

theorem SameSpeculation.mul_eq (h : m.SameSpeculation) {mode : MambaCacheMode}
    (hkind : m.spec.kind = .mamba mode s) (hmode : mode ≠ .align) :
    m.spec.blockSize * s = m.blockSize * s := by
  rcases h mode s hkind hmode with hw | hs
  · rw [blockSize, if_neg (by omega)]
  · rw [hs, Nat.mul_zero, Nat.mul_zero]

/-- **A new request.** What the group announces is at least what it takes, unless it announces more
than the pool has. -/
theorem getNumBlocksToAllocate_fresh (h : p.Queued as) (hlt : ∀ b ∈ hits, b < p.numGpuBlocks)
    (htakes : m.takesHits r = true) (hempty : m.table r = []) (hspec : m.SameSpeculation)
    (hn : numLocal + numExternal ≤ n) (hmain : numLocal + numExternal ≤ main)
    (halign : ∀ s, m.spec.kind = .mamba .align s → r ∉ m.allocatedBlockReqs ∧
      hits.length ≤ cdiv (numLocal + numExternal) m.blockSize ∧
      (numExternal = 0 ∨
        cdiv main m.blockSize = cdiv (numLocal + numExternal) m.blockSize)) :
    ∃ need, m.getNumBlocksToAllocate p r n hits (numLocal + numExternal) main = some need ∧
      0 ≤ need ∧ (need ≤ p.numGpuBlocks →
        ((m.claim r hits numLocal numExternal).cost as + m.newBlocksTaken r n main
          (m.placedLength r hits numLocal numExternal) : ℕ) ≤ need) := by
  unfold getNumBlocksToAllocate
  split
  · rename_i mode s hkind
    split
    · exact ⟨_, rfl, by omega, fun hle => by omega⟩
    · split
      · rename_i hmode
        subst hmode
        obtain ⟨hr, hhits, hext⟩ := halign s hkind
        obtain ⟨h0, hle⟩ := align_announced_fresh (n := n) h hlt hkind htakes hempty hr hhits hmain
          hext
        exact ⟨_, rfl, h0, fun _ => hle⟩
      · rename_i hmode
        rw [hspec.mul_eq hkind hmode]
        obtain ⟨need, hneed, h0, hle⟩ := base_announced_fresh h hlt htakes hempty
          (show numLocal + numExternal ≤ n + m.blockSize * s from Nat.le_add_right_of_le hn)
        refine ⟨need, hneed, h0, fun _ => ?_⟩
        simp only [newBlocksTaken, hkind, if_neg hmode]
        exact hle
  · rename_i hkind
    obtain ⟨need, hneed, h0, hle⟩ := base_announced_fresh (n := n) h hlt htakes hempty hn
    exact ⟨need, hneed, h0, fun _ => by rwa [newBlocksTaken_eq hkind]⟩

/-- **A request without hits and external tokens.** -/
theorem getNumBlocksToAllocate_running (n main total : ℕ)
    (hskip : m.numSkippedBlocks total ≤ (m.table r).length) (hspec : m.SameSpeculation)
    (halign : ∀ s, m.spec.kind = .mamba .align s →
      (m.table r).length ≤ cdiv main m.blockSize + s) :
    ∃ need, m.getNumBlocksToAllocate p r n [] total main = some need ∧ 0 ≤ need ∧
      (m.newBlocksTaken r n main (m.table r).length : ℤ) ≤ need := by
  unfold getNumBlocksToAllocate
  split
  · rename_i mode s hkind
    rw [if_neg (by simp [hitsThisStep])]
    split
    · rename_i hmode
      subst hmode
      obtain ⟨h0, hle⟩ := align_announced (p := p) (n := n) hkind (halign s hkind)
      exact ⟨_, rfl, h0, hle⟩
    · rename_i hmode
      rw [hspec.mul_eq hkind hmode]
      obtain ⟨need, hneed, h0, hle⟩ := base_announced (p := p) (n := n + m.blockSize * s) hskip
      refine ⟨need, hneed, h0, ?_⟩
      simp only [newBlocksTaken, hkind, if_neg hmode]
      exact hle
  · rename_i hkind
    obtain ⟨need, hneed, h0, hle⟩ := base_announced (p := p) (n := n) hskip
    exact ⟨need, hneed, h0, by rwa [newBlocksTaken_eq hkind]⟩

end

end Manager

end Nvllm.KVCache
