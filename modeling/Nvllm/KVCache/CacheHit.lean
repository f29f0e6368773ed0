import Nvllm.KVCache.BlockHashSound
import Nvllm.KVCache.ManagerInv

/-! # Prefix cache hits of one attention type

`find_longest_cache_hit` of the manager classes. The groups with one spec are looked up together;
the source keeps one list of blocks per group, and all of them always have the same length. Here a
*row* holds the blocks of the groups at one position, and the hits are a list of rows.
-/

namespace Nvllm.KVCache

open List Option

/-- The blocks of the groups at one position. -/
abbrev Row := List BlockId

/-- The list of one group. -/
def column (null : BlockId) (j : ℕ) (rows : List Row) : List BlockId :=
  rows.map fun row => row.getD j null

/-- Length that is left when the last row is popped until the hits end at a multiple of
`alignmentTokens`. -/
def alignedLength (blockSize alignmentTokens : ℕ) : ℕ → ℕ
  | 0 => 0
  | n + 1 =>
    if blockSize ≠ alignmentTokens ∧ (n + 1) * blockSize % alignmentTokens ≠ 0 then
      alignedLength blockSize alignmentTokens n
    else n + 1

def popAligned (blockSize alignmentTokens : ℕ) (rows : List Row) : List Row :=
  rows.take (alignedLength blockSize alignmentTokens rows.length)

/-- The arguments that all classes share. -/
structure Lookup where
  pool : BlockPool
  groupIds : List ℕ
  hashes : List Bytes
  blockSize : ℕ
  alignmentTokens : ℕ
  useEagle : Bool

namespace Lookup

def cached (l : Lookup) (hash : Bytes) : Option Row := l.pool.getCachedBlock hash l.groupIds

def nullRow (l : Lookup) : Row := l.groupIds.map fun _ => l.pool.nullBlock

/-- Not at a multiple of `alignment_tokens` if it ends at block `n`. -/
def Unaligned (l : Lookup) (n : ℕ) : Prop :=
  l.blockSize ≠ l.alignmentTokens ∧ n * l.blockSize % l.alignmentTokens ≠ 0

instance (l : Lookup) (n : ℕ) : Decidable (l.Unaligned n) :=
  inferInstanceAs (Decidable (_ ∧ _))

/-! ## Full attention -/

/-- Hits from the left up to the first miss. -/
def leftHits (l : Lookup) : List Bytes → List Row
  | [] => []
  | h :: hs =>
    match l.cached h with
    | some row => row :: l.leftHits hs
    | none => []

def fullHits (l : Lookup) (maxLength : ℕ) : List Row :=
  let rows := l.leftHits (l.hashes.take (maxLength / l.blockSize))
  let rows := if l.useEagle then rows.dropLast else rows
  popAligned l.blockSize l.alignmentTokens rows

/-! ## Sliding window -/

/-- The search from right to left, over the positions below the first argument. Returns the rows,
the number of contiguous hits and whether enough of them were found. -/
def slidingLoop (l : Lookup) (needed : ℕ) : ℕ → List Row → ℕ → Option (List Row × ℕ × Bool)
  | 0, rows, contiguous => some (rows, contiguous, false)
  | i + 1, rows, contiguous => do
    let hash ← l.hashes[i]?
    match l.cached hash with
    | some row =>
      if contiguous = 0 ∧ l.Unaligned (i + 1) then l.slidingLoop needed i rows contiguous
      else
        let rows := rows.set i row
        let contiguous := contiguous + 1
        if needed ≤ contiguous then some (rows.take (i + contiguous), contiguous, true)
        else l.slidingLoop needed i rows contiguous
    | none => l.slidingLoop needed i rows 0

def slidingHits (l : Lookup) (slidingWindow maxLength : ℕ) : Option (List Row) := do
  let needed := cdiv (slidingWindow - 1) l.blockSize + if l.useEagle then 1 else 0
  let maxNumBlocks := maxLength / l.blockSize
  let (rows, contiguous, found) ←
    l.slidingLoop needed maxNumBlocks (replicate maxNumBlocks l.nullRow) 0
  let rows :=
    if found then rows else popAligned l.blockSize l.alignmentTokens (rows.take contiguous)
  return if l.useEagle then popAligned l.blockSize l.alignmentTokens rows.dropLast else rows

/-! ## Chunked local attention -/

def chunkLoop (l : Lookup) : ℕ → List Bytes → Option (List Row)
  | 0, _ => some []
  | _ + 1, [] => none
  | n + 1, h :: hs =>
    match l.cached h with
    | some row => (l.chunkLoop n hs).map (row :: ·)
    | none => some []

def chunkedHits (l : Lookup) (attentionChunkSize maxLength : ℕ) : Option (List Row) :=
  if l.useEagle = true ∨ l.blockSize ≠ l.alignmentTokens then none
  else
    let start := maxLength / attentionChunkSize * attentionChunkSize / l.blockSize
    (l.chunkLoop (maxLength / l.blockSize - start) (l.hashes.drop start)).map
      (replicate start l.nullRow ++ ·)

/-! ## Mamba -/

/-- The last aligned hit below position `i`, behind null rows. -/
def mambaLoop (l : Lookup) : ℕ → Option (List Row)
  | 0 => some []
  | i + 1 => do
    let hash ← l.hashes[i]?
    match l.cached hash with
    | some row =>
      if l.Unaligned (i + 1) then l.mambaLoop i
      else some (replicate i l.nullRow ++ [row])
    | none => l.mambaLoop i

end Lookup

/-- `find_longest_cache_hit` of the manager class of `spec`. -/
def findLongestCacheHit (pool : BlockPool) (spec : KVCacheSpec) (worldSize : ℕ)
    (groupIds : List ℕ) (hashes : List Bytes) (maxLength : ℕ) (useEagle : Bool)
    (alignmentTokens : ℕ) : Option (List Row) :=
  let l : Lookup :=
    { pool, groupIds, hashes, blockSize := spec.blockSize, alignmentTokens, useEagle }
  match spec.kind with
  | .full _ =>
    let blockSize := if 1 < worldSize then spec.blockSize * worldSize else spec.blockSize
    some ({ l with blockSize }.fullHits maxLength)
  | .slidingWindow w => if worldSize = 1 then l.slidingHits w maxLength else none
  | .chunkedLocal c => if worldSize = 1 then l.chunkedHits c maxLength else none
  | .mamba _ _ => if worldSize = 1 then l.mambaLoop (maxLength / spec.blockSize) else none
  | .crossAttention => none

/-! ## What a hit is -/

/-- Every row is the null row or the cached row of its own position. -/
def RowsCached (p : BlockPool) (groupIds : List ℕ) (hashes : List Bytes) (rows : List Row) :
    Prop :=
  ∀ (i : ℕ) (row : Row), rows[i]? = some row → row = groupIds.map (fun _ => p.nullBlock) ∨
    ∃ hash, hashes[i]? = some hash ∧ p.getCachedBlock hash groupIds = some row

namespace Lookup

def Sound (l : Lookup) (rows : List Row) : Prop := RowsCached l.pool l.groupIds l.hashes rows

variable {l : Lookup} {rows : List Row}

theorem Sound.take (h : l.Sound rows) (n : ℕ) : l.Sound (rows.take n) := by
  intro i row hi
  apply h i row
  rw [getElem?_take] at hi
  split at hi
  · exact hi
  · cases hi

theorem Sound.dropLast (h : l.Sound rows) : l.Sound rows.dropLast := by
  rw [dropLast_eq_take]
  exact h.take _

theorem Sound.popAligned (h : l.Sound rows) (b a : ℕ) : l.Sound (popAligned b a rows) := h.take _

theorem length_popAligned_le (b a : ℕ) : (popAligned b a rows).length ≤ rows.length :=
  length_take_le' _ _

theorem leftHits_sound {hs : List Bytes} {i : ℕ} {row : Row} (h : (l.leftHits hs)[i]? = some row) :
    ∃ hash, hs[i]? = some hash ∧ l.cached hash = some row := by
  induction hs generalizing i with
  | nil => cases h
  | cons hash hs ih =>
    unfold leftHits at h
    split at h
    · rename_i row' hrow
      cases i with
      | zero =>
        cases h
        exact ⟨hash, rfl, hrow⟩
      | succ i => exact ih h
    · cases h

theorem length_leftHits_le (hs : List Bytes) : (l.leftHits hs).length ≤ hs.length := by
  induction hs with
  | nil => exact Nat.le_refl 0
  | cons hash hs ih =>
    unfold leftHits
    split
    · exact Nat.succ_le_succ ih
    · exact Nat.zero_le _

theorem fullHits_sound (maxLength : ℕ) : l.Sound (l.fullHits maxLength) := by
  have hleft : l.Sound (l.leftHits (l.hashes.take (maxLength / l.blockSize))) := by
    intro i row hi
    obtain ⟨hash, hhash, hrow⟩ := leftHits_sound hi
    rw [getElem?_take] at hhash
    split at hhash
    · exact .inr ⟨hash, hhash, hrow⟩
    · cases hhash
  apply Sound.popAligned
  split
  · exact hleft.dropLast
  · exact hleft

theorem length_fullHits_le (maxLength : ℕ) :
    (l.fullHits maxLength).length ≤ min (maxLength / l.blockSize) l.hashes.length := by
  apply (length_popAligned_le _ _).trans
  have hle := length_leftHits_le (l := l) (l.hashes.take (maxLength / l.blockSize))
  rw [length_take] at hle
  split
  · rw [length_dropLast]
    omega
  · omega

theorem Sound.set (h : l.Sound rows) {i : ℕ} {hash : Bytes} {row : Row}
    (hhash : l.hashes[i]? = some hash) (hrow : l.cached hash = some row) :
    l.Sound (rows.set i row) := by
  intro j row' hj
  by_cases hij : i = j
  · subst hij
    rw [getElem?_set] at hj
    split at hj
    · split at hj
      · cases hj
        exact .inr ⟨hash, hhash, hrow⟩
      · cases hj
    · exact h i row' hj
  · rw [getElem?_set_ne hij] at hj
    exact h j row' hj

variable {n : ℕ} {rows : List Row}

/-- The search only ever writes cached rows at their own position. -/
theorem slidingLoop_spec {needed contiguous k : ℕ} {rows' : List Row} {found : Bool}
    (h : l.Sound rows) (he : l.slidingLoop needed n rows contiguous = some (rows', k, found)) :
    l.Sound rows' ∧ rows'.length ≤ rows.length := by
  induction n generalizing rows contiguous with
  | zero =>
    cases he
    exact ⟨h, Nat.le_refl _⟩
  | succ i ih =>
    simp only [slidingLoop, bind, bind_eq_some_iff] at he
    obtain ⟨hash, hhash, he⟩ := he
    split at he
    · rename_i row hrow
      split at he
      · exact ih h he
      · have hset := h.set hhash hrow
        have hlen : (rows.set i row).length = rows.length := length_set
        split at he
        · cases he
          refine ⟨hset.take _, ?_⟩
          rw [← hlen]
          exact length_take_le' _ _
        · obtain ⟨hs, hle⟩ := ih hset he
          exact ⟨hs, hle.trans (Nat.le_of_eq hlen)⟩
    · exact ih h he

theorem replicate_sound (n : ℕ) : l.Sound (replicate n l.nullRow) := by
  intro i row hi
  rw [getElem?_replicate] at hi
  split at hi
  · exact .inl (Option.some.inj hi).symm
  · cases hi

theorem slidingHits_spec {w maxLength : ℕ} (he : l.slidingHits w maxLength = some rows) :
    l.Sound rows ∧ rows.length ≤ maxLength / l.blockSize := by
  simp only [slidingHits, bind, bind_eq_some_iff] at he
  obtain ⟨⟨rows1, k, found⟩, hloop, he⟩ := he
  obtain ⟨hs, hle⟩ := slidingLoop_spec (l.replicate_sound _) hloop
  rw [length_replicate] at hle
  -- both ways of cutting the rows off keep them sound and make them no longer
  have hcut : l.Sound (if found then rows1 else
        popAligned l.blockSize l.alignmentTokens (rows1.take k)) ∧
      (if found then rows1 else
        popAligned l.blockSize l.alignmentTokens (rows1.take k)).length ≤
          maxLength / l.blockSize := by
    split
    · exact ⟨hs, hle⟩
    · refine ⟨(hs.take k).popAligned _ _, (length_popAligned_le _ _).trans ?_⟩
      exact (length_take_le' _ _).trans hle
  obtain rfl := Option.some.inj he
  split
  · refine ⟨hcut.1.dropLast.popAligned _ _, (length_popAligned_le _ _).trans ?_⟩
    rw [length_dropLast]
    exact (Nat.sub_le _ _).trans hcut.2
  · exact hcut

theorem chunkLoop_spec {hs : List Bytes} (he : l.chunkLoop n hs = some rows) : rows.length ≤ n ∧
      ∀ (i : ℕ) (row : Row), rows[i]? = some row →
        ∃ hash, hs[i]? = some hash ∧ l.cached hash = some row := by
  induction n generalizing hs rows with
  | zero =>
    cases he
    exact ⟨Nat.le_refl _, fun i row hi => by simp at hi⟩
  | succ n ih =>
    cases hs with
    | nil => cases he
    | cons hash hs =>
      unfold chunkLoop at he
      split at he
      · rename_i row hrow
        obtain ⟨rows', hrows', rfl⟩ := map_eq_some_iff.mp he
        obtain ⟨hle, hsound⟩ := ih hrows'
        refine ⟨Nat.succ_le_succ hle, fun i row' hi => ?_⟩
        cases i with
        | zero =>
          cases hi
          exact ⟨hash, rfl, hrow⟩
        | succ i => exact hsound i row' hi
      · cases he
        exact ⟨Nat.zero_le _, fun i row hi => by simp at hi⟩

theorem chunkedHits_spec {c maxLength : ℕ} (he : l.chunkedHits c maxLength = some rows) :
    l.Sound rows ∧ rows.length ≤ maxLength / l.blockSize := by
  unfold chunkedHits at he
  split at he
  · cases he
  · obtain ⟨rows', hrows', rfl⟩ := map_eq_some_iff.mp he
    obtain ⟨hle, hsound⟩ := chunkLoop_spec hrows'
    have hstart : maxLength / c * c / l.blockSize ≤ maxLength / l.blockSize :=
      Nat.div_le_div_right (Nat.div_mul_le_self _ _)
    refine ⟨fun i row hi => ?_, ?_⟩
    · rw [getElem?_append, length_replicate] at hi
      split at hi
      · exact l.replicate_sound _ i row hi
      · rename_i hge
        obtain ⟨hash, hhash, hrow⟩ := hsound _ row hi
        rw [getElem?_drop, Nat.add_sub_cancel' (Nat.le_of_not_lt hge)] at hhash
        exact .inr ⟨hash, hhash, hrow⟩
    · rw [length_append, length_replicate]
      omega

theorem mambaLoop_spec (he : l.mambaLoop n = some rows) : l.Sound rows ∧ rows.length ≤ n := by
  induction n with
  | zero =>
    cases he
    exact ⟨fun i row hi => by simp at hi, Nat.le_refl _⟩
  | succ n ih =>
    simp only [mambaLoop, bind, bind_eq_some_iff] at he
    obtain ⟨hash, hhash, he⟩ := he
    split at he
    · rename_i row hrow
      split at he
      · exact ⟨(ih he).1, Nat.le_succ_of_le (ih he).2⟩
      · cases he
        refine ⟨fun i row' hi => ?_, by simp⟩
        rw [getElem?_append, length_replicate] at hi
        split at hi
        · exact l.replicate_sound _ i row' hi
        · have hin : i = n := by
            obtain ⟨hlt, -⟩ := List.getElem?_eq_some_iff.mp hi
            simp only [length_cons, length_nil] at hlt
            omega
          subst hin
          simp only [Nat.sub_self, getElem?_cons_zero, Option.some.injEq] at hi
          exact .inr ⟨hash, hhash, hi ▸ hrow⟩
    · exact ⟨(ih he).1, Nat.le_succ_of_le (ih he).2⟩

end Lookup

variable {groupIds : List ℕ} {hashes : List Bytes} {p : BlockPool} {rows : List Row} {h : Bytes}
  {i j : ℕ} {b : BlockId}

/-- **Hits are cached.** Each entry of a group's list is the null block, or a block that the map
stores for this group under the hash of the same position. -/
theorem findLongestCacheHit_spec {spec : KVCacheSpec} {ws : ℕ} {maxLength align : ℕ} {eagle : Bool}
    (he : findLongestCacheHit p spec ws groupIds hashes maxLength eagle align = some rows) :
    RowsCached p groupIds hashes rows := by
  simp only [findLongestCacheHit] at he
  split at he
  · obtain rfl := Option.some.inj he
    exact Lookup.fullHits_sound (l := ⟨p, groupIds, hashes, _, align, eagle⟩) maxLength
  · split at he
    · exact (Lookup.slidingHits_spec he).1
    · cases he
  · split at he
    · exact (Lookup.chunkedHits_spec he).1
    · cases he
  · split at he
    · exact (Lookup.mambaLoop_spec he).1
    · cases he
  · cases he

/-- The hits stay within the given length. -/
theorem findLongestCacheHit_length {spec : KVCacheSpec} {maxLength align : ℕ} {eagle : Bool}
    (he : findLongestCacheHit p spec 1 groupIds hashes maxLength eagle align = some rows) :
    rows.length ≤ maxLength / spec.blockSize := by
  simp only [findLongestCacheHit] at he
  split at he
  · obtain rfl := Option.some.inj he
    exact (Lookup.length_fullHits_le maxLength).trans (Nat.min_le_left ..)
  · exact (Lookup.slidingHits_spec he).2
  · exact (Lookup.chunkedHits_spec he).2
  · exact (Lookup.mambaLoop_spec he).2
  · cases he

/-! ## The hits of one group -/

theorem mergeBlockHashes_getElem? {scale : ℕ} (hi : (mergeBlockHashes scale hashes)[i]? = some h)
    (hscale : 0 < scale) : ∃ h0 rest, hashes[i * scale]? = some h0 ∧ h = h0 ++ rest := by
  unfold mergeBlockHashes at hi
  obtain ⟨j, hj, rfl⟩ : ∃ j, (range (hashes.length / scale))[i]? = some j ∧
      ((hashes.drop (j * scale)).take scale).flatten = h := by
    rw [getElem?_map] at hi
    exact map_eq_some_iff.mp hi
  obtain ⟨hlt, hij⟩ := List.getElem?_eq_some_iff.mp hj
  rw [getElem_range] at hij
  subst hij
  rw [length_range] at hlt
  have hin : i * scale < hashes.length := by
    calc i * scale < (i + 1) * scale := Nat.mul_lt_mul_of_pos_right (Nat.lt_succ_self i) hscale
      _ ≤ hashes.length / scale * scale := Nat.mul_le_mul_right _ hlt
      _ ≤ hashes.length := Nat.div_mul_le_self _ _
  obtain ⟨s, rfl⟩ : ∃ s, scale = s + 1 := ⟨scale - 1, by omega⟩
  refine ⟨hashes[i * (s + 1)], ((hashes.drop (i * (s + 1) + 1)).take s).flatten,
    getElem?_eq_getElem hin, ?_⟩
  rw [drop_eq_getElem_cons hin, take_succ_cons, flatten_cons]

/-- Block hashes of one request: pairwise different digests of one length. -/
structure BlockHashes where
  hashes : List Bytes
  nodup : hashes.Nodup
  sameLength : ∀ h ∈ hashes, ∀ h' ∈ hashes, h.length = h'.length
  deriving DecidableEq

/-- The hashes of a request under an ideal hasher, if its digests have one length. -/
def BlockHashes.ofRequest {E : Type} (H : IdealHasher E) (r : FreshRequest E) {hs : List Bytes}
    (h : requestBlockHasher H.toHasher r.toRequestContent = some hs)
    (hlen : ∀ a ∈ hs, ∀ b ∈ hs, a.length = b.length) : BlockHashes :=
  ⟨hs, requestBlockHasher_nodup H r h, hlen⟩

/-- Merged hashes of different positions differ. -/
theorem BlockHashes.merge_inj (hs : BlockHashes) {scale : ℕ} (hscale : 0 < scale)
    (hi : (mergeBlockHashes scale hs.hashes)[i]? = some h)
    (hj : (mergeBlockHashes scale hs.hashes)[j]? = some h) : i = j := by
  obtain ⟨a, as, ha, rfl⟩ := mergeBlockHashes_getElem? hi hscale
  obtain ⟨b, bs, hb, he⟩ := mergeBlockHashes_getElem? hj hscale
  -- the first digests have one length, so the concatenations start with the same one
  have hlen := hs.sameLength a (mem_of_getElem? ha) b (mem_of_getElem? hb)
  obtain ⟨rfl, -⟩ := append_inj he hlen
  have hidx : i * scale = j * scale :=
    (getElem?_inj (List.getElem?_eq_some_iff.mp ha).1 hs.nodup).mp (ha.trans hb.symm)
  exact Nat.eq_of_mul_eq_mul_right hscale hidx

/-- The hashes at any granularity are pairwise different. -/
theorem BlockHashes.inj_of_hashesAt (hs : BlockHashes) {bsz : ℕ} (hbsz : 0 < bsz)
    (hat : p.hashesAt bsz hs.hashes = some hashes) (hi : hashes[i]? = some h)
    (hj : hashes[j]? = some h) : i = j := by
  unfold BlockPool.hashesAt at hat
  split at hat
  · obtain rfl := Option.some.inj hat
    exact (getElem?_inj (List.getElem?_eq_some_iff.mp hi).1 hs.nodup).mp (hi.trans hj.symm)
  · split at hat
    · rename_i hmod
      obtain rfl := Option.some.inj hat
      have hscale : 0 < bsz / p.hashBlockSize := by
        have hdvd := Nat.dvd_of_mod_eq_zero hmod
        exact Nat.div_pos (Nat.le_of_dvd hbsz hdvd) (Nat.pos_of_dvd_of_pos hdvd hbsz)
      exact hs.merge_inj hscale hi hj
    · cases hat

theorem getCachedBlock_getElem? {hash : Bytes} {row : Row}
    (h : p.getCachedBlock hash groupIds = some row)
    (hj : row[j]? = some b) : ∃ g, groupIds[j]? = some g ∧
      p.cachedBlockHashToBlock.getOneBlock ⟨hash, g⟩ = some b := by
  unfold BlockPool.getCachedBlock at h
  induction groupIds generalizing row j with
  | nil =>
    cases h
    simp at hj
  | cons g gs ih =>
    rw [mapM_cons] at h
    simp only [bind, bind_eq_some_iff] at h
    obtain ⟨b0, hb0, row', hrow', h⟩ := h
    obtain rfl := Option.some.inj h
    cases j with
    | zero =>
      cases hj
      exact ⟨g, rfl, hb0⟩
    | succ j => exact ih hrow' hj

/-- A proper entry of a column is a block whose hash is the one of its position. -/
theorem RowsCached.column_hash (h : p.HashInv) (hrows : RowsCached p groupIds hashes rows)
    (hb : (column p.nullBlock j rows)[i]? = some b) (hnull : b ≠ p.nullBlock) :
    ∃ hash g, hashes[i]? = some hash ∧ groupIds[j]? = some g ∧
      (p.block b).blockHash = some ⟨hash, g⟩ := by
  rw [column, getElem?_map] at hb
  obtain ⟨row, hrow, hget⟩ := map_eq_some_iff.mp hb
  rw [getD_eq_getElem?_getD] at hget
  have hmem : row[j]? = some b := by
    cases hj : row[j]? with
    | none =>
      rw [hj] at hget
      exact absurd hget.symm hnull
    | some b' =>
      rw [hj] at hget
      exact congrArg some hget
  rcases hrows i row hrow with rfl | ⟨hash, hhash, hcached⟩
  · exfalso
    rw [getElem?_map] at hmem
    obtain ⟨g, -, hg⟩ := map_eq_some_iff.mp hmem
    exact hnull hg.symm
  · obtain ⟨g, hg, hone⟩ := getCachedBlock_getElem? hcached hmem
    exact ⟨hash, g, hhash, hg, (h.stores b ⟨hash, g⟩).mpr
      (BlockHashToBlockMap.getOneBlock_stores _ _ _ hone)⟩

theorem BlockPool.RefInv.lt_of_blockHash {occ : BlockId → ℕ} (h : p.RefInv occ)
    (hb : (p.block b).blockHash ≠ none) : b < p.numGpuBlocks := by
  by_contra hlt
  apply hb
  have hnone : p.blocks[b]? = none := by
    rw [getElem?_eq_none_iff, h.length]
    exact Nat.le_of_not_lt hlt
  rw [BlockPool.block, hnone]
  rfl

/-- The column of one group can be put into a table. -/
theorem RowsCached.column_hits {occ : BlockId → ℕ} (href : p.RefInv occ) (h : p.HashInv)
    (hinj : ∀ (i j : ℕ) (hash : Bytes), hashes[i]? = some hash → hashes[j]? = some hash → i = j)
    (hrows : RowsCached p groupIds hashes rows) (j : ℕ) :
    Manager.Hits p (column p.nullBlock j rows) := by
  constructor
  · intro b hb
    by_cases hnull : b = p.nullBlock
    · exact hnull ▸ href.null_lt
    · obtain ⟨i, hi⟩ := mem_iff_getElem?.mp hb
      obtain ⟨hash, g, -, -, hkey⟩ := hrows.column_hash h hi hnull
      exact href.lt_of_blockHash (by simp [hkey])
  · -- one block has one hash, and one hash stands at one position
    have key : ∀ (i i' : ℕ) (b : BlockId), (column p.nullBlock j rows)[i]? = some b →
        (column p.nullBlock j rows)[i']? = some b → b ≠ p.nullBlock → i = i' := by
      intro i i' b hi hi' hnull
      obtain ⟨hash, g, hhash, -, hkey⟩ := hrows.column_hash h hi hnull
      obtain ⟨hash', g', hhash', -, hkey'⟩ := hrows.column_hash h hi' hnull
      rw [hkey] at hkey'
      cases hkey'
      exact hinj i i' hash hhash hhash'
    exact held_nodup_of_inj key

end Nvllm.KVCache
