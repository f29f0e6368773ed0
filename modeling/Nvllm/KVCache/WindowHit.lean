import Nvllm.KVCache.HitShape

/-! # What the search for a sliding window finds

`SlidingWindowManager.find_longest_cache_hit` scans from right to left for enough contiguous hits
that end at an aligned position. `slidingLoop` never jumps over such a position, so it finds the
last one (`slidingHits_found`). With EAGLE one block more is asked for, the last block is dropped
and the rest is cut back to an aligned position. The cut takes `alignment_tokens / block_size`
blocks where only one was reserved, so the window of what is left can reach below the hits that were
looked at (`usable_iff`).
-/

namespace Nvllm.KVCache

open List

namespace Lookup

variable {l : Lookup} {needed maxBlocks : ℕ} {rows : List Row}

/-- The cached blocks of the groups under the hash of position `i`. -/
def rowAt (l : Lookup) (i : ℕ) : Option Row := l.hashes[i]?.bind l.cached

theorem rowAt_eq {i : ℕ} {hash : Bytes} (h : l.hashes[i]? = some hash) :
    l.rowAt i = l.cached hash := by
  rw [rowAt, h, Option.bind_some]

/-- A length of `n` blocks ends at an aligned position and its last `needed` blocks are cached. -/
def Accepts (l : Lookup) (needed n : ℕ) : Prop :=
  l.AlignedAt n ∧ ∀ i < n, n - needed ≤ i → (l.rowAt i).isSome = true

instance (l : Lookup) (needed n : ℕ) : Decidable (l.Accepts needed n) :=
  inferInstanceAs (Decidable (_ ∣ _ ∧ ∀ i < _, _ → _ = true))

/-! ## The scan -/

/-- The scan has come down to position `n` with `contiguous` hits above it. No accepted length above
these hits has been jumped over. -/
structure Scanned (l : Lookup) (needed maxBlocks n contiguous : ℕ) (rows : List Row) : Prop where
  short : contiguous < needed
  le : n + contiguous ≤ maxBlocks
  length : rows.length = maxBlocks
  aligned : contiguous ≠ 0 → l.AlignedAt (n + contiguous)
  hits : ∀ i, n ≤ i → i < n + contiguous → rows[i]? = l.rowAt i ∧ (l.rowAt i).isSome = true
  nulls : ∀ i < n, rows[i]? = some l.nullRow
  jumped : ∀ m ≤ maxBlocks, n + contiguous < m → ¬ l.Accepts needed m

/-- The rows end at the last accepted length `n`, with null rows below the hits. -/
structure Found (l : Lookup) (needed maxBlocks n : ℕ) (rows : List Row) : Prop where
  le : n ≤ maxBlocks
  length : rows.length = n
  accepts : l.Accepts needed n
  hits : ∀ i < n, n - needed ≤ i → rows[i]? = l.rowAt i
  nulls : ∀ i < n - needed, rows[i]? = some l.nullRow
  last : ∀ m ≤ maxBlocks, l.Accepts needed m → m ≤ n

variable {contiguous n : ℕ} {row : Row}

/-- A miss below the hits rules out every length above it: its window would have to contain the
position of the miss. -/
theorem Scanned.miss (h : Scanned l needed maxBlocks (n + 1) contiguous rows)
    (hmiss : l.rowAt n = none) : Scanned l needed maxBlocks n 0 rows := by
  have hshort := h.short
  have hle := h.le
  refine ⟨by omega, by omega, h.length, fun hc => absurd rfl hc, fun i _ _ => by omega,
    fun i hi => h.nulls i (by omega), fun m hm hlt hacc => ?_⟩
  by_cases hm' : n + 1 + contiguous < m
  · exact h.jumped m hm hm' hacc
  · have hsome := hacc.2 n (by omega) (by omega)
    rw [hmiss] at hsome
    cases hsome

/-- An unaligned hit that would start a run is passed over. -/
theorem Scanned.skip (h : Scanned l needed maxBlocks (n + 1) 0 rows)
    (hun : l.Unaligned (n + 1)) : Scanned l needed maxBlocks n 0 rows := by
  have hle := h.le
  refine ⟨h.short, by omega, h.length, fun hc => absurd rfl hc, fun i _ _ => by omega,
    fun i hi => h.nulls i (by omega), fun m hm hlt hacc => ?_⟩
  by_cases hm' : n + 1 < m
  · exact h.jumped m hm hm' hacc
  · obtain rfl : m = n + 1 := by omega
    exact hun.2 (Nat.mod_eq_zero_of_dvd hacc.1)

/-- The rows above a hit, after the hit is written. -/
theorem Scanned.hits_set (h : Scanned l needed maxBlocks (n + 1) contiguous rows)
    (hrow : l.rowAt n = some row) :
    ∀ i, n ≤ i → i < n + (contiguous + 1) →
      (rows.set n row)[i]? = l.rowAt i ∧ (l.rowAt i).isSome = true := by
  intro i hi hlt
  have hle := h.le
  by_cases heq : n = i
  · subst heq
    rw [getElem?_set_self (by rw [h.length]; omega), hrow]
    exact ⟨rfl, rfl⟩
  · rw [getElem?_set_ne heq]
    exact h.hits i (by omega) (by omega)

theorem Scanned.aligned_hit (h : Scanned l needed maxBlocks (n + 1) contiguous rows)
    (htake : ¬ (contiguous = 0 ∧ l.Unaligned (n + 1))) : l.AlignedAt (n + (contiguous + 1)) := by
  rw [← Nat.add_assoc, Nat.add_right_comm]
  by_cases h0 : contiguous = 0
  · subst h0
    exact alignedAt_of_not_unaligned fun hun => htake ⟨rfl, hun⟩
  · exact h.aligned h0

/-- One more hit, not enough yet. -/
theorem Scanned.hit (h : Scanned l needed maxBlocks (n + 1) contiguous rows)
    (hrow : l.rowAt n = some row) (htake : ¬ (contiguous = 0 ∧ l.Unaligned (n + 1)))
    (hshort : contiguous + 1 < needed) :
    Scanned l needed maxBlocks n (contiguous + 1) (rows.set n row) where
  short := hshort
  le := by have hle := h.le; omega
  length := length_set.trans h.length
  aligned := fun _ => h.aligned_hit htake
  hits := h.hits_set hrow
  nulls := fun i hi => by
    rw [getElem?_set_ne (by omega)]
    exact h.nulls i (by omega)
  jumped := fun m hm hlt => h.jumped m hm (by omega)

/-- The last hit that was asked for. -/
theorem Scanned.enough (h : Scanned l needed maxBlocks (n + 1) contiguous rows)
    (hrow : l.rowAt n = some row) (htake : ¬ (contiguous = 0 ∧ l.Unaligned (n + 1)))
    (henough : needed ≤ contiguous + 1) :
    Found l needed maxBlocks (n + (contiguous + 1))
      ((rows.set n row).take (n + (contiguous + 1))) := by
  have hshort := h.short
  have hle := h.le
  have hhits := h.hits_set hrow
  refine ⟨by omega, ?_, ⟨h.aligned_hit htake, fun i hi hge => (hhits i (by omega) hi).2⟩,
    fun i hi hge => ?_, fun i hi => ?_, fun m hm hacc => ?_⟩
  · rw [length_take, length_set, h.length]
    omega
  · rw [getElem?_take_of_lt hi]
    exact (hhits i (by omega) hi).1
  · rw [getElem?_take_of_lt (by omega), getElem?_set_ne (by omega)]
    exact h.nulls i (by omega)
  · by_contra hlt
    exact h.jumped m hm (by omega) hacc

/-- The scan ends at position 0: what it holds is a hit although the run is short. -/
theorem Scanned.found (h : Scanned l needed maxBlocks 0 contiguous rows) :
    Found l needed maxBlocks contiguous
      (popAligned l.blockSize l.alignmentTokens (rows.take contiguous)) := by
  have hshort := h.short
  have hle := h.le
  have haligned : l.AlignedAt contiguous := by
    by_cases h0 : contiguous = 0
    · rw [h0]
      exact alignedAt_zero
    · simpa using h.aligned h0
  have hlen : (rows.take contiguous).length = contiguous := by
    rw [length_take, h.length]
    omega
  have hpop : popAligned l.blockSize l.alignmentTokens (rows.take contiguous) =
      rows.take contiguous := by
    apply take_of_length_le
    rw [hlen]
    exact le_alignedLength (Nat.le_refl _) haligned
  rw [hpop]
  refine ⟨by omega, hlen, ⟨haligned, fun i hi _ => (h.hits i (by omega) (by omega)).2⟩,
    fun i hi _ => ?_, fun i hi => by omega, fun m hm hacc => ?_⟩
  · rw [getElem?_take_of_lt hi]
    exact (h.hits i (by omega) (by omega)).1
  · by_contra hlt
    exact h.jumped m hm (by omega) hacc

/-- **The scan finds the last accepted length.** -/
theorem Scanned.loop {k : ℕ} {rows' : List Row} {found : Bool}
    (h : Scanned l needed maxBlocks n contiguous rows)
    (he : l.slidingLoop needed n rows contiguous = some (rows', k, found)) :
    ∃ m, Found l needed maxBlocks m
      (if found then rows' else popAligned l.blockSize l.alignmentTokens (rows'.take k)) := by
  induction n generalizing rows contiguous with
  | zero =>
    cases he
    exact ⟨_, h.found⟩
  | succ i ih =>
    simp only [slidingLoop, bind, Option.bind_eq_some_iff] at he
    obtain ⟨hash, hhash, he⟩ := he
    split at he
    · rename_i row hrow
      rw [← rowAt_eq hhash] at hrow
      split at he
      · rename_i hskip
        obtain ⟨rfl, hun⟩ := hskip
        exact ih (h.skip hun) he
      · rename_i htake
        split at he
        · rename_i henough
          cases he
          exact ⟨_, h.enough hrow htake henough⟩
        · rename_i hshort
          exact ih (h.hit hrow htake (Nat.lt_of_not_le hshort)) he
    · rename_i hmiss
      rw [← rowAt_eq hhash] at hmiss
      exact ih (h.miss hmiss) he

/-- The number of contiguous blocks that `find_longest_cache_hit` asks for. -/
def contiguousBlocks (l : Lookup) (slidingWindow : ℕ) : ℕ :=
  cdiv (slidingWindow - 1) l.blockSize + if l.useEagle then 1 else 0

theorem slidingHits_found {w maxLength : ℕ} (hpos : 0 < l.contiguousBlocks w)
    (he : l.slidingHits w maxLength = some rows) :
    ∃ n found, Found l (l.contiguousBlocks w) (maxLength / l.blockSize) n found ∧
      rows = if l.useEagle then popAligned l.blockSize l.alignmentTokens found.dropLast
        else found := by
  simp only [slidingHits, bind, Option.bind_eq_some_iff] at he
  obtain ⟨⟨rows1, k, found⟩, hloop, he⟩ := he
  have hstart : Scanned l (l.contiguousBlocks w) (maxLength / l.blockSize)
      (maxLength / l.blockSize) 0 (replicate (maxLength / l.blockSize) l.nullRow) := by
    refine ⟨hpos, Nat.le_refl _, length_replicate, fun hc => absurd rfl hc,
      fun i _ _ => by omega, fun i hi => ?_, fun m hm hlt => by omega⟩
    rw [getElem?_replicate, if_pos hi]
  obtain ⟨n, hfound⟩ := hstart.loop hloop
  exact ⟨n, _, hfound, (Option.some.inj he).symm⟩

/-! ## Hits with a whole window -/

/-- A hit can be used: it is within the length that was asked for, aligned, and the blocks that the
next token attends to are cached blocks of their own hashes in every group. -/
structure Usable (l : Lookup) (slidingWindow maxLength : ℕ) (rows : List Row) : Prop where
  within : rows.length * l.blockSize ≤ maxLength
  aligned : l.alignmentTokens ∣ rows.length * l.blockSize
  window : ∀ i < rows.length, rows.length - cdiv (slidingWindow - 1) l.blockSize ≤ i →
    ∃ row, rows[i]? = some row ∧ l.rowAt i = some row ∧ l.pool.nullBlock ∉ row

/-- With EAGLE and larger alignment: no aligned run of cached blocks, one longer than the window,
ends both above the window and above the first aligned position. -/
def KeepsWindow (l : Lookup) (slidingWindow maxLength : ℕ) : Prop :=
  l.useEagle = true → l.blockSize ≠ l.alignmentTokens → ∀ n ≤ maxLength / l.blockSize,
    l.Accepts (cdiv (slidingWindow - 1) l.blockSize + 1) n →
      n ≤ max (cdiv (slidingWindow - 1) l.blockSize + 1) (l.alignmentTokens / l.blockSize)

/-- Cutting an aligned length back to the next aligned position below it. -/
theorem alignedLength_pred {b q : ℕ} (hb : 0 < b) (hq : 0 < q) (hn : q ∣ n) :
    alignedLength b (q * b) (n - 1) = n - q := by
  apply Nat.le_antisymm
  · have hle := alignedLength_le b (q * b) (n - 1)
    have hdvd : q ∣ alignedLength b (q * b) (n - 1) :=
      Nat.dvd_of_mul_dvd_mul_right hb (alignedLength_dvd _ _ _)
    rcases Nat.eq_zero_or_pos n with h0 | hpos
    · omega
    · have hdiff := Nat.le_of_dvd (by omega) (Nat.dvd_sub hn hdvd)
      omega
  · exact le_alignedLength (by omega)
      (Nat.mul_dvd_mul_right (Nat.dvd_sub hn (Nat.dvd_refl q)) b)

/-- The window of what is left after a cut by `q` lies within the hits above it. -/
theorem window_within_iff {q c : ℕ} (hc : 0 < c) (hq : 0 < q) :
    (∀ i < n - q, n - q - c ≤ i → n - (c + 1) ≤ i) ↔ (q ≠ 1 → n ≤ max (c + 1) q) := by
  constructor
  · intro h hq1
    by_contra hlt
    have hbad := h (n - q - c) (by omega) (Nat.le_refl _)
    omega
  · intro h i hi hge
    by_cases hq1 : q = 1
    · omega
    · omega

theorem cdiv_pos {a b : ℕ} (ha : 0 < a) (hb : 0 < b) : 0 < cdiv a b :=
  Nat.div_pos (by omega) hb

section

variable {w maxLength n : ℕ} {found : List Row}
  (hnull : ∀ key, l.pool.cachedBlockHashToBlock.getOneBlock key ≠ some l.pool.nullBlock)

include hnull in
theorem nullBlock_not_mem {i : ℕ} {row : Row} (h : l.rowAt i = some row) :
    l.pool.nullBlock ∉ row := by
  intro hmem
  obtain ⟨hash, -, hcached⟩ := Option.bind_eq_some_iff.mp h
  obtain ⟨j, hj⟩ := mem_iff_getElem?.mp hmem
  obtain ⟨g, -, hone⟩ := getCachedBlock_getElem? hcached hj
  exact hnull _ hone

/-- With EAGLE the last `q` blocks are cut off and the others stay. -/
theorem Found.cut {q : ℕ} (h : Found l needed maxBlocks n found) (hb : 0 < l.blockSize)
    (hq : l.alignmentTokens = q * l.blockSize) (hqpos : 0 < q) :
    (popAligned l.blockSize l.alignmentTokens found.dropLast).length = n - q ∧
      ∀ i < n - q, (popAligned l.blockSize l.alignmentTokens found.dropLast)[i]? = found[i]? := by
  have hqn : q ∣ n := by
    have haligned := h.accepts.1
    rw [AlignedAt, hq] at haligned
    exact Nat.dvd_of_mul_dvd_mul_right hb haligned
  have hlen : alignedLength l.blockSize l.alignmentTokens found.dropLast.length = n - q := by
    rw [length_dropLast, h.length, hq]
    exact alignedLength_pred hb hqpos hqn
  refine ⟨(length_popAligned _ _ _).trans hlen, fun i hi => ?_⟩
  rw [popAligned, hlen, getElem?_take_of_lt hi, dropLast_eq_take,
    getElem?_take_of_lt (by rw [h.length]; omega)]

include hnull in
/-- Of the rows that were found, exactly the hits can be used. -/
theorem Found.usable_iff (h : Found l needed maxBlocks n found) (hids : l.groupIds ≠ []) {i : ℕ}
    (hi : i < n) :
    (∃ row, found[i]? = some row ∧ l.rowAt i = some row ∧ l.pool.nullBlock ∉ row) ↔
      n - needed ≤ i := by
  constructor
  · rintro ⟨row, hrow, -, hnot⟩
    by_contra hlt
    rw [h.nulls i (by omega)] at hrow
    cases hrow
    obtain ⟨g, gs, hgs⟩ := exists_cons_of_ne_nil hids
    exact hnot (by simp [nullRow, hgs])
  · intro hge
    obtain ⟨row, hrow⟩ := Option.isSome_iff_exists.mp (h.accepts.2 i hi hge)
    exact ⟨row, (h.hits i hi hge).trans hrow, hrow, nullBlock_not_mem hnull hrow⟩

end

/-- **When a sliding-window hit is usable.** -/
theorem usable_iff_keepsWindow (l : Lookup) {w maxLength : ℕ} (hw : 2 ≤ w)
    (hb : 0 < l.blockSize) (ha : 0 < l.alignmentTokens) (hdvd : l.blockSize ∣ l.alignmentTokens)
    (hids : l.groupIds ≠ [])
    (hnull : ∀ key, l.pool.cachedBlockHashToBlock.getOneBlock key ≠ some l.pool.nullBlock)
    {rows : List Row} (he : l.slidingHits w maxLength = some rows) :
    Usable l w maxLength rows ↔ KeepsWindow l w maxLength := by
  have hc : 0 < cdiv (w - 1) l.blockSize := cdiv_pos (by omega) hb
  obtain ⟨n, found, hfound, hrows⟩ := slidingHits_found (Nat.add_pos_left hc _) he
  have hlen := hfound.length
  have hwithin : rows.length * l.blockSize ≤ maxLength :=
    (Nat.le_div_iff_mul_le hb).mp (slidingHits_spec he).2
  cases heagle : l.useEagle with
  | false =>
    simp only [heagle, Bool.false_eq_true, if_false] at hrows
    subst hrows
    refine iff_of_true ⟨hwithin, ?_, fun i hi hge => ?_⟩ fun h => ?_
    · rw [hlen]
      exact hfound.accepts.1
    · rw [hlen] at hi hge
      rw [hfound.usable_iff hnull hids hi]
      simpa [contiguousBlocks, heagle] using hge
    · rw [heagle] at h
      cases h
  | true =>
    simp only [heagle, if_true] at hrows
    obtain ⟨q, hq⟩ := hdvd
    rw [Nat.mul_comm] at hq
    have hqpos : 0 < q := Nat.pos_of_ne_zero fun h0 => by simp [h0, hq] at ha
    have hneeded : l.contiguousBlocks w = cdiv (w - 1) l.blockSize + 1 := by
      simp [contiguousBlocks, heagle]
    rw [hneeded] at hfound
    obtain ⟨hcut, hget⟩ := hfound.cut hb hq hqpos
    rw [← hrows] at hcut hget
    have hwindow : Usable l w maxLength rows ↔
        ∀ i < n - q, n - q - cdiv (w - 1) l.blockSize ≤ i →
          n - (cdiv (w - 1) l.blockSize + 1) ≤ i := by
      have haligned : l.alignmentTokens ∣ rows.length * l.blockSize := by
        rw [hrows]
        exact popAligned_alignedAt _
      constructor
      · intro h i hi hge
        have husable := h.window i (by omega) (by omega)
        rwa [hget i hi, hfound.usable_iff hnull hids (by omega)] at husable
      · intro h
        refine ⟨hwithin, haligned, fun i hi hge => ?_⟩
        rw [hget i (by omega), hfound.usable_iff hnull hids (by omega)]
        exact h i (by omega) (by omega)
    have hne : l.blockSize ≠ q * l.blockSize ↔ q ≠ 1 :=
      not_congr ⟨fun h => (Nat.eq_of_mul_eq_mul_right hb ((Nat.one_mul _).trans h)).symm,
        fun h => by rw [h, Nat.one_mul]⟩
    rw [hwindow, window_within_iff hc hqpos, KeepsWindow, hq, Nat.mul_div_cancel _ hb, hne]
    constructor
    · intro h _ hq1 m hm hacc
      exact (hfound.last m hm hacc).trans (h hq1)
    · intro h hq1
      exact h heagle hq1 n hfound.le hfound.accepts

/-! ## A window that is not cached -/

/-- A pool whose cache has the hashes of the given positions. -/
def cachedPool (positions : List UInt8) : BlockPool where
  numGpuBlocks := positions.length + 1
  enableCaching := true
  hashBlockSize := 1
  blocks := []
  freeBlockQueue := .ofList []
  cachedBlockHashToBlock :=
    positions.foldr (fun i m => Dict.set m ⟨[i], 0⟩ (.one (i.toNat + 1))) ∅
  nullBlock := 0

/-- Four blocks of one token, of which the given ones are cached, to be hit two at a time. -/
def fourBlocks (positions : List UInt8) : Lookup where
  pool := cachedPool positions
  groupIds := [0]
  hashes := [[0], [1], [2], [3]]
  blockSize := 1
  alignmentTokens := 2
  useEagle := true

theorem cachedPool_null (positions : List UInt8) (key : BlockHashWithGroupId) :
    (cachedPool positions).cachedBlockHashToBlock.getOneBlock key ≠
      some (cachedPool positions).nullBlock := by
  have hget : ∀ c ∈ (cachedPool positions).cachedBlockHashToBlock.get? key,
      ∃ i : ℕ, c = .one (i + 1) := by
    unfold cachedPool
    induction positions with
    | nil => intro c hc; cases hc
    | cons i is ih =>
      intro c hc
      rw [foldr_cons, Dict.get?_set] at hc
      split at hc
      · exact ⟨i.toNat, (Option.some.inj hc).symm⟩
      · exact ih c hc
  unfold BlockHashToBlockMap.getOneBlock
  split
  · simp
  · rename_i b hb
    obtain ⟨i, hi⟩ := hget _ hb
    cases hi
    exact fun h => Nat.succ_ne_zero i (Option.some.inj h)
  · rename_i bs hbs
    obtain ⟨i, hi⟩ := hget _ hbs
    cases hi

/-- The last two blocks are cached: the hit of four blocks is cut to two that are not. -/
theorem eagle_hit_is_not_cached :
    (fourBlocks [2, 3]).slidingHits 2 4 = some [[0], [0]] ∧
      ¬ Usable (fourBlocks [2, 3]) 2 4 [[0], [0]] := by
  refine ⟨by decide +kernel, fun h => ?_⟩
  obtain ⟨row, hrow, hcached, -⟩ := h.window 1 (by decide) (by decide)
  have hmiss : (fourBlocks [2, 3]).rowAt 1 = none := by decide +kernel
  cases hcached

/-- A window of three blocks reaches down to the first one, so all that is left was looked at. -/
theorem eagle_hit_is_cached : KeepsWindow (fourBlocks [0, 1, 2, 3]) 4 4 ∧
    (fourBlocks [0, 1, 2, 3]).slidingHits 4 4 = some [[1], [2]] ∧
    Usable (fourBlocks [0, 1, 2, 3]) 4 4 [[1], [2]] := by
  have he : (fourBlocks [0, 1, 2, 3]).slidingHits 4 4 = some [[1], [2]] := by decide +kernel
  have hkeeps : KeepsWindow (fourBlocks [0, 1, 2, 3]) 4 4 := by
    intro _ _
    decide +kernel
  exact ⟨hkeeps, he, (usable_iff_keepsWindow (fourBlocks [0, 1, 2, 3]) (by decide) (by decide)
    (by decide) (by decide) (by decide) (cachedPool_null _) he).mpr hkeeps⟩

end Lookup

end Nvllm.KVCache
