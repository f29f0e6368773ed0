import Nvllm.KVCache.CoordinatorInv

/-! # The shape of hybrid hits

`HybridKVCacheCoordinator.find_longest_cache_hit` passes over the attention groups until they agree
on a length. A group of full attention is looked up in the first pass only and re-counted after
that, and at the end only the first attention group is cut to the final length. So all groups have
the blocks of exactly the final length if there are two attention groups (one pass is enough) or at
most one of full attention; otherwise a later group can shorten the hit and the second group of full
attention keeps its blocks.
-/

namespace Nvllm.KVCache

open List Option

/-! ## Aligned lengths -/

theorem alignedLength_dvd (b a n : ℕ) : a ∣ alignedLength b a n * b := by
  induction n with
  | zero => simp [alignedLength]
  | succ n ih =>
    unfold alignedLength
    split
    · exact ih
    · rename_i haligned
      by_cases hba : b = a
      · exact hba ▸ Dvd.intro_left _ rfl
      · by_contra hmod
        exact haligned ⟨hba, fun h => hmod (Nat.dvd_of_mod_eq_zero h)⟩

theorem alignedLength_le (b a n : ℕ) : alignedLength b a n ≤ n := by
  induction n with
  | zero => exact Nat.le_refl 0
  | succ n ih =>
    unfold alignedLength
    split
    · exact Nat.le_succ_of_le ih
    · exact Nat.le_refl _

/-- It is the longest aligned length. -/
theorem le_alignedLength {b a m n : ℕ} (hm : m ≤ n) (hdvd : a ∣ m * b) :
    m ≤ alignedLength b a n := by
  induction n with
  | zero => exact hm
  | succ n ih =>
    unfold alignedLength
    split
    · rename_i hun
      -- the length `n + 1` is not aligned, so it is not `m`
      rcases Nat.lt_or_eq_of_le hm with hlt | rfl
      · omega
      · exact absurd (Nat.mod_eq_zero_of_dvd hdvd) hun.2
    · exact hm

theorem length_popAligned (b a : ℕ) (rows : List Row) :
    (popAligned b a rows).length = alignedLength b a rows.length := by
  rw [popAligned, length_take]
  exact Nat.min_eq_left (alignedLength_le _ _ _)

namespace Lookup

variable {l : Lookup}

/-- Hits that end at block `n` are aligned. -/
def AlignedAt (l : Lookup) (n : ℕ) : Prop := l.alignmentTokens ∣ n * l.blockSize

variable {n : ℕ}

theorem alignedAt_of_not_unaligned (h : ¬ l.Unaligned n) : l.AlignedAt n := by
  unfold AlignedAt
  by_cases heq : l.blockSize = l.alignmentTokens
  · exact heq ▸ Dvd.intro_left _ rfl
  · by_contra hdvd
    exact h ⟨heq, fun hmod => hdvd (Nat.dvd_of_mod_eq_zero hmod)⟩

theorem alignedAt_zero : l.AlignedAt 0 := by simp [AlignedAt]

theorem popAligned_alignedAt (rows : List Row) :
    l.AlignedAt (popAligned l.blockSize l.alignmentTokens rows).length := by
  rw [AlignedAt, length_popAligned]
  exact alignedLength_dvd _ _ _

theorem fullHits_alignedAt (maxLength : ℕ) : l.AlignedAt (l.fullHits maxLength).length :=
  popAligned_alignedAt _

/-- The search of the sliding window does not fail if there are enough hashes. The contiguous hits
at any time end at an aligned position. -/
theorem slidingLoop_aligned (needed contiguous : ℕ) (rows : List Row) (hn : n ≤ l.hashes.length)
    (hlen : n + contiguous ≤ rows.length) (hc : contiguous ≠ 0 → l.AlignedAt (n + contiguous)) :
    ∃ rows' k found, l.slidingLoop needed n rows contiguous = some (rows', k, found) ∧
      (found = true → l.AlignedAt rows'.length) := by
  induction n generalizing contiguous rows with
  | zero => exact ⟨rows, contiguous, false, rfl, by simp⟩
  | succ i ih =>
    have hget : l.hashes[i]? = some l.hashes[i] := getElem?_eq_getElem (by omega)
    simp only [slidingLoop, hget, bind, bind_some]
    split
    · split
      · -- an unaligned hit is passed over
        rename_i hskip
        exact ih _ _ (by omega) (by omega) fun h => absurd hskip.1 h
      · rename_i htake
        have haligned : l.AlignedAt (i + (contiguous + 1)) := by
          rw [← Nat.add_assoc, Nat.add_right_comm]
          by_cases h0 : contiguous = 0
          · subst h0
            exact alignedAt_of_not_unaligned fun hun => htake ⟨rfl, hun⟩
          · exact hc h0
        split
        · refine ⟨_, _, _, rfl, fun _ => ?_⟩
          rw [length_take, length_set, Nat.min_eq_left (by omega)]
          exact haligned
        · refine ih _ _ (by omega) ?_ fun _ => haligned
          rw [length_set]
          omega
    · exact ih _ _ (by omega) (by omega) fun h => absurd rfl h

theorem slidingHits_aligned {w maxLength : ℕ} (h : maxLength / l.blockSize ≤ l.hashes.length) :
    ∃ rows, l.slidingHits w maxLength = some rows ∧ l.AlignedAt rows.length := by
  obtain ⟨rows, k, found, hloop, hyes⟩ := slidingLoop_aligned
    (cdiv (w - 1) l.blockSize + if l.useEagle then 1 else 0) 0
    (replicate (maxLength / l.blockSize) l.nullRow) h (by simp) (by simp)
  simp only [slidingHits, hloop, bind, bind_some, Option.pure_def]
  refine ⟨_, rfl, ?_⟩
  split
  · exact popAligned_alignedAt _
  · split
    · exact hyes ‹_›
    · exact popAligned_alignedAt _

theorem mambaLoop_aligned (h : n ≤ l.hashes.length) :
    ∃ rows, l.mambaLoop n = some rows ∧ l.AlignedAt rows.length := by
  induction n with
  | zero => exact ⟨[], rfl, alignedAt_zero⟩
  | succ i ih =>
    have hget : l.hashes[i]? = some l.hashes[i] := getElem?_eq_getElem (by omega)
    simp only [mambaLoop, hget, bind, bind_some]
    split
    · split
      · exact ih (by omega)
      · rename_i haligned
        refine ⟨_, rfl, ?_⟩
        rw [length_append, length_replicate, length_singleton]
        exact alignedAt_of_not_unaligned haligned
    · exact ih (by omega)

end Lookup

/-- The specs that can be looked up together: full attention, sliding window and mamba. -/
def SpecKind.Hybrid : SpecKind → Prop
  | .full _ | .slidingWindow _ | .mamba _ _ => True
  | .chunkedLocal _ | .crossAttention => False

instance (k : SpecKind) : Decidable k.Hybrid :=
  match k with
  | .full _ | .slidingWindow _ | .mamba _ _ => isTrue trivial
  | .chunkedLocal _ | .crossAttention => isFalse id

/-- **One group.** With enough hashes the lookup succeeds, stays within the given length and the
hashes, and ends at an aligned position. Full attention stops at the last hash by itself. -/
theorem findLongestCacheHit_shape (p : BlockPool) {spec : KVCacheSpec} (hspec : spec.kind.Hybrid)
    (groupIds : List ℕ) {hashes : List Bytes} {maxLength : ℕ} (eagle : Bool) (align : ℕ)
    (henough : spec.isFull = true ∨ maxLength / spec.blockSize ≤ hashes.length) :
    ∃ rows, findLongestCacheHit p spec 1 groupIds hashes maxLength eagle align = some rows ∧
      rows.length ≤ maxLength / spec.blockSize ∧ rows.length ≤ hashes.length ∧
      align ∣ rows.length * spec.blockSize := by
  have hexists : ∃ rows, findLongestCacheHit p spec 1 groupIds hashes maxLength eagle align =
      some rows ∧ rows.length ≤ hashes.length ∧ align ∣ rows.length * spec.blockSize := by
    let l : Lookup := ⟨p, groupIds, hashes, spec.blockSize, align, eagle⟩
    rcases spec with ⟨kind, blockSize, layout, hpos, hproper⟩
    cases kind with
    | full mla =>
      exact ⟨l.fullHits maxLength, rfl, (Lookup.length_fullHits_le _).trans (Nat.min_le_right ..),
        Lookup.fullHits_alignedAt _⟩
    | slidingWindow w =>
      have hlen := henough.resolve_left (by simp [KVCacheSpec.isFull])
      obtain ⟨rows, hrows, haligned⟩ := Lookup.slidingHits_aligned (l := l) (w := w) hlen
      exact ⟨rows, hrows, (Lookup.slidingHits_spec hrows).2.trans hlen, haligned⟩
    | mamba mode n =>
      have hlen := henough.resolve_left (by simp [KVCacheSpec.isFull])
      obtain ⟨rows, hrows, haligned⟩ := Lookup.mambaLoop_aligned (l := l) hlen
      exact ⟨rows, hrows, (Lookup.mambaLoop_spec hrows).2.trans hlen, haligned⟩
    | chunkedLocal c => exact hspec.elim
    | crossAttention => exact hspec.elim
  obtain ⟨rows, hrows, hhashes, haligned⟩ := hexists
  exact ⟨rows, hrows, findLongestCacheHit_length hrows, hhashes, haligned⟩

/-! ## Attention groups -/

namespace AttentionGroup

/-- KV cache group `i` belongs to the attention group of `spec`. -/
def Owns (gs : List AttentionGroup) (spec : KVCacheSpec) (i : ℕ) : Prop :=
  ∃ g ∈ gs, g.spec = spec ∧ i ∈ g.groupIds

variable {gs : List AttentionGroup} {i : ℕ} {spec : KVCacheSpec}

theorem owns_cons {g : AttentionGroup} :
    Owns (g :: gs) spec i ↔ (g.spec = spec ∧ i ∈ g.groupIds) ∨ Owns gs spec i := by
  simp [Owns]

theorem owns_addGroup {j : ℕ} {s : KVCacheSpec} :
    Owns (addGroup i spec gs) s j ↔ (spec = s ∧ j = i) ∨ Owns gs s j := by
  induction gs with
  | nil => simp [addGroup, Owns]
  | cons g gs ih =>
    unfold addGroup
    split
    · rename_i heq
      subst heq
      rw [owns_cons, owns_cons]
      simp only [mem_append, mem_singleton]
      tauto
    · rw [owns_cons, owns_cons, ih]
      tauto

theorem map_spec_addGroup (i : ℕ) (spec : KVCacheSpec) (gs : List AttentionGroup) :
    (addGroup i spec gs).map (·.spec) =
      if spec ∈ gs.map (·.spec) then gs.map (·.spec) else gs.map (·.spec) ++ [spec] := by
  induction gs with
  | nil => simp [addGroup]
  | cons g gs ih =>
    unfold addGroup
    split
    · rename_i heq
      simp [heq]
    · rename_i hne
      rw [map_cons, ih, map_cons]
      split
      · rename_i hmem
        rw [if_pos (mem_cons_of_mem _ hmem)]
      · rename_i hmem
        rw [if_neg fun h => (mem_cons.mp h).elim (Ne.symm hne) hmem]
        rfl

theorem groupIds_addGroup
    (h : ∀ g ∈ gs, g.groupIds ≠ []) : ∀ g ∈ addGroup i spec gs, g.groupIds ≠ [] := by
  induction gs with
  | nil => simp [addGroup]
  | cons g gs ih =>
    have hrest := ih fun g' hg' => h g' (mem_cons_of_mem _ hg')
    unfold addGroup
    intro g' hg'
    split at hg'
    · rcases mem_cons.mp hg' with rfl | hg'
      · simp
      · exact h g' (mem_cons_of_mem _ hg')
    · rcases mem_cons.mp hg' with rfl | hg'
      · exact h g' mem_cons_self
      · exact hrest g' hg'

/-- The groups `gs` partition the first `n` of the specs by value. -/
structure Splits (specs : List KVCacheSpec) (n : ℕ) (gs : List AttentionGroup) : Prop where
  distinct : (gs.map (·.spec)).Nodup
  nonempty : ∀ g ∈ gs, g.groupIds ≠ []
  owned : ∀ spec i, Owns gs spec i ↔ i < n ∧ specs[i]? = some spec

theorem Splits.addGroup {specs : List KVCacheSpec} {n : ℕ} (h : Splits specs n gs)
    (hn : specs[n]? = some spec) : Splits specs (n + 1) (addGroup n spec gs) := by
  refine ⟨?_, groupIds_addGroup h.nonempty, fun s i => ?_⟩
  · rw [map_spec_addGroup]
    split
    · exact h.distinct
    · rename_i hmem
      exact nodup_append.mpr ⟨h.distinct, nodup_singleton _, by
        intro a ha b hb
        rw [mem_singleton.mp hb]
        exact fun heq => hmem (heq ▸ ha)⟩
  · rw [owns_addGroup, h.owned]
    constructor
    · rintro (⟨rfl, rfl⟩ | ⟨hi, hs⟩)
      · exact ⟨Nat.lt_succ_self _, hn⟩
      · exact ⟨Nat.lt_succ_of_lt hi, hs⟩
    · rintro ⟨hi, hs⟩
      rcases Nat.lt_succ_iff_lt_or_eq.mp hi with hi | rfl
      · exact .inr ⟨hi, hs⟩
      · rw [hn] at hs
        exact .inl ⟨Option.some.inj hs, rfl⟩

theorem Splits.split {specs : List KVCacheSpec} {n : ℕ} {rest : List KVCacheSpec}
    (h : Splits specs n gs) (hrest : specs.drop n = rest) :
    Splits specs (n + rest.length) (split n rest gs) := by
  induction rest generalizing n gs with
  | nil => exact h
  | cons spec rest ih =>
    have hn : specs[n]? = some spec := by
      rw [← head?_drop, hrest]
      rfl
    have htail : specs.drop (n + 1) = rest := by
      rw [← tail_drop, hrest]
      rfl
    have := ih (h.addGroup hn) htail
    rwa [Nat.add_right_comm] at this

theorem owns_perm {gs' : List AttentionGroup} (h : gs.Perm gs') (spec : KVCacheSpec) (i : ℕ) :
    Owns gs spec i ↔ Owns gs' spec i := by
  simp only [Owns, h.mem_iff]

/-- The attention groups partition the KV cache groups by spec. -/
theorem ofSpecs_splits (specs : List KVCacheSpec) : Splits specs specs.length (ofSpecs specs) := by
  have hempty : Splits specs 0 [] := ⟨nodup_nil, by simp, by simp [Owns]⟩
  have hsplit := hempty.split drop_zero
  rw [Nat.zero_add] at hsplit
  have hperm : (ofSpecs specs).Perm (AttentionGroup.split 0 specs []) :=
    filter_append_perm (fun g : AttentionGroup => g.spec.isFull) _
  refine ⟨(hperm.map _).nodup_iff.mpr hsplit.distinct, fun g hg => ?_, fun spec i => ?_⟩
  · exact hsplit.nonempty g (hperm.mem_iff.mp hg)
  · rw [owns_perm hperm]
    exact hsplit.owned spec i

end AttentionGroup

/-! ## One pass -/

/-- The lists of the KV cache groups of `g` have `n` blocks. -/
def HasBlocks (hits : KVCacheManager.HitsByGroup) (g : AttentionGroup) (n : ℕ) : Prop :=
  ∀ i ∈ g.groupIds, ∃ blocks, hits[i]? = some (some blocks) ∧ blocks.length = n

namespace KVCacheManager

variable {hits : HitsByGroup} {i : ℕ} {ids : List ℕ}

theorem setColumns_of_not_mem {null : BlockId} {rows : List Row} {j : ℕ} (hi : i ∉ ids) :
    (setColumns null rows j ids hits)[i]? = hits[i]? := by
  induction ids generalizing j hits with
  | nil => rfl
  | cons g gs ih =>
    rw [setColumns, ih fun h => hi (mem_cons_of_mem _ h), getElem?_set_ne]
    exact fun h => hi (h ▸ mem_cons_self)

theorem setColumns_of_mem {null : BlockId} {rows : List Row} {j : ℕ} (hi : i ∈ ids)
    (hlt : i < hits.length) :
    ∃ blocks, (setColumns null rows j ids hits)[i]? = some (some blocks) ∧
      blocks.length = rows.length := by
  induction ids generalizing j hits with
  | nil => cases hi
  | cons g gs ih =>
    rw [setColumns]
    by_cases hgs : i ∈ gs
    · exact ih hgs (by rwa [length_set])
    · obtain rfl := (mem_cons.mp hi).resolve_right hgs
      refine ⟨column null j rows, ?_, length_map _⟩
      rw [setColumns_of_not_mem hgs, getElem?_set_self hlt]

/-- The list of the group is there already and is not looked up again. -/
def Reused (hits : HitsByGroup) (g : AttentionGroup) : Prop :=
  g.spec.isFull = true ∧ ((hits[g.groupIds.headD 0]?).join).isSome = true

instance (hits : HitsByGroup) (g : AttentionGroup) : Decidable (Reused hits g) :=
  inferInstanceAs (Decidable (_ ∧ _))

/-- What a pass needs of the attention groups. -/
structure PassGroups (k : KVCacheManager) (lcm n : ℕ) (gs : List AttentionGroup) : Prop where
  hybrid : ∀ g ∈ gs, g.spec.kind.Hybrid
  dvd : ∀ g ∈ gs, g.spec.blockSize ∣ lcm
  hashable : ∀ g ∈ gs, k.pool.hashBlockSize ∣ g.spec.blockSize
  nonempty : ∀ g ∈ gs, g.groupIds ≠ []
  lt : ∀ g ∈ gs, ∀ i ∈ g.groupIds, i < n
  disjoint : gs.Pairwise fun g g' => g.groupIds.Disjoint g'.groupIds

/-- What a pass from `curr` and `hits` to `curr'` and `hits'` does; the hashes cover `covered`
tokens. -/
structure Passed (covered lcm : ℕ) (gs : List AttentionGroup) (curr : ℕ) (hits : HitsByGroup)
    (curr' : ℕ) (hits' : HitsByGroup) : Prop where
  le : curr' ≤ curr
  covers : curr' ≤ covered
  dvd : lcm ∣ curr'
  length : hits'.length = hits.length
  frame : ∀ i, (∀ g ∈ gs, i ∉ g.groupIds) → hits'[i]? = hits[i]?
  reused : ∀ g ∈ gs, Reused hits g → ∀ i ∈ g.groupIds, hits'[i]? = hits[i]?
  found : ∀ g ∈ gs, ¬ Reused hits g → ∃ n, HasBlocks hits' g n ∧
    curr' ≤ n * g.spec.blockSize ∧ n * g.spec.blockSize ≤ curr
  last : ∀ g, gs.getLast? = some g → ¬ Reused hits g →
    HasBlocks hits' g (curr' / g.spec.blockSize)

section

variable {k : KVCacheManager} {lcm : ℕ} {hashes : List Bytes}

variable {g : AttentionGroup} {gs : List AttentionGroup} {n curr : ℕ} {hits : HitsByGroup}

theorem PassGroups.tail (h : PassGroups k lcm n (g :: gs)) : PassGroups k lcm n gs where
  hybrid := fun g' hg' => h.hybrid g' (mem_cons_of_mem _ hg')
  dvd := fun g' hg' => h.dvd g' (mem_cons_of_mem _ hg')
  hashable := fun g' hg' => h.hashable g' (mem_cons_of_mem _ hg')
  nonempty := fun g' hg' => h.nonempty g' (mem_cons_of_mem _ hg')
  lt := fun g' hg' => h.lt g' (mem_cons_of_mem _ hg')
  disjoint := (pairwise_cons.mp h.disjoint).2

theorem PassGroups.not_mem {i : ℕ} (h : PassGroups k lcm n (g :: gs))
    (hi : i ∈ g.groupIds) : ∀ g' ∈ gs, i ∉ g'.groupIds :=
  fun g' hg' hi' => (pairwise_cons.mp h.disjoint).1 g' hg' hi hi'

theorem PassGroups.headD_mem (h : PassGroups k lcm n gs)
    (hg : g ∈ gs) : g.groupIds.headD 0 ∈ g.groupIds := by
  cases hids : g.groupIds with
  | nil => exact absurd hids (h.nonempty g hg)
  | cons a as => simp

/-- Writing the lists of one group leaves the others as they are. -/
theorem reused_setColumns {g' : AttentionGroup} {rows : List Row} (h : PassGroups k lcm n (g :: gs))
    (hg' : g' ∈ gs) :
    Reused (setColumns k.pool.nullBlock rows 0 g.groupIds hits) g' ↔ Reused hits g' := by
  rw [Reused, Reused, setColumns_of_not_mem fun hi => h.not_mem hi g' hg' (h.tail.headD_mem hg')]

/-- The hashes at the granularity of a group cover the same tokens. -/
theorem hashesAt_length (hashes : List Bytes) {bsz : ℕ} (hpos : 0 < bsz)
    (hdvd : k.pool.hashBlockSize ∣ bsz) : ∃ hs, k.pool.hashesAt bsz hashes = some hs ∧
      hs.length = hashes.length * k.pool.hashBlockSize / bsz := by
  unfold BlockPool.hashesAt
  split
  · rename_i heq
    refine ⟨hashes, rfl, ?_⟩
    rw [← heq, Nat.mul_div_cancel _ hpos]
  · rw [if_pos (Nat.mod_eq_zero_of_dvd hdvd)]
    refine ⟨_, rfl, ?_⟩
    obtain ⟨scale, rfl⟩ := hdvd
    have hhash : 0 < k.pool.hashBlockSize := Nat.pos_of_mul_pos_right hpos
    rw [mergeBlockHashes, length_map, length_range, Nat.mul_div_cancel_left _ hhash,
      Nat.mul_comm, Nat.mul_div_mul_left _ _ hhash]

/-- The tokens that the hashes cover. -/
def coveredTokens (k : KVCacheManager) (hashes : List Bytes) : ℕ :=
  hashes.length * k.pool.hashBlockSize

/-- There are enough hashes to look the group up for `curr` tokens. -/
def EnoughHashes (k : KVCacheManager) (hashes : List Bytes) (curr : ℕ) (g : AttentionGroup) :
    Prop :=
  g.spec.isFull = true ∨
    curr / g.spec.blockSize ≤ k.coveredTokens hashes / g.spec.blockSize

theorem lookup_group (hybrid : g.spec.kind.Hybrid) (hdvd : k.pool.hashBlockSize ∣ g.spec.blockSize)
    (henough : EnoughHashes k hashes curr g) :
    ∃ hs rows, k.pool.hashesAt g.spec.blockSize hashes = some hs ∧
      findLongestCacheHit k.pool g.spec 1 g.groupIds hs curr k.useEagle lcm = some rows ∧
      rows.length * g.spec.blockSize ≤ curr ∧
      rows.length * g.spec.blockSize ≤ k.coveredTokens hashes ∧
      lcm ∣ rows.length * g.spec.blockSize := by
  obtain ⟨hs, hhs, hlen⟩ := hashesAt_length hashes g.spec.blockSize_pos hdvd
  obtain ⟨rows, hrows, hmax, hhashes, haligned⟩ := findLongestCacheHit_shape k.pool hybrid
    g.groupIds k.useEagle lcm (by rw [hlen]; exact henough)
  refine ⟨hs, rows, hhs, hrows, ?_, ?_, haligned⟩
  · exact (Nat.le_div_iff_mul_le g.spec.blockSize_pos).mp hmax
  · rw [hlen] at hhashes
    exact (Nat.le_div_iff_mul_le g.spec.blockSize_pos).mp hhashes

theorem hybridPass_reused (h : Reused hits g) (gs : List AttentionGroup)
    (curr : ℕ) : k.hybridPass lcm hashes (g :: gs) curr hits =
      k.hybridPass lcm hashes gs (curr / g.spec.blockSize * g.spec.blockSize) hits := by
  exact if_pos h

theorem hybridPass_found {hs : List Bytes} {rows : List Row} (h : ¬ Reused hits g)
    (hhs : k.pool.hashesAt g.spec.blockSize hashes = some hs)
    (hrows : findLongestCacheHit k.pool g.spec 1 g.groupIds hs curr k.useEagle lcm = some rows)
    (gs : List AttentionGroup) : k.hybridPass lcm hashes (g :: gs) curr hits =
      k.hybridPass lcm hashes gs (rows.length * g.spec.blockSize)
        (setColumns k.pool.nullBlock rows 0 g.groupIds hits) := by
  refine (if_neg h).trans ?_
  simp only [hhs, bind, bind_some, hrows]

/-- A pass whose first group is looked up. -/
theorem hybridPass_lookup (hgs : PassGroups k lcm hits.length (g :: gs)) (hnew : ¬ Reused hits g)
    (henough : EnoughHashes k hashes curr g)
    (hrest : ∀ curr hits1, hits1.length = hits.length → lcm ∣ curr →
      curr ≤ k.coveredTokens hashes → ∃ curr' hits',
        k.hybridPass lcm hashes gs curr hits1 = some (curr', hits') ∧
        Passed (k.coveredTokens hashes) lcm gs curr hits1 curr' hits') :
    ∃ curr' hits', k.hybridPass lcm hashes (g :: gs) curr hits = some (curr', hits') ∧
      Passed (k.coveredTokens hashes) lcm (g :: gs) curr hits curr' hits' := by
  obtain ⟨hs, rows, hhs, hrows, hle, hcovered, haligned⟩ := lookup_group 
    (hgs.hybrid g mem_cons_self) (hgs.hashable g mem_cons_self) henough
  set hits1 := setColumns k.pool.nullBlock rows 0 g.groupIds hits with hhits1
  obtain ⟨curr', hits', hpass, h⟩ := hrest (rows.length * g.spec.blockSize) hits1
    length_setColumns haligned hcovered
  have hsame : ∀ i, i ∉ g.groupIds → hits1[i]? = hits[i]? := fun i hi => setColumns_of_not_mem hi
  -- the groups that follow have other lists
  have hother : ∀ g' ∈ gs, ∀ i ∈ g'.groupIds, hits1[i]? = hits[i]? := fun g' hg' i hi =>
    hsame i fun hi' => hgs.not_mem hi' g' hg' hi
  have hreused : ∀ g' ∈ gs, (Reused hits1 g' ↔ Reused hits g') := fun g' hg' =>
    reused_setColumns hgs hg'
  have hfound : HasBlocks hits' g rows.length := by
    intro i hi
    rw [h.frame i (hgs.not_mem hi)]
    exact setColumns_of_mem hi (hgs.lt g mem_cons_self i hi)
  refine ⟨curr', hits', ?_, h.le.trans hle, h.covers, h.dvd, h.length.trans length_setColumns,
    ?_, ?_, ?_, ?_⟩
  · rw [hybridPass_found hnew hhs hrows]
    exact hpass
  · intro i hi
    rw [h.frame i fun g' hg' => hi g' (mem_cons_of_mem _ hg'),
      hsame i (hi g mem_cons_self)]
  · intro g' hg' hused i hi
    rcases mem_cons.mp hg' with rfl | hg'
    · exact absurd hused hnew
    · rw [h.reused g' hg' ((hreused g' hg').mpr hused) i hi, hother g' hg' i hi]
  · intro g' hg' hused
    rcases mem_cons.mp hg' with rfl | hg'
    · exact ⟨rows.length, hfound, h.le, hle⟩
    · obtain ⟨n, hn, hlo, hhi⟩ := h.found g' hg' fun hr => hused ((hreused g' hg').mp hr)
      exact ⟨n, hn, hlo, hhi.trans hle⟩
  · intro g' hlast hused
    cases gs with
    | nil =>
      obtain rfl : g = g' := by simpa using hlast
      cases hpass
      rwa [Nat.mul_div_cancel _ g.spec.blockSize_pos]
    | cons g1 gs =>
      rw [getLast?_cons_cons] at hlast
      have hmem := mem_of_getLast? hlast
      exact h.last g' hlast fun hr => hused ((hreused g' hmem).mp hr)

/-- **One pass** from an aligned length that the hashes cover. -/
theorem hybridPass_passed (hgs : PassGroups k lcm hits.length gs) (hdvd : lcm ∣ curr)
    (hcurr : curr ≤ k.coveredTokens hashes) :
    ∃ curr' hits', k.hybridPass lcm hashes gs curr hits = some (curr', hits') ∧
      Passed (k.coveredTokens hashes) lcm gs curr hits curr' hits' := by
  induction gs generalizing curr hits with
  | nil =>
    exact ⟨curr, hits, rfl, le_rfl, hcurr, hdvd, rfl, fun _ _ => rfl, by simp, by simp, by simp⟩
  | cons g gs ih =>
    by_cases hused : Reused hits g
    · -- an aligned length is not shortened by re-counting
      have hcount : curr / g.spec.blockSize * g.spec.blockSize = curr :=
        Nat.div_mul_cancel ((hgs.dvd g mem_cons_self).trans hdvd)
      obtain ⟨curr', hits', hpass, h⟩ := ih hgs.tail hdvd hcurr
      have hkept : ∀ i ∈ g.groupIds, hits'[i]? = hits[i]? := fun i hi =>
        h.frame i (hgs.not_mem hi)
      refine ⟨curr', hits', ?_, h.le, h.covers, h.dvd, h.length, ?_, ?_, ?_, ?_⟩
      · rw [hybridPass_reused hused, hcount]
        exact hpass
      · exact fun i hi => h.frame i fun g' hg' => hi g' (mem_cons_of_mem _ hg')
      · intro g' hg' hr
        rcases mem_cons.mp hg' with rfl | hg'
        · exact hkept
        · exact h.reused g' hg' hr
      · intro g' hg' hr
        rcases mem_cons.mp hg' with rfl | hg'
        · exact absurd hused hr
        · exact h.found g' hg' hr
      · intro g' hlast hr
        cases gs with
        | nil =>
          cases hlast
          exact absurd hused hr
        | cons g1 gs =>
          exact h.last g' hlast hr
    · refine hybridPass_lookup hgs hused (.inr (Nat.div_le_div_right hcurr)) ?_
      intro curr1 hits1 hlen hdvd1 hcurr1
      exact ih (hlen ▸ hgs.tail) hdvd1 hcurr1

/-! ## The loop -/

/-- What the loop ends with: groups of full attention have at least the blocks of `n` tokens, the
others exactly these. -/
structure Settled (gs : List AttentionGroup) (n : ℕ) (hits : HitsByGroup) : Prop where
  full : ∀ g ∈ gs, g.spec.isFull = true → ∃ m, HasBlocks hits g m ∧ n ≤ m * g.spec.blockSize
  other : ∀ g ∈ gs, g.spec.isFull = false → HasBlocks hits g (n / g.spec.blockSize)

theorem reused_of_hasBlocks {m : ℕ} (hgs : PassGroups k lcm n gs) (hg : g ∈ gs)
    (hfull : g.spec.isFull = true) (h : HasBlocks hits g m) : Reused hits g := by
  obtain ⟨blocks, hblocks, -⟩ := h _ (hgs.headD_mem hg)
  refine ⟨hfull, ?_⟩
  rw [hblocks]
  rfl

/-- A pass that does not shorten the hit settles it. -/
theorem Passed.settled {covered : ℕ} {hits' : HitsByGroup} (hgs : PassGroups k lcm hits.length gs)
    (h : Passed covered lcm gs n hits curr hits') (hn : n ≤ curr)
    (hfull : ∀ g ∈ gs, g.spec.isFull = true → Reused hits g →
      ∃ m, HasBlocks hits g m ∧ n ≤ m * g.spec.blockSize) : Settled gs n hits' := by
  have hexact : ∀ g ∈ gs, ¬ Reused hits g → HasBlocks hits' g (n / g.spec.blockSize) := by
    intro g hg hnew
    obtain ⟨m, hm, hlo, hhi⟩ := h.found g hg hnew
    have heq : n = m * g.spec.blockSize := le_antisymm (hn.trans hlo) hhi
    rwa [heq, Nat.mul_div_cancel _ g.spec.blockSize_pos]
  have hcurr : curr = n := le_antisymm h.le hn
  constructor
  · intro g hg hg'
    by_cases hused : Reused hits g
    · obtain ⟨m, hm, hle⟩ := hfull g hg hg' hused
      refine ⟨m, fun i hi => ?_, hle⟩
      rw [h.reused g hg hused i hi]
      exact hm i hi
    · refine ⟨_, hexact g hg hused, ?_⟩
      rw [Nat.div_mul_cancel ((hgs.dvd g hg).trans (hcurr ▸ h.dvd))]
  · intro g hg hg'
    apply hexact g hg
    intro hused
    rw [hused.1] at hg'
    cases hg'

/-- **The loop** from a first pass. -/
theorem hybridLoop_settled {hits1 : HitsByGroup} (fuel : ℕ) (hgs : PassGroups k lcm hits.length gs)
    (hpass : k.hybridPass lcm hashes gs n hits = some (curr, hits1))
    (h : Passed (k.coveredTokens hashes) lcm gs n hits curr hits1) (hfuel : n ≤ fuel)
    (hfull : ∀ g ∈ gs, g.spec.isFull = true → Reused hits g →
      ∃ m, HasBlocks hits g m ∧ n ≤ m * g.spec.blockSize) :
    ∃ n' hits', k.hybridLoop gs lcm false hashes fuel n hits = some (n', hits') ∧ n' ≤ n ∧
      lcm ∣ n' ∧ hits'.length = hits.length ∧ Settled gs n' hits' := by
  rw [hybridLoop_eq, hpass, bind_some]
  induction fuel generalizing n hits curr hits1 with
  | zero =>
    have hn : n ≤ curr := hfuel.trans (Nat.zero_le _)
    exact ⟨n, hits1, if_pos hn, le_rfl, le_antisymm h.le hn ▸ h.dvd, h.length,
      h.settled hgs hn hfull⟩
  | succ fuel ih =>
    by_cases hn : n ≤ curr
    · exact ⟨n, hits1, if_pos hn, le_rfl, le_antisymm h.le hn ▸ h.dvd, h.length,
        h.settled hgs hn hfull⟩
    · -- full attention keeps its lists, and they are long enough for the shorter hit
      have hfull' : ∀ g ∈ gs, g.spec.isFull = true → Reused hits1 g →
          ∃ m, HasBlocks hits1 g m ∧ curr ≤ m * g.spec.blockSize := by
        intro g hg hg' _
        by_cases hused : Reused hits g
        · obtain ⟨m, hm, hle⟩ := hfull g hg hg' hused
          refine ⟨m, fun i hi => ?_, h.le.trans hle⟩
          rw [h.reused g hg hused i hi]
          exact hm i hi
        · obtain ⟨m, hm, hlo, -⟩ := h.found g hg hused
          exact ⟨m, hm, hlo⟩
      have hgs1 : PassGroups k lcm hits1.length gs := h.length ▸ hgs
      obtain ⟨curr2, hits2, hpass2, h2⟩ := hybridPass_passed hgs1 h.dvd h.covers
      obtain ⟨n', hits', hloop, hle, hdvd, hlen, hsettled⟩ :=
        ih hgs1 hpass2 h2 (by omega) hfull'
      refine ⟨n', hits', ?_, hle.trans h.le, hdvd, hlen.trans h.length, hsettled⟩
      refine (if_neg hn).trans ((if_neg Bool.false_ne_true).trans ?_)
      rw [← hloop]
      exact (hybridLoop_eq fuel).trans (congrArg (Option.bind · _) hpass2)

end

/-! ## The whole search -/

theorem truncate_of_not_mem {n : ℕ} (hi : i ∉ ids) : (truncate n ids hits)[i]? = hits[i]? := by
  induction ids generalizing hits with
  | nil => rfl
  | cons g gs ih =>
    have hne : g ≠ i := fun h => hi (h ▸ mem_cons_self)
    rw [truncate, ih fun h => hi (mem_cons_of_mem _ h), getElem?_modify]
    simp [hne]

theorem truncate_of_mem {n : ℕ} {blocks : List BlockId} (hi : i ∈ ids)
    (hget : hits[i]? = some (some blocks)) :
    (truncate n ids hits)[i]? = some (some (blocks.take n)) := by
  induction ids generalizing hits blocks with
  | nil => cases hi
  | cons g gs ih =>
    rw [truncate]
    by_cases hgi : g = i
    · have hcut : (hits.modify g (Option.map (List.take n)))[i]? = some (some (blocks.take n)) := by
        rw [getElem?_modify, hget]
        simp [hgi]
      by_cases hgs : i ∈ gs
      · rw [ih hgs hcut, take_take, Nat.min_self]
      · rw [truncate_of_not_mem hgs, hcut]
    · refine ih ((mem_cons.mp hi).resolve_left (Ne.symm hgi)) ?_
      rw [getElem?_modify, hget]
      simp [hgi]

/-- What the constructor of the coordinator asserts, for specs that can be looked up together. -/
@[mk_iff]
structure Hybrid (k : KVCacheManager) : Prop where
  several : 1 < k.attentionGroups.length
  kinds : ∀ m ∈ k.managers, m.spec.kind.Hybrid
  hashable : ∀ m ∈ k.managers, k.pool.hashBlockSize ∣ m.spec.blockSize

instance (k : KVCacheManager) : Decidable k.Hybrid :=
  decidable_of_iff' _ (hybrid_iff k)

theorem dvd_foldl_lcm (a : ℕ) (l : List ℕ) :
    a ∣ l.foldl Nat.lcm a ∧ ∀ x ∈ l, x ∣ l.foldl Nat.lcm a := by
  induction l generalizing a with
  | nil => simp
  | cons b l ih =>
    obtain ⟨hacc, hall⟩ := ih (Nat.lcm a b)
    refine ⟨(Nat.dvd_lcm_left a b).trans hacc, fun x hx => ?_⟩
    rcases mem_cons.mp hx with rfl | hx
    · exact (Nat.dvd_lcm_right a x).trans hacc
    · exact hall x hx

section

variable {k : KVCacheManager} {hashes : List Bytes}

/-- A KV cache group and its attention group have one spec. -/
theorem attentionGroups_owns (k : KVCacheManager) (spec : KVCacheSpec) (i : ℕ) :
    AttentionGroup.Owns k.attentionGroups spec i ↔
      ∃ m, k.managers[i]? = some m ∧ m.spec = spec := by
  have h := (AttentionGroup.ofSpecs_splits (k.managers.map (·.spec))).owned spec i
  rw [attentionGroups, h, length_map, getElem?_map, map_eq_some_iff]
  constructor
  · exact fun h => h.2
  · rintro ⟨m, hm, hspec⟩
    exact ⟨(List.getElem?_eq_some_iff.mp hm).1, m, hm, hspec⟩

variable {g : AttentionGroup} {n : ℕ}

theorem exists_manager {i : ℕ} (hg : g ∈ k.attentionGroups)
    (hi : i ∈ g.groupIds) : ∃ m, k.managers[i]? = some m ∧ m.spec = g.spec :=
  (attentionGroups_owns k g.spec i).mp ⟨g, hg, rfl, hi⟩

theorem Hybrid.passGroups (h : k.Hybrid) :
    PassGroups k k.lcmBlockSize k.managers.length k.attentionGroups := by
  have hsplits := AttentionGroup.ofSpecs_splits (k.managers.map (·.spec))
  have hspec : ∀ g ∈ k.attentionGroups, ∃ m ∈ k.managers, m.spec = g.spec := by
    intro g hg
    obtain ⟨i, hi⟩ := exists_mem_of_ne_nil _ (hsplits.nonempty g hg)
    obtain ⟨m, hm, heq⟩ := exists_manager hg hi
    exact ⟨m, mem_of_getElem? hm, heq⟩
  refine ⟨fun g hg => ?_, fun g hg => ?_, fun g hg => ?_, hsplits.nonempty, fun g hg i hi => ?_, ?_⟩
  · obtain ⟨m, hm, heq⟩ := hspec g hg
    exact heq ▸ h.kinds m hm
  · exact (dvd_foldl_lcm 1 _).2 _ (mem_map_of_mem hg)
  · obtain ⟨m, hm, heq⟩ := hspec g hg
    exact heq ▸ h.hashable m hm
  · obtain ⟨m, hm, -⟩ := exists_manager hg hi
    exact (List.getElem?_eq_some_iff.mp hm).1
  · -- a KV cache group has one spec, and attention groups have different ones
    refine (pairwise_map.mp hsplits.distinct).imp_of_mem ?_
    intro g g' hg hg' hne i hi hi'
    obtain ⟨m, hm, heq⟩ := exists_manager (k := k) hg hi
    obtain ⟨m', hm', heq'⟩ := exists_manager (k := k) hg' hi'
    rw [hm] at hm'
    cases hm'
    exact hne (heq.symm.trans heq')

/-- Full attention comes first: if the first group is of another kind, all are. -/
theorem not_isFull_of_head {g0 : AttentionGroup} {gs : List AttentionGroup}
    (hgs : k.attentionGroups = g0 :: gs) (h₀ : g0.spec.isFull = false) :
    ∀ g ∈ k.attentionGroups, g.spec.isFull = false := by
  unfold attentionGroups AttentionGroup.ofSpecs at hgs ⊢
  intro g hg
  by_contra hfull
  have hmem : g ∈ (AttentionGroup.split 0 (k.managers.map (·.spec)) []).filter (·.spec.isFull) := by
    rcases mem_append.mp hg with h | h
    · exact h
    · simp [hfull] at h
  cases hfulls : (AttentionGroup.split 0 (k.managers.map (·.spec)) []).filter (·.spec.isFull) with
  | nil =>
    rw [hfulls] at hmem
    cases hmem
  | cons f fs =>
    simp only [hfulls, cons_append, List.cons.injEq] at hgs
    have hf : f ∈ (AttentionGroup.split 0 (k.managers.map (·.spec)) []).filter
        (·.spec.isFull) := hfulls ▸ mem_cons_self
    rw [← hgs.1, (mem_filter.mp hf).2] at h₀
    cases h₀

/-- There are two attention groups, or at most one of full attention. -/
def OneFull (k : KVCacheManager) : Prop :=
  k.attentionGroups.length = 2 ∨ (k.attentionGroups.filter (·.spec.isFull)).length ≤ 1

instance (k : KVCacheManager) : Decidable k.OneFull := inferInstanceAs (Decidable (_ ∨ _))

/-- Without the shortcut for two groups, only the first one can be of full attention. -/
theorem OneFull.not_isFull (hone : k.OneFull) (hsimple : k.isSimpleHybrid = false)
    (hg : g ∈ k.attentionGroups)
    (hhead : k.attentionGroups.head? = some g → g.spec.isFull = false) : g.spec.isFull = false := by
  cases hgs : k.attentionGroups with
  | nil =>
    rw [hgs] at hg
    cases hg
  | cons g0 gs =>
    cases h₀ : g0.spec.isFull with
    | false => exact not_isFull_of_head hgs h₀ g hg
    | true =>
      rw [OneFull, hgs] at hone
      rw [isSimpleHybrid, hgs] at hsimple
      rw [hgs] at hg hhead
      rcases mem_cons.mp hg with rfl | hmem
      · exact hhead rfl
      · by_contra hfull
        rw [Bool.not_eq_false] at hfull
        rcases hone with htwo | hcount
        · simp [htwo, h₀] at hsimple
        · have hpos : 0 < (gs.filter (·.spec.isFull)).length :=
            length_pos_of_mem (mem_filter.mpr ⟨hmem, hfull⟩)
          rw [filter_cons, if_pos h₀, length_cons] at hcount
          omega

/-- The first group can be looked up for the whole length. -/
def CoversFirst (k : KVCacheManager) (hashes : List Bytes) (maxCacheHitLength : ℕ) : Prop :=
  ∀ g ∈ k.attentionGroups.head?, EnoughHashes k hashes maxCacheHitLength g

instance (k : KVCacheManager) (hashes : List Bytes) (n : ℕ) : Decidable (CoversFirst k hashes n) :=
  inferInstanceAs (Decidable (∀ g ∈ k.attentionGroups.head?, _ = true ∨ _ ≤ _))

theorem not_reused_replicate (n : ℕ) (g : AttentionGroup) : ¬ Reused (replicate n none) g := by
  rintro ⟨-, h⟩
  rw [getElem?_replicate] at h
  split at h <;> simp at h

/-- **The first pass.** -/
theorem Hybrid.firstPass (h : k.Hybrid) (hcovers : CoversFirst k hashes n) :
    ∃ curr hits, k.hybridPass k.lcmBlockSize hashes k.attentionGroups n
        (replicate k.managers.length none) = some (curr, hits) ∧
      Passed (k.coveredTokens hashes) k.lcmBlockSize k.attentionGroups n
        (replicate k.managers.length none) curr hits := by
  have hgs := h.passGroups
  cases heq : k.attentionGroups with
  | nil =>
    have := h.several
    rw [heq] at this
    exact absurd this (by decide)
  | cons g gs =>
    rw [heq] at hgs
    have hgs' : PassGroups k k.lcmBlockSize
        (replicate k.managers.length (none : Option (List BlockId))).length (g :: gs) := by
      rwa [length_replicate]
    refine hybridPass_lookup hgs' (not_reused_replicate _ g) (hcovers g (by rw [heq]; rfl)) ?_
    intro curr hits hlen hdvd hcurr
    exact hybridPass_passed (hlen ▸ hgs'.tail) hdvd hcurr

/-- With several passes the loop settles. -/
theorem Hybrid.search_settled (h : k.Hybrid) (hcovers : CoversFirst k hashes n)
    (hsimple : k.isSimpleHybrid = false) :
    ∃ n' hits, k.search hashes n n = some (n', hits) ∧ n' ≤ n ∧ k.lcmBlockSize ∣ n' ∧
      hits.length = k.managers.length ∧ Settled k.attentionGroups n' hits := by
  have hgs : PassGroups k k.lcmBlockSize
      (replicate k.managers.length (none : Option (List BlockId))).length
      k.attentionGroups := by
    rw [length_replicate]
    exact h.passGroups
  obtain ⟨curr, hits, hpass, hpassed⟩ := h.firstPass hcovers
  obtain ⟨n', hits', hloop, hle, hdvd, hlen, hsettled⟩ := hybridLoop_settled n hgs hpass hpassed
    le_rfl fun g _ _ hused => absurd hused (not_reused_replicate _ g)
  refine ⟨n', hits', ?_, hle, hdvd, hlen.trans length_replicate, hsettled⟩
  rw [search, hsimple]
  exact hloop

/-- With two groups, the first of full attention, the first pass decides. -/
theorem Hybrid.search_simple (h : k.Hybrid) (hcovers : CoversFirst k hashes n)
    (hsimple : k.isSimpleHybrid = true) :
    ∃ n' hits, k.search hashes n n = some (n', hits) ∧
      Passed (k.coveredTokens hashes) k.lcmBlockSize k.attentionGroups n
        (replicate k.managers.length none) n' hits := by
  obtain ⟨curr, hits, hpass, hpassed⟩ := h.firstPass hcovers
  refine ⟨curr, hits, ?_, hpassed⟩
  rw [search, hsimple, hybridLoop_eq, hpass, bind_some]
  split
  · rename_i hn
    rw [le_antisymm hpassed.le hn]
  · exact if_pos rfl

/-- What the search ends with if there are two groups or one of full attention: all groups have the
blocks of the final length, but the first may have more if it is of full attention. -/
structure Searched (k : KVCacheManager) (n n' : ℕ) (hits : HitsByGroup) : Prop where
  le : n' ≤ n
  dvd : k.lcmBlockSize ∣ n'
  length : hits.length = k.managers.length
  first : ∀ g ∈ k.attentionGroups.head?, g.spec.isFull = true →
    ∃ m, HasBlocks hits g m ∧ n' ≤ m * g.spec.blockSize
  others : ∀ g ∈ k.attentionGroups, (k.attentionGroups.head? = some g → g.spec.isFull = false) →
    HasBlocks hits g (n' / g.spec.blockSize)

theorem Hybrid.searched (h : k.Hybrid) (hone : k.OneFull) (hcovers : CoversFirst k hashes n) :
    ∃ n' hits, k.search hashes n n = some (n', hits) ∧ Searched k n n' hits := by
  cases hsimple : k.isSimpleHybrid with
  | true =>
    obtain ⟨n', hits, hsearch, hp⟩ := h.search_simple hcovers hsimple
    have hlen : hits.length = k.managers.length := by
      rw [hp.length, length_replicate]
    refine ⟨n', hits, hsearch, hp.le, hp.dvd, hlen, fun g hg _ => ?_, fun g hg hhead => ?_⟩
    · obtain ⟨m, hm, hlo, -⟩ := hp.found g (mem_of_mem_head? hg) (not_reused_replicate _ g)
      exact ⟨m, hm, hlo⟩
    · apply hp.last g _ (not_reused_replicate _ g)
      -- of two groups, one that is not the first is the last
      rw [isSimpleHybrid, Bool.and_eq_true, decide_eq_true_eq] at hsimple
      obtain ⟨f, o, hgs⟩ := length_eq_two.mp hsimple.1
      rw [hgs] at hg hhead hsimple ⊢
      rcases mem_cons.mp hg with rfl | hg
      · have hfull : g.spec.isFull = true := hsimple.2
        rw [hhead rfl] at hfull
        cases hfull
      · rw [mem_singleton.mp hg]
        rfl
  | false =>
    obtain ⟨n', hits, hsearch, hle, hdvd, hlen, hs⟩ := h.search_settled hcovers hsimple
    refine ⟨n', hits, hsearch, hle, hdvd, hlen, fun g hg => hs.full g (mem_of_mem_head? hg),
      fun g hg hhead => hs.other g hg (hone.not_isFull hsimple hg hhead)⟩

/-- **The shape of the hits**: the search ends, and the length it returns is within the given one, a
multiple of all block sizes, and every KV cache group has exactly the blocks of that length. -/
structure HitShape (k : KVCacheManager) (hashes : List Bytes) (maxCacheHitLength : ℕ) : Prop where
  terminates : ∀ more, k.search hashes maxCacheHitLength (maxCacheHitLength + more) =
    k.search hashes maxCacheHitLength maxCacheHitLength
  returns : ∃ hits hitLength, k.hybridHits hashes maxCacheHitLength = some (hits, hitLength) ∧
    hitLength ≤ maxCacheHitLength ∧ hits.length = k.managers.length ∧
    ∀ (i : ℕ) (m : Manager) (blocks : List BlockId), k.managers[i]? = some m →
      hits[i]? = some blocks →
        m.spec.blockSize ∣ hitLength ∧ blocks.length = hitLength / m.spec.blockSize

theorem search_add (k : KVCacheManager) (hashes : List Bytes) (n more : ℕ) :
    k.search hashes n (n + more) = k.search hashes n n := by
  induction more with
  | zero => rfl
  | succ more ih => exact (hybridLoop_succ (Nat.le_add_right n more)).trans ih

/-- Each list after the cut of the first group. -/
theorem Searched.cutFirst {n' : ℕ} {hits : HitsByGroup} (h : k.Hybrid) (hs : Searched k n n' hits)
    (hg : g ∈ k.attentionGroups) :
    HasBlocks (cutFirst k.attentionGroups n' hits) g (n' / g.spec.blockSize) := by
  have hgs := h.passGroups
  cases heq : k.attentionGroups with
  | nil =>
    rw [heq] at hg
    cases hg
  | cons g0 gs =>
    simp only [KVCacheManager.cutFirst]
    cases h₀ : g0.spec.isFull with
    | false =>
      exact hs.others g hg fun _ => not_isFull_of_head heq h₀ g hg
    | true =>
      rw [if_pos rfl]
      rw [heq] at hg hgs
      intro i hi
      rcases mem_cons.mp hg with rfl | hmem
      · obtain ⟨m, hm, hle⟩ := hs.first g (by rw [heq]; rfl) h₀
        obtain ⟨blocks, hblocks, rfl⟩ := hm i hi
        refine ⟨_, truncate_of_mem hi hblocks, ?_⟩
        rw [length_take, Nat.min_eq_left]
        exact Nat.div_le_of_le_mul (by rwa [Nat.mul_comm])
      · have hnot : i ∉ g0.groupIds := fun hi' => hgs.not_mem hi' g hmem hi
        rw [truncate_of_not_mem hnot]
        refine hs.others g (heq ▸ hg) (fun hhead => ?_) i hi
        -- the first group does not share `i`
        rw [heq] at hhead
        cases hhead
        exact absurd hi hnot

theorem Hybrid.hitShape (h : k.Hybrid) (hone : k.OneFull)
    (hcovers : CoversFirst k hashes n) : HitShape k hashes n := by
  obtain ⟨n', hits, hsearch, hs⟩ := h.searched hone hcovers
  refine ⟨search_add k hashes n,
    (KVCacheManager.cutFirst k.attentionGroups n' hits).map (·.getD []), n', ?_, hs.le, ?_,
    fun i m blocks hm hblocks => ?_⟩
  · rw [hybridHits_eq, hsearch]
    rfl
  · rw [length_map, length_cutFirst, hs.length]
  · obtain ⟨g, hg, hspec, hi⟩ := (attentionGroups_owns k m.spec i).mpr ⟨m, hm, rfl⟩
    obtain ⟨l, hl, hlen⟩ := hs.cutFirst h hg i hi
    rw [getElem?_map, hl] at hblocks
    cases hblocks
    rw [← hspec]
    exact ⟨(h.passGroups.dvd g hg).trans hs.dvd, hlen⟩

/-! ## Too few hashes -/

/-- Looking up from the right starts at the last block, which has no hash. -/
theorem findLongestCacheHit_eq_none {p : BlockPool} {spec : KVCacheSpec} (hspec : spec.kind.Hybrid)
    (hfull : spec.isFull = false) (groupIds : List ℕ) {hashes : List Bytes} {maxLength : ℕ}
    (eagle : Bool) (align : ℕ) (h : hashes.length < maxLength / spec.blockSize) :
    findLongestCacheHit p spec 1 groupIds hashes maxLength eagle align = none := by
  obtain ⟨m, hm⟩ : ∃ m, maxLength / spec.blockSize = m + 1 :=
    ⟨maxLength / spec.blockSize - 1, by omega⟩
  have hget : hashes[m]? = none := getElem?_eq_none_iff.mpr (by omega)
  rcases spec with ⟨kind, blockSize, layout, hpos, hproper⟩
  cases kind with
  | full mla => cases hfull
  | slidingWindow w =>
    simp only [findLongestCacheHit, if_true, Lookup.slidingHits]
    rw [hm]
    simp only [Lookup.slidingLoop, hget, bind, bind_none]
  | mamba mode n =>
    simp only [findLongestCacheHit, if_true]
    rw [hm]
    simp only [Lookup.mambaLoop, hget, bind, bind_none]
  | chunkedLocal c => exact hspec.elim
  | crossAttention => exact hspec.elim

theorem Hybrid.coversFirst_of_hits {q : List (List BlockId) × ℕ} (h : k.Hybrid)
    (hhits : k.hybridHits hashes n = some q) : CoversFirst k hashes n := by
  intro g hg
  by_contra henough
  rw [EnoughHashes, not_or, Bool.not_eq_true, Nat.not_le] at henough
  have hmem := mem_of_mem_head? hg
  have hgs := h.passGroups
  obtain ⟨hs', hhs', hlen⟩ := hashesAt_length hashes g.spec.blockSize_pos (hgs.hashable g hmem)
  have hnone : k.hybridPass k.lcmBlockSize hashes k.attentionGroups n
      (replicate k.managers.length none) = none := by
    obtain ⟨gs, hcons⟩ : ∃ gs, k.attentionGroups = g :: gs := by
      cases heq : k.attentionGroups with
      | nil =>
        rw [heq] at hg
        cases hg
      | cons g' gs =>
        rw [heq] at hg
        cases hg
        exact ⟨gs, rfl⟩
    rw [hcons, hybridPass]
    refine (if_neg (not_reused_replicate _ g)).trans ?_
    rw [hhs']
    simp only [bind, bind_some]
    rw [findLongestCacheHit_eq_none (hgs.hybrid g hmem) henough.1 g.groupIds _ _
      (by rw [hlen]; exact henough.2)]
    rfl
  have hsearch : k.search hashes n n = none := by
    rw [search, hybridLoop_eq, hnone, bind_none]
  rw [hybridHits_eq, hsearch] at hhits
  cases hhits

theorem HitShape.coversFirst (h : k.Hybrid) (hs : HitShape k hashes n) :
    CoversFirst k hashes n := by
  obtain ⟨hits, hitLength, hhits, -⟩ := hs.returns
  exact h.coversFirst_of_hits hhits

end

end KVCacheManager

end Nvllm.KVCache
