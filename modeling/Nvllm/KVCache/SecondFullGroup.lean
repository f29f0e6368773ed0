import Nvllm.KVCache.Accounting
import Nvllm.KVCache.HitShape

/-! # A second group of full attention

With three attention groups of which two are of full attention there is always a cache content for
which the hits do not have the shape of `HitShape`: both groups of full attention are cached and the
last group is not. The last group brings the hit down to nothing, and the second group of full
attention keeps the blocks of the first pass.
-/

namespace Nvllm.KVCache

open Nvllm.Run List

/-! ## A cache with some groups -/

/-- Under the empty hash one block for each of the groups. -/
def cacheOf (ids : List ℕ) : BlockHashToBlockMap :=
  ids.foldr (fun g m => Dict.set m ⟨[], g⟩ (.one (g + 1))) ∅

theorem getOneBlock_cacheOf (ids : List ℕ) (g : ℕ) :
    (cacheOf ids).getOneBlock ⟨[], g⟩ = if g ∈ ids then some (g + 1) else none := by
  have hget : (cacheOf ids).get? ⟨[], g⟩ = if g ∈ ids then some (.one (g + 1)) else none := by
    induction ids with
    | nil => rfl
    | cons i ids ih =>
      change (Dict.set (cacheOf ids) ⟨[], i⟩ (.one (i + 1))).get? ⟨[], g⟩ = _
      by_cases hgi : g = i
      · subst hgi
        rw [Dict.get?_set_self, if_pos mem_cons_self]
      · rw [Dict.get?_set_of_ne _ _ (by simpa using hgi), ih]
        simp [hgi]
  unfold BlockHashToBlockMap.getOneBlock
  rw [hget]
  split_ifs <;> rfl

/-- The pool with these groups in the cache. -/
def BlockPool.withCache (p : BlockPool) (ids : List ℕ) : BlockPool :=
  { p with cachedBlockHashToBlock := cacheOf ids }

variable {groupIds : List ℕ}

theorem getCachedBlock_of_subset (p : BlockPool) {ids : List ℕ} (h : ∀ g ∈ groupIds, g ∈ ids) :
    (p.withCache ids).getCachedBlock [] groupIds = some (groupIds.map (· + 1)) := by
  unfold BlockPool.getCachedBlock
  induction groupIds with
  | nil => rfl
  | cons g gs ih =>
    rw [mapM_cons, ih fun g' hg' => h g' (mem_cons_of_mem _ hg')]
    change ((cacheOf ids).getOneBlock ⟨[], g⟩).bind _ = _
    rw [getOneBlock_cacheOf, if_pos (h g mem_cons_self)]
    rfl

theorem getCachedBlock_of_disjoint (p : BlockPool) {ids : List ℕ} (hne : groupIds ≠ [])
    (h : ∀ g ∈ groupIds, g ∉ ids) : (p.withCache ids).getCachedBlock [] groupIds = none := by
  unfold BlockPool.getCachedBlock
  cases groupIds with
  | nil => exact absurd rfl hne
  | cons g gs =>
    change ((cacheOf ids).getOneBlock ⟨[], g⟩).bind _ = _
    rw [getOneBlock_cacheOf, if_neg (h g mem_cons_self)]
    rfl

/-! ## All hits, no hits -/

namespace Lookup

variable {l : Lookup}

theorem leftHits_replicate {row : Row} (h : l.cached [] = some row) (n : ℕ) :
    l.leftHits (replicate n []) = replicate n row := by
  induction n with
  | zero => rfl
  | succ n ih => rw [replicate_succ, leftHits, h, ih, replicate_succ]

variable {m n : ℕ}

/-- If all blocks are cached, full attention loses at most one aligned step to EAGLE. -/
theorem le_length_fullHits {row : Row} (h : l.cached [] = some row) {maxLength : ℕ}
    (hhashes : l.hashes = replicate n []) (hn : m < n) (hmax : m < maxLength / l.blockSize)
    (hm : l.AlignedAt m) : m ≤ (l.fullHits maxLength).length := by
  unfold fullHits
  rw [hhashes, take_replicate, leftHits_replicate h, length_popAligned]
  apply le_alignedLength _ hm
  split
  · rw [length_dropLast, length_replicate]
    omega
  · rw [length_replicate]
    omega

theorem slidingLoop_miss (h : l.cached [] = none) {needed : ℕ} {rows : List Row}
    (hhashes : l.hashes = replicate n []) (hm : m ≤ n) :
    l.slidingLoop needed m rows 0 = some (rows, 0, false) := by
  induction m with
  | zero => rfl
  | succ m ih =>
    have hget : l.hashes[m]? = some [] := by
      rw [hhashes, getElem?_replicate, if_pos (by omega)]
    simp only [slidingLoop, hget, bind, Option.bind_some, h]
    exact ih (by omega)

theorem mambaLoop_miss (h : l.cached [] = none) (hhashes : l.hashes = replicate n [])
    (hm : m ≤ n) : l.mambaLoop m = some [] := by
  induction m with
  | zero => rfl
  | succ m ih =>
    have hget : l.hashes[m]? = some [] := by
      rw [hhashes, getElem?_replicate, if_pos (by omega)]
    simp only [mambaLoop, hget, bind, Option.bind_some, h]
    exact ih (by omega)

end Lookup

theorem findLongestCacheHit_full (p : BlockPool) {spec : KVCacheSpec} (hfull : spec.isFull = true)
    (groupIds : List ℕ) (hashes : List Bytes) (maxLength : ℕ) (eagle : Bool) (align : ℕ) :
    findLongestCacheHit p spec 1 groupIds hashes maxLength eagle align =
      some (Lookup.fullHits ⟨p, groupIds, hashes, spec.blockSize, align, eagle⟩ maxLength) := by
  rcases spec with ⟨kind, blockSize, layout, hpos, hproper⟩
  cases kind with
  | full mla => rfl
  | slidingWindow w => cases hfull
  | chunkedLocal c => cases hfull
  | mamba mode n => cases hfull
  | crossAttention => cases hfull

theorem popAligned_nil (b a : ℕ) : popAligned b a [] = [] := rfl

/-- If nothing is cached there is no hit. -/
theorem findLongestCacheHit_miss {p : BlockPool} {spec : KVCacheSpec} (hspec : spec.kind.Hybrid)
    (hmiss : p.getCachedBlock [] groupIds = none) {n maxLength : ℕ} (eagle : Bool) (align : ℕ)
    (hn : maxLength / spec.blockSize ≤ n) :
    findLongestCacheHit p spec 1 groupIds (replicate n []) maxLength eagle align =
      some [] := by
  rcases spec with ⟨kind, blockSize, layout, hpos, hproper⟩
  let l : Lookup := ⟨p, groupIds, replicate n [], blockSize, align, eagle⟩
  have hcached : l.cached [] = none := hmiss
  cases kind with
  | full mla =>
    have hleft : l.leftHits (l.hashes.take (maxLength / blockSize)) = [] := by
      rw [take_replicate]
      cases min (maxLength / blockSize) n with
      | zero => rfl
      | succ m => rw [replicate_succ, Lookup.leftHits, hcached]
    change some (l.fullHits maxLength) = some []
    rw [Lookup.fullHits, hleft]
    simp [popAligned_nil]
  | slidingWindow w =>
    change l.slidingHits w maxLength = some []
    simp only [Lookup.slidingHits, bind]
    rw [Lookup.slidingLoop_miss hcached rfl hn]
    simp [popAligned_nil]
  | mamba mode m =>
    exact Lookup.mambaLoop_miss hcached rfl hn
  | chunkedLocal c => exact hspec.elim
  | crossAttention => exact hspec.elim

/-! ## The search fails -/

namespace KVCacheManager

theorem hashesAt_replicate {p : BlockPool} {bsz : ℕ} (hpos : 0 < bsz) (hdvd : p.hashBlockSize ∣ bsz)
    (n : ℕ) : p.hashesAt bsz (replicate n []) =
      some (replicate (n * p.hashBlockSize / bsz) []) := by
  unfold BlockPool.hashesAt
  split
  · rename_i heq
    rw [← heq, Nat.mul_div_cancel _ hpos]
  · rw [if_pos (Nat.mod_eq_zero_of_dvd hdvd), Option.some.injEq]
    obtain ⟨scale, rfl⟩ := hdvd
    have hhash : 0 < p.hashBlockSize := Nat.pos_of_mul_pos_right hpos
    rw [Nat.mul_div_cancel_left _ hhash, Nat.mul_comm n, Nat.mul_div_mul_left _ _ hhash,
      eq_replicate_iff]
    constructor
    · rw [mergeBlockHashes, length_map, length_range, length_replicate]
    · intro b hb
      obtain ⟨i, -, rfl⟩ := mem_map.mp hb
      rw [drop_replicate, take_replicate, flatten_replicate_nil]

theorem lcmBlockSize_pos (k : KVCacheManager) : 0 < k.lcmBlockSize := by
  have hfold : ∀ (l : List ℕ) (a : ℕ), 0 < a → (∀ x ∈ l, 0 < x) → 0 < l.foldl Nat.lcm a := by
    intro l
    induction l with
    | nil => exact fun a ha _ => ha
    | cons b l ih =>
      intro a ha hl
      exact ih _ (Nat.lcm_pos ha (hl b mem_cons_self)) fun x hx =>
        hl x (mem_cons_of_mem _ hx)
  refine hfold _ 1 Nat.one_pos fun x hx => ?_
  obtain ⟨g, -, rfl⟩ := mem_map.mp hx
  exact g.spec.blockSize_pos

/-- The manager with other blocks in the cache. -/
def withCache (k : KVCacheManager) (ids : List ℕ) : KVCacheManager :=
  { k with pool := k.pool.withCache ids }

variable {k : KVCacheManager}

theorem coveredTokens_replicate (k : KVCacheManager) (ids : List ℕ) (n : ℕ) :
    (k.withCache ids).coveredTokens (replicate n []) = n * k.pool.hashBlockSize := by
  rw [coveredTokens, length_replicate]
  rfl

theorem Hybrid.withCache (h : k.Hybrid) (ids : List ℕ) : (k.withCache ids).Hybrid :=
  { h with }

variable {curr n : ℕ} {g : AttentionGroup} {hits : HitsByGroup}

/-- A group of full attention that is cached everywhere. -/
theorem lookup_cached (h : k.Hybrid) {ids : List ℕ} (hg : g ∈ k.attentionGroups)
    (hfull : g.spec.isFull = true) (hids : ∀ i ∈ g.groupIds, i ∈ ids) {m : ℕ}
    (hn : (m + 1) * k.lcmBlockSize ≤ n * k.pool.hashBlockSize)
    (hcurr : (m + 1) * k.lcmBlockSize ≤ curr) (eagle : Bool) :
    ∃ rows, findLongestCacheHit (k.pool.withCache ids) g.spec 1 g.groupIds
        (replicate (n * k.pool.hashBlockSize / g.spec.blockSize) []) curr eagle
        k.lcmBlockSize = some rows ∧ m * k.lcmBlockSize ≤ rows.length * g.spec.blockSize ∧
      k.lcmBlockSize ∣ rows.length * g.spec.blockSize ∧
      rows.length * g.spec.blockSize ≤ n * k.pool.hashBlockSize := by
  obtain ⟨c, hc⟩ := h.passGroups.dvd g hg
  have hpos := g.spec.blockSize_pos
  have hcpos : 0 < c := by
    have := k.lcmBlockSize_pos
    rw [hc] at this
    exact Nat.pos_of_mul_pos_left this
  -- in blocks of the group
  have hlt : ∀ x, (m + 1) * k.lcmBlockSize ≤ x → m * c < x / g.spec.blockSize := by
    intro x hx
    rw [hc, Nat.mul_comm g.spec.blockSize, ← Nat.mul_assoc] at hx
    have hle := (Nat.le_div_iff_mul_le hpos).mpr hx
    rw [Nat.succ_mul] at hle
    omega
  have hwidth : m * c * g.spec.blockSize = m * k.lcmBlockSize := by
    rw [Nat.mul_assoc, Nat.mul_comm c, ← hc]
  let l : Lookup := ⟨k.pool.withCache ids, g.groupIds,
    replicate (n * k.pool.hashBlockSize / g.spec.blockSize) [], g.spec.blockSize,
    k.lcmBlockSize, eagle⟩
  have hcached : l.cached [] = some (g.groupIds.map (· + 1)) :=
    getCachedBlock_of_subset k.pool hids
  have haligned : l.AlignedAt (m * c) := by
    change k.lcmBlockSize ∣ m * c * g.spec.blockSize
    rw [hwidth]
    exact Dvd.intro_left _ rfl
  refine ⟨l.fullHits curr, findLongestCacheHit_full _ hfull _ _ _ _ _, ?_,
    Lookup.fullHits_alignedAt curr, ?_⟩
  · rw [← hwidth]
    apply Nat.mul_le_mul_right
    exact Lookup.le_length_fullHits hcached rfl (hlt _ hn) (hlt _ hcurr) haligned
  · have hle := (Lookup.length_fullHits_le (l := l) curr).trans (Nat.min_le_right ..)
    rw [length_replicate] at hle
    exact (Nat.le_div_iff_mul_le hpos).mp hle

/-- Passes can be joined. -/
theorem hybridPass_append (k : KVCacheManager) (lcm : ℕ) (hashes : List Bytes)
    (gs gs' : List AttentionGroup) (curr : ℕ) (hits : HitsByGroup) :
    k.hybridPass lcm hashes (gs ++ gs') curr hits =
      (k.hybridPass lcm hashes gs curr hits).bind fun q =>
        k.hybridPass lcm hashes gs' q.1 q.2 := by
  induction gs generalizing curr hits with
  | nil => rfl
  | cons g gs ih =>
    rw [cons_append, hybridPass, hybridPass]
    split
    · exact ih _ _
    · simp only [bind, Option.bind_assoc, ih]

/-- Two groups of full attention in front, and a last one behind them. -/
theorem exists_of_not_oneFull (hone : ¬ k.OneFull) : ∃ f f' init last,
    k.attentionGroups = f :: f' :: (init ++ [last]) ∧ f.spec.isFull = true ∧
      f'.spec.isFull = true := by
  rw [OneFull, not_or] at hone
  obtain ⟨hlen, hcount⟩ := hone
  set gs := AttentionGroup.split 0 (k.managers.map (·.spec)) [] with hgs
  have hsorted : k.attentionGroups =
      gs.filter (·.spec.isFull) ++ gs.filter fun g => !g.spec.isFull := rfl
  have hfulls : k.attentionGroups.filter (·.spec.isFull) = gs.filter (·.spec.isFull) := by
    rw [hsorted, filter_append, filter_filter, filter_filter]
    simp
  rw [hfulls] at hcount
  obtain ⟨f, f', fs, heq⟩ : ∃ f f' fs, gs.filter (·.spec.isFull) = f :: f' :: fs := by
    rcases hlist : gs.filter (·.spec.isFull) with _ | ⟨f, _ | ⟨f', fs⟩⟩
    · simp [hlist] at hcount
    · simp [hlist] at hcount
    · exact ⟨f, f', fs, hlist⟩
  have hfull : ∀ g ∈ f :: f' :: fs, g.spec.isFull = true := by
    intro g hg
    rw [← heq] at hg
    exact (mem_filter.mp hg).2
  rw [hsorted, heq] at hlen
  rcases eq_nil_or_concat (fs ++ gs.filter fun g => !g.spec.isFull) with hnil | ⟨init, last, hl⟩
  · simp [append_eq_nil_iff.mp hnil] at hlen
  · refine ⟨f, f', init, last, ?_, hfull f (by simp), hfull f' (by simp)⟩
    rw [concat_eq_append] at hl
    rw [hsorted, heq, cons_append, cons_append, hl]

theorem PassGroups.append_left {lcm : ℕ} {gs gs' : List AttentionGroup}
    (h : PassGroups k lcm n (gs ++ gs')) : PassGroups k lcm n gs where
  hybrid := fun g hg => h.hybrid g (mem_append_left _ hg)
  dvd := fun g hg => h.dvd g (mem_append_left _ hg)
  hashable := fun g hg => h.hashable g (mem_append_left _ hg)
  nonempty := fun g hg => h.nonempty g (mem_append_left _ hg)
  lt := fun g hg => h.lt g (mem_append_left _ hg)
  disjoint := (pairwise_append.mp h.disjoint).1

/-- A group whose lists are not set is not reused. -/
theorem not_reused_of_none (hne : g.groupIds ≠ [])
    (h : ∀ i ∈ g.groupIds, hits[i]?.join = none) : ¬ Reused hits g := by
  rintro ⟨-, hsome⟩
  have hhead : g.groupIds.headD 0 ∈ g.groupIds := by
    cases hids : g.groupIds with
    | nil => exact absurd hids hne
    | cons a as => simp
  rw [h _ hhead] at hsome
  cases hsome

/-- A cached group of full attention in a pass. -/
theorem hybridPass_cached (h : k.Hybrid) (ids : List ℕ) (hg : g ∈ k.attentionGroups)
    (hfull : g.spec.isFull = true) (hids : ∀ i ∈ g.groupIds, i ∈ ids) {m : ℕ}
    (hn : (m + 1) * k.lcmBlockSize ≤ n * k.pool.hashBlockSize)
    (hcurr : (m + 1) * k.lcmBlockSize ≤ curr) (hnone : ∀ i ∈ g.groupIds, hits[i]?.join = none)
    (gs : List AttentionGroup) :
    ∃ rows : List Row, (k.withCache ids).hybridPass k.lcmBlockSize (replicate n []) (g :: gs)
        curr hits = (k.withCache ids).hybridPass k.lcmBlockSize (replicate n []) gs
          (rows.length * g.spec.blockSize)
          (setColumns k.pool.nullBlock rows 0 g.groupIds hits) ∧
      m * k.lcmBlockSize ≤ rows.length * g.spec.blockSize ∧
      k.lcmBlockSize ∣ rows.length * g.spec.blockSize ∧
      rows.length * g.spec.blockSize ≤ n * k.pool.hashBlockSize := by
  have hgroups := h.passGroups
  obtain ⟨rows, hrows, hlong, hdvd, hcov⟩ := lookup_cached h hg hfull hids hn hcurr k.useEagle
  have hhashes : (k.withCache ids).pool.hashesAt g.spec.blockSize (replicate n []) =
      some (replicate (n * k.pool.hashBlockSize / g.spec.blockSize) []) :=
    hashesAt_replicate (p := k.pool.withCache ids) g.spec.blockSize_pos (hgroups.hashable g hg) n
  have hnew := not_reused_of_none (hgroups.nonempty g hg) hnone
  exact ⟨rows, hybridPass_found hnew hhashes hrows gs, hlong, hdvd, hcov⟩

/-- A group without cached blocks at the end of a pass. -/
theorem hybridPass_missed (h : k.Hybrid) (ids : List ℕ) (hg : g ∈ k.attentionGroups)
    (hids : ∀ i ∈ g.groupIds, i ∉ ids) (hcurr : curr ≤ n * k.pool.hashBlockSize)
    (hnone : ∀ i ∈ g.groupIds, hits[i]?.join = none) :
    (k.withCache ids).hybridPass k.lcmBlockSize (replicate n []) [g] curr hits =
      some (0, setColumns k.pool.nullBlock [] 0 g.groupIds hits) := by
  have hgroups := h.passGroups
  have hhashes : (k.withCache ids).pool.hashesAt g.spec.blockSize (replicate n []) =
      some (replicate (n * k.pool.hashBlockSize / g.spec.blockSize) []) :=
    hashesAt_replicate (p := k.pool.withCache ids) g.spec.blockSize_pos (hgroups.hashable g hg) n
  have hmiss := findLongestCacheHit_miss (hgroups.hybrid g hg)
    (getCachedBlock_of_disjoint k.pool (hgroups.nonempty g hg) hids) k.useEagle k.lcmBlockSize
    (Nat.div_le_div_right hcurr)
  have hnew := not_reused_of_none (hgroups.nonempty g hg) hnone
  rw [hybridPass_found hnew hhashes hmiss, length_nil, Nat.zero_mul]
  rfl

/-- **The first pass** with the first two groups cached and the last one not: the hit is empty, but
the second group has blocks. -/
theorem firstPass_keeps (h : k.Hybrid) {f f' last : AttentionGroup} {init : List AttentionGroup}
    (hgs : k.attentionGroups = f :: f' :: (init ++ [last])) (hf : f.spec.isFull = true)
    (hf' : f'.spec.isFull = true) (hn : n * k.pool.hashBlockSize = 3 * k.lcmBlockSize) :
    ∃ hits m, (k.withCache (f.groupIds ++ f'.groupIds)).hybridPass k.lcmBlockSize
        (replicate n []) k.attentionGroups (3 * k.lcmBlockSize)
        (replicate k.managers.length none) = some (0, hits) ∧
      hits.length = k.managers.length ∧ HasBlocks hits f' m ∧ 0 < m := by
  have hpos := k.lcmBlockSize_pos
  have hpass : PassGroups (k.withCache (f.groupIds ++ f'.groupIds)) k.lcmBlockSize
      k.managers.length (f :: f' :: (init ++ [last])) := by
    rw [← hgs]
    exact (h.withCache _).passGroups
  have hlast : last ∈ init ++ [last] := by simp
  have hnone : ∀ i : ℕ, ((replicate k.managers.length (none : Option (List BlockId)))[i]?).join =
      none := by
    intro i
    rw [getElem?_replicate]
    split <;> rfl
  -- the first two groups hit, and each loses at most one step
  obtain ⟨rows, hfirst, hlong, -, -⟩ := hybridPass_cached h (f.groupIds ++ f'.groupIds)
    (g := f) (by simp [hgs]) hf (fun i hi => mem_append_left _ hi) (n := n) (m := 2)
    (by omega) le_rfl (fun i _ => hnone i) (f' :: (init ++ [last]))
  set hits1 := setColumns k.pool.nullBlock rows 0 f.groupIds
    (replicate k.managers.length none) with hhits1
  have hother : ∀ g ∈ f' :: (init ++ [last]), ∀ i ∈ g.groupIds, hits1[i]?.join = none := by
    intro g hg i hi
    rw [hhits1, setColumns_of_not_mem fun hi' => hpass.not_mem hi' g hg hi]
    exact hnone i
  obtain ⟨rows', hsecond, hlong', hdvd', hcov'⟩ := hybridPass_cached h (f.groupIds ++ f'.groupIds)
    (g := f') (by simp [hgs]) hf' (fun i hi => mem_append_right _ hi) (n := n) (m := 1)
    (by omega) hlong (fun i hi => hother f' mem_cons_self i hi) (init ++ [last])
  set hits2 := setColumns k.pool.nullBlock rows' 0 f'.groupIds hits1 with hhits2
  have hlen2 : hits2.length = k.managers.length := by
    rw [hhits2, length_setColumns, hhits1, length_setColumns, length_replicate]
  -- the groups in between, and the last one, which misses
  have hinit : PassGroups (k.withCache (f.groupIds ++ f'.groupIds)) k.lcmBlockSize hits2.length
      init := hlen2 ▸ hpass.tail.tail.append_left
  rw [← coveredTokens_replicate k (f.groupIds ++ f'.groupIds)] at hcov'
  obtain ⟨curr, hits3, hmiddle, hpassed⟩ := hybridPass_passed hinit hdvd' hcov'
  have hcovers := hpassed.covers
  rw [coveredTokens_replicate] at hcovers
  have hkept : ∀ i ∈ last.groupIds, hits3[i]?.join = none := by
    intro i hi
    have hdisjoint := (pairwise_append.mp hpass.tail.tail.disjoint).2.2
    rw [hpassed.frame i fun g hg hi' => hdisjoint g hg last mem_cons_self hi' hi, hhits2,
      setColumns_of_not_mem fun hi' => hpass.tail.not_mem hi' last hlast hi]
    exact hother last (mem_cons_of_mem _ hlast) i hi
  have hmissed := hybridPass_missed h (f.groupIds ++ f'.groupIds) (g := last) (by simp [hgs])
    (by
      intro i hi hi'
      rcases mem_append.mp hi' with hi' | hi'
      · exact hpass.not_mem hi' last (mem_cons_of_mem _ hlast) hi
      · exact hpass.tail.not_mem hi' last hlast hi)
    hcovers hkept
  refine ⟨setColumns k.pool.nullBlock [] 0 last.groupIds hits3, rows'.length, ?_, ?_,
    fun i hi => ?_, ?_⟩
  · rw [hgs, hfirst, hsecond, hybridPass_append, hmiddle, Option.bind_some]
    exact hmissed
  · rw [length_setColumns, hpassed.length, hlen2]
  · have hnot : i ∉ last.groupIds := hpass.tail.not_mem hi last hlast
    rw [setColumns_of_not_mem hnot,
      hpassed.frame i fun g hg => hpass.tail.not_mem hi g (mem_append_left _ hg)]
    refine setColumns_of_mem hi ?_
    rw [hhits1, length_setColumns, length_replicate]
    exact hpass.lt f' (by simp) i hi
  · by_contra hzero
    have : rows'.length = 0 := by omega
    rw [this] at hlong'
    omega

/-- **Necessity.** -/
theorem exists_not_hitShape (h : k.Hybrid) (hone : ¬ k.OneFull) :
    ∃ ids hashes n, CoversFirst (k.withCache ids) hashes n ∧
      ¬ HitShape (k.withCache ids) hashes n := by
  obtain ⟨f, f', init, last, hgs, hf, hf'⟩ := exists_of_not_oneFull hone
  obtain ⟨c, hc⟩ : k.pool.hashBlockSize ∣ k.lcmBlockSize :=
    (h.passGroups.hashable f (by simp [hgs])).trans (h.passGroups.dvd f (by simp [hgs]))
  have hn : 3 * c * k.pool.hashBlockSize = 3 * k.lcmBlockSize := by
    rw [hc, Nat.mul_assoc, Nat.mul_comm c]
  obtain ⟨hits, m, hfirst, hlen, hblocks, hm⟩ := firstPass_keeps h hgs hf hf' hn
  have hpos := k.lcmBlockSize_pos
  set ids := f.groupIds ++ f'.groupIds with hids
  refine ⟨ids, replicate (3 * c) [], 3 * k.lcmBlockSize, ?_, fun hshape => ?_⟩
  · intro g hg
    rw [show (k.withCache ids).attentionGroups = k.attentionGroups from rfl, hgs] at hg
    cases hg
    exact .inl hf
  -- the second pass changes nothing
  have hpass : PassGroups (k.withCache ids) k.lcmBlockSize hits.length k.attentionGroups :=
    hlen ▸ (h.withCache ids).passGroups
  have hcov : 0 ≤ (k.withCache ids).coveredTokens (replicate (3 * c) []) := Nat.zero_le _
  have hzero : k.lcmBlockSize ∣ 0 := ⟨0, rfl⟩
  obtain ⟨curr, hits', hsecond, hpassed⟩ := hybridPass_passed hpass hzero hcov
  have hmem' : f' ∈ k.attentionGroups := by simp [hgs]
  have hkept : HasBlocks hits' f' m := by
    intro i hi
    rw [hpassed.reused f' hmem' (reused_of_hasBlocks hpass hmem' hf' hblocks) i hi]
    exact hblocks i hi
  have hsearch : (k.withCache ids).search (replicate (3 * c) []) (3 * k.lcmBlockSize)
      (3 * k.lcmBlockSize) = some (0, hits') := by
    have hsimple : k.isSimpleHybrid = false := by
      rw [isSimpleHybrid, hgs]
      simp
    obtain ⟨t, ht⟩ : ∃ t, 3 * k.lcmBlockSize = t + 1 := ⟨3 * k.lcmBlockSize - 1, by omega⟩
    change (k.withCache ids).hybridLoop k.attentionGroups k.lcmBlockSize k.isSimpleHybrid
      (replicate (3 * c) []) (3 * k.lcmBlockSize) (3 * k.lcmBlockSize)
      (replicate k.managers.length none) = _
    rw [ht] at hfirst ⊢
    rw [hsimple, hybridLoop_eq, hfirst, Option.bind_some, if_neg (Nat.not_succ_le_zero t),
      if_neg Bool.false_ne_true]
    refine (hybridLoop_eq t).trans ?_
    rw [hsecond, Option.bind_some, if_pos (Nat.zero_le _)]
  obtain ⟨found, hitLength, hhits, -, -, hexact⟩ := hshape.returns
  rw [hybridHits_eq, hsearch] at hhits
  cases hhits
  -- the second group is not cut
  obtain ⟨i, hi⟩ := exists_mem_of_ne_nil _ (hpass.nonempty f' hmem')
  obtain ⟨blocks, hget, hlength⟩ := hkept i hi
  obtain ⟨mgr, hmgr, -⟩ := exists_manager hmem' hi
  have hcut : (cutFirst k.attentionGroups 0 hits')[i]? = some (some blocks) := by
    rw [hgs, cutFirst, if_pos hf, truncate_of_not_mem, hget]
    rw [hgs] at hpass
    exact fun hi' => hpass.not_mem hi' f' mem_cons_self hi
  have hbad := (hexact i mgr blocks hmgr (by rw [getElem?_map]; exact congrArg _ hcut)).2
  rw [Nat.zero_div] at hbad
  omega

/-- **Hybrid hits** have the right shape for every cache content, every list of hashes and every
maximal length that the hashes of the first group cover, if and only if there are two attention
groups or at most one of full attention. With too few hashes for the first group the search
raises. -/
theorem hitShape_iff_oneFull (h : k.Hybrid) :
    (∀ pool, pool.hashBlockSize = k.pool.hashBlockSize → ∀ hashes maxCacheHitLength,
      (HitShape { k with pool } hashes maxCacheHitLength ↔
        CoversFirst { k with pool } hashes maxCacheHitLength)) ↔ k.OneFull := by
  constructor
  · intro hall
    by_contra hone
    obtain ⟨ids, hashes, n, hcovers, hno⟩ := exists_not_hitShape h hone
    exact hno ((hall (k.pool.withCache ids) rfl hashes n).mpr hcovers)
  · intro hone pool hpool hashes n
    have hpoolHybrid : Hybrid { k with pool } :=
      ⟨h.several, h.kinds, fun m hm => by rw [hpool]; exact h.hashable m hm⟩
    exact ⟨HitShape.coversFirst hpoolHybrid, hpoolHybrid.hitShape hone⟩

/-- Two groups of full attention and a sliding window. -/
theorem twoFull_hits_misshapen : ∃ k0, init twoFullConfig = some k0 ∧ k0.Hybrid ∧
    ¬ ∀ pool, pool.hashBlockSize = k0.pool.hashBlockSize → ∀ hashes maxCacheHitLength,
      (HitShape { k0 with pool } hashes maxCacheHitLength ↔
        CoversFirst { k0 with pool } hashes maxCacheHitLength) := by
  obtain ⟨k0, hk0, hhybrid, hone⟩ : ∃ k0 ∈ init twoFullConfig, k0.Hybrid ∧ ¬ k0.OneFull := by
    decide +kernel
  exact ⟨k0, hk0, hhybrid, fun hall => hone ((hitShape_iff_oneFull hhybrid).mp hall)⟩

/-- After a first request and the eviction of two blocks of the window group, a request with the
same four blocks hits two of them: the second group of full attention returns four. -/
theorem second_full_group_keeps_blocks : ∃ k0 k, init twoFullConfig = some k0 ∧
    run step k0 (twoFullCalls.take 2) = some k ∧
    (k.hybridHits (digests 5) 4).map (fun q => (q.1.map List.length, q.2)) = some ([2, 4, 2], 2) ∧
    ¬ HitShape k (digests 5) 4 := by
  obtain ⟨k0, hk0, k, hk, hhits, m, hm, hone⟩ : ∃ k0 ∈ init twoFullConfig,
      ∃ k ∈ run step k0 (twoFullCalls.take 2),
        (k.hybridHits (digests 5) 4).map (fun q => (q.1.map List.length, q.2)) =
          some ([2, 4, 2], 2) ∧ ∃ m ∈ k.managers[1]?, m.spec.blockSize = 1 := by
    decide +kernel
  refine ⟨k0, k, hk0, hk, hhits, fun hshape => ?_⟩
  obtain ⟨hits, n, hsearch, -, -, hlen⟩ := hshape.returns
  rw [hsearch] at hhits
  obtain ⟨hlens, rfl⟩ := Prod.mk.inj (Option.some.inj hhits)
  -- the second group
  obtain ⟨blocks, hblocks, hfour⟩ : ∃ blocks, hits[1]? = some blocks ∧ blocks.length = 4 := by
    have h1 : (hits.map List.length)[1]? = some 4 := by rw [hlens]; rfl
    rw [List.getElem?_map] at h1
    exact Option.map_eq_some_iff.mp h1
  have htwo := (hlen 1 m blocks hm hblocks).2
  rw [hfour, hone] at htwo
  cases htwo

end KVCacheManager

end Nvllm.KVCache
