import Nvllm.KVCache.Together

/-! # Hits survive their own allocation

The coordinator serves the groups of a request one after the other from the shared free queue. The
hits of the later groups may still be in that queue: nobody references them before their group is
reached. So the new blocks that an earlier group takes for external tokens may be hits of a later
one; they lose their hash and end up in two tables. This is `reserve` on the free queue, and the
hits survive exactly if its shares are apart.
-/

namespace Nvllm.KVCache

open BlockPool Nvllm.Reserve Nvllm.Run List Option

namespace KVCacheManager

/-! ## All groups -/

/-- What each group of the request claims from the free queue. -/
def claims (k : KVCacheManager) (r : RequestId) (hits : List (List BlockId))
    (numLocal numExternal : ℕ) : List (Claim BlockId) :=
  zipWith (fun m hs => m.claim r hs numLocal numExternal) k.managers hits

variable {hits news : List (List BlockId)} {r : RequestId} {n : ℕ} {k k' : KVCacheManager}

theorem forManagersHits_placed {numLocal numExternal : ℕ} {ms ms' : List Manager} {p p' : BlockPool}
    {as : List BlockId} (h : p.Queued as) (hlt : ∀ hs ∈ hits, ∀ b ∈ hs, b < p.numGpuBlocks)
    (hempty : ∀ m ∈ ms, m.table r = [])
    (he : forManagersHits (fun m hs p => m.allocateNewComputedBlocks r hs numLocal numExternal p)
      ms hits p = some (ms', p')) :
    let cs := zipWith (fun m hs => Manager.claim m r hs numLocal numExternal) ms hits
    (p'.Queued (left as cs) ∧ p.SameShape p' ∧ ∀ b, (∀ s ∈ reserve as cs, b ∉ s.fresh) →
      (p'.block b).blockHash = (p.block b).blockHash) ∧
    ms'.length = ms.length ∧
    ∀ (i : ℕ) (m : Manager), ms[i]? = some m → ∃ hs s m', hits[i]? = some hs ∧
      (reserve as cs)[i]? = some s ∧ ms'[i]? = some m' ∧
      m.Placed p.nullBlock r hs (numLocal + numExternal) s m' := by
  induction ms generalizing hits p as ms' with
  | nil =>
    cases he
    exact ⟨⟨h, .refl _, fun _ _ => rfl⟩, rfl, fun i m hi => by simp at hi⟩
  | cons m ms ih =>
    cases hits with
    | nil => cases he
    | cons hs hits =>
      simp only [forManagersHits, bind, bind_eq_some_iff] at he
      obtain ⟨⟨m1, p1⟩, hm, ⟨ms1, p2⟩, hms, he⟩ := he
      cases he
      obtain ⟨hplaced, hserved⟩ := Manager.allocateNewComputedBlocks_placed h
        (hlt hs mem_cons_self) (hempty m mem_cons_self) hm
      obtain ⟨⟨hqueued, hshape, hhash⟩, hlen, hgroups⟩ := ih hserved.queued
        (fun hs' hmem b hb => by
          rw [hserved.shape.numGpuBlocks]
          exact hlt hs' (mem_cons_of_mem _ hmem) b hb)
        (fun m' hm' => hempty m' (mem_cons_of_mem _ hm')) hms
      refine ⟨⟨hqueued, hserved.shape.trans hshape, fun b hb => ?_⟩, by simp [hlen],
        fun i m' hi => ?_⟩
      · rw [hhash b fun s hs' => hb s (mem_cons_of_mem _ hs')]
        exact hserved.hash b (hb _ mem_cons_self)
      · cases i with
        | zero =>
          cases hi
          exact ⟨hs, _, m1, rfl, rfl, rfl, hplaced⟩
        | succ i =>
          rw [← hserved.shape.nullBlock]
          exact hgroups i m' hi

theorem allocateLoop_extended {l e : ℕ} {ms ms' : List Manager} {p p' : BlockPool}
    {as : List BlockId} (h : p.Queued as)
    (hnot : ∀ m ∈ ms, m.isAlign = true → r ∉ m.allocatedBlockReqs)
    (he : allocateLoop r n l e ms p = some (news, ms', p')) :
    Manager.Popped as p p' ∧ Forall₂ (Manager.Extended p.nullBlock as r) ms ms' := by
  induction ms generalizing p as ms' news with
  | nil =>
    cases he
    exact ⟨⟨⟨as, h, Subset.refl _⟩, .refl _, fun _ _ => rfl⟩, .nil⟩
  | cons m ms ih =>
    simp only [allocateLoop, bind, bind_eq_some_iff] at he
    obtain ⟨⟨new, m1, p1⟩, hm, ⟨news', ms1, p2⟩, hms, he⟩ := he
    cases he
    obtain ⟨hext, ⟨as1, h1, hsub1⟩, hs1, hh1⟩ :=
      Manager.allocateNewBlocks_extended h (hnot m mem_cons_self) hm
    obtain ⟨⟨⟨as2, h2, hsub2⟩, hs2, hh2⟩, hall⟩ :=
      ih h1 (fun m' hm' => hnot m' (mem_cons_of_mem _ hm')) hms
    refine ⟨⟨⟨as2, h2, Subset.trans hsub2 hsub1⟩, hs1.trans hs2, fun b hb => ?_⟩,
      .cons hext (hall.imp fun m m' hm' => ?_)⟩
    · rw [hh2 b fun hmem => hb (hsub1 hmem), hh1 b hb]
    · obtain ⟨ext, htable, hmem⟩ := hm'.table
      refine ⟨hm'.others, ext, htable, fun b hb => ?_⟩
      rw [← hs1.nullBlock]
      exact (hmem b hb).imp id fun hb => hsub1 hb

theorem commitBlocks_tables {r : KVRequest} (he : k.commitBlocks r n = some k') :
    Forall₂ (fun m m' => ∀ r', m'.table r' = m.table r') k.managers k'.managers ∧
      ∀ c, (k.pool.block c).blockHash ≠ none →
        (k'.pool.block c).blockHash = (k.pool.block c).blockHash := by
  obtain ⟨ms, p, rfl, hturn⟩ := onManagers_inTurn he
  refine hturn.rel (T := fun p p' => ∀ c, (p.block c).blockHash ≠ none →
    (p'.block c).blockHash = (p.block c).blockHash) (fun _ _ _ => rfl)
    (fun p p1 p2 h h' c hc => ?_) (fun m _ m' p p' hm => Manager.cacheBlocks_tables hm)
  have hfirst := h c hc
  rw [h' c (by rwa [hfirst]), hfirst]

theorem removeSkippedBlocks_kept (hempty : ∀ m ∈ k.managers, m.table r = [])
    (he : k.removeSkippedBlocks r n = some k') :
    Forall₂ Manager.Kept k.managers k'.managers ∧ k'.pool = k.pool := by
  obtain ⟨ms, p, rfl, hturn⟩ := onManagers_inTurn he
  exact hturn.rel (T := fun p p' => p' = p) (fun _ => rfl)
    (fun _ _ _ h h' => h'.trans h)
    fun m hm m' p p' hremove => Manager.removeSkippedBlocks_of_empty (hempty m hm) hremove

/-! ## One call -/

/-- What a call of `allocate_slots` leaves behind for group `i`, given the group's share of the
free queue and the blocks that were left over for new tokens. -/
structure GroupOutcome (null : BlockId) (r : RequestId) (hs : List BlockId) (total : ℕ)
    (s : Share BlockId) (rest : List BlockId) (m m' : Manager) : Prop where
  others : ∀ r', r' ≠ r → m'.table r' = m.table r'
  position : ∀ (j : ℕ) (b : BlockId), (m.numSkippedBlocks total).toNat ≤ j → hs[j]? = some b →
    (m'.table r)[j]? = some b
  mem_named : ∀ b, b ∈ s.named ↔ ∃ j, (m.numSkippedBlocks total).toNat ≤ j ∧ hs[j]? = some b
  fresh_mem : ∀ b ∈ s.fresh, b ≠ null → b ∈ m'.table r
  of_mem : ∀ b ∈ m'.table r, b = null ∨ b ∈ s.named ∨ b ∈ s.fresh ∨ b ∈ rest

theorem groupOutcome_of_extended {null : BlockId} {hs : List BlockId} {total : ℕ}
    {s : Share BlockId} {rest : List BlockId} {m m1 m2 m' : Manager}
    (hplaced : m.Placed null r hs total s m1) (hext : m1.Extended null rest r m2)
    (hsame : ∀ r', m'.table r' = m2.table r') : GroupOutcome null r hs total s rest m m' := by
  obtain ⟨ext, htable, hmem⟩ := hext.table
  refine ⟨fun r' hr' => ?_, fun j b hle hj => ?_, hplaced.mem_named, fun b hb hnull => ?_,
    fun b hb => ?_⟩
  · rw [hsame, hext.others r' hr', hplaced.others r' hr']
  · have hpos := hplaced.position j b hle hj
    rw [hsame, htable, getElem?_append_left (List.getElem?_eq_some_iff.mp hpos).1]
    exact hpos
  · rw [hsame, htable]
    exact mem_append_left _ ((hplaced.mem_table b hnull).mpr (.inr hb))
  · rw [hsame, htable] at hb
    by_cases hnull : b = null
    · exact .inl hnull
    · rcases mem_append.mp hb with hb | hb
      · rcases (hplaced.mem_table b hnull).mp hb with hb | hb
        · exact .inr (.inl hb)
        · exact .inr (.inr (.inl hb))
      · exact .inr (.inr (.inr ((hmem b hb).resolve_left hnull)))

/-- What the call leaves behind as a whole. -/
structure Outcome (k k' : KVCacheManager) (r : RequestId) (hits : List (List BlockId)) (total : ℕ)
    (queue : List BlockId) (cs : List (Claim BlockId)) : Prop where
  length : k'.managers.length = k.managers.length
  hash : ∀ b, (k.pool.block b).blockHash ≠ none → (∀ s ∈ reserve queue cs, b ∉ s.fresh) →
    b ∉ left queue cs → (k'.pool.block b).blockHash = (k.pool.block b).blockHash
  group : ∀ (i : ℕ) (m : Manager), k.managers[i]? = some m → ∃ hs s m', hits[i]? = some hs ∧
    (reserve queue cs)[i]? = some s ∧ k'.managers[i]? = some m' ∧
    GroupOutcome k.pool.nullBlock r hs total s (left queue cs) m m'

/-- The request has no blocks, nor does a manager remember speculative blocks of it. -/
def Blockless (k : KVCacheManager) (r : RequestId) : Prop :=
  ∀ m ∈ k.managers, m.table r = [] ∧ (m.isAlign = true → r ∉ m.allocatedBlockReqs)

theorem grow_outcome {r : KVRequest} {a : SlotArgs} (h : k.Inv) (hnew : k.Blockless r.requestId)
    (hlt : ∀ hs ∈ hits, ∀ b ∈ hs, b < k.pool.numGpuBlocks) (hhits : hits.any (· ≠ []) = true)
    (he : k.grow r n hits a = some (news, k')) :
    let l := (r.numComputedTokens + n).toNat
    let e := a.numExternalComputedTokens
    Outcome k k' r.requestId hits (l + e) k.pool.getAllFreeBlocks
      (k.claims r.requestId hits l e) := by
  obtain ⟨k1, k2, _, _, _, hk1, hk2, -, -, he⟩ := grow_cases he
  -- the computed blocks are placed
  rw [addComputed, if_pos (.inl hhits)] at hk1
  simp only [allocateNewComputedBlocks, bind, bind_eq_some_iff] at hk1
  obtain ⟨⟨ms1, p1⟩, hms1, hk1⟩ := hk1
  cases hk1
  obtain ⟨⟨hqueued, hshape, hhash1⟩, hlen1, hplaced⟩ := forManagersHits_placed
    (h.ref.queued h.hash) hlt (fun m hm => (hnew m hm).1) hms1
  -- the new blocks go behind them
  simp only [allocateNewBlocks, bind, bind_eq_some_iff] at hk2
  obtain ⟨⟨news2, ms2, p2⟩, hms2, hk2⟩ := hk2
  cases hk2
  have hnot : ∀ m ∈ ms1, m.isAlign = true → r.requestId ∉ m.allocatedBlockReqs := by
    intro m1 hm1
    obtain ⟨i, hi, rfl⟩ := mem_iff_getElem.mp hm1
    have hi0 : i < k.managers.length := hlen1 ▸ hi
    obtain ⟨hs, s, m2, -, -, hm2, hpl⟩ := hplaced i _ (getElem?_eq_getElem hi0)
    have heq : m2 = ms1[i] := Option.some.inj (hm2.symm.trans (getElem?_eq_getElem hi))
    rw [← heq, Manager.isAlign, hpl.config.spec, hpl.allocated]
    exact (hnew _ (getElem_mem hi0)).2
  obtain ⟨hpopped, hext⟩ := allocateLoop_extended hqueued hnot hms2
  rw [hshape.nullBlock] at hext
  -- caching changes neither tables nor hashes that exist
  obtain ⟨hsame, hhash2⟩ : Forall₂ (fun m m' => ∀ r', Manager.table m' r' = Manager.table m r')
      ms2 k'.managers ∧ ∀ c, (p2.block c).blockHash ≠ none →
        (k'.pool.block c).blockHash = (p2.block c).blockHash := by
    rcases he with rfl | hk3
    · exact ⟨forall₂_same.mpr fun _ _ _ => rfl, fun _ _ => rfl⟩
    · exact commitBlocks_tables hk3
  refine ⟨?_, fun b hb hfresh hrest => ?_, fun i m hi => ?_⟩
  · rw [← hsame.length_eq, ← hext.length_eq, hlen1]
  · have hkept : (p2.block b).blockHash = (k.pool.block b).blockHash :=
      (hpopped.hash b hrest).trans (hhash1 b hfresh)
    rw [hhash2 b (by rwa [hkept]), hkept]
  · obtain ⟨hs, s, m1, hhs, hshare, hm1, hpl⟩ := hplaced i m hi
    obtain ⟨m2, hm2, hex⟩ := forall₂_getElem? hext hm1
    obtain ⟨m', hm', hsm⟩ := forall₂_getElem? hsame hm2
    exact ⟨hs, s, m', hhs, hshare, hm', groupOutcome_of_extended hpl hex hsm⟩

/-! ### Skipped blocks are removed first -/

theorem claim_of_kept {m m' : Manager} (h : m.Kept m') (r : RequestId) (hs : List BlockId)
    (numLocal numExternal : ℕ) :
    m'.claim r hs numLocal numExternal = m.claim r hs numLocal numExternal := by
  obtain ⟨hconfig, -, hcached, -⟩ := h
  have htakes : m'.takesHits r = m.takesHits r := by
    rw [Manager.takesHits, Manager.takesHits, hconfig.spec, hcached]
  have htokens := hconfig.getNumSkippedTokens (numLocal + numExternal)
  have hblocks := hconfig.numSkippedBlocks (numLocal + numExternal)
  have hwindow : m'.hitsInWindow (numLocal + numExternal) hs =
      m.hitsInWindow (numLocal + numExternal) hs := by
    rw [Manager.hitsInWindow, Manager.hitsInWindow, hblocks]
  have hext : m'.externalInWindow (numLocal + numExternal) numExternal =
      m.externalInWindow (numLocal + numExternal) numExternal := by
    rw [Manager.externalInWindow, Manager.externalInWindow, hblocks, htokens]
  rw [Manager.claim, Manager.claim, htakes, hwindow, hext, hblocks, hconfig.blockSize]

theorem claims_of_kept {k1 : KVCacheManager} (h : Forall₂ Manager.Kept k.managers k1.managers)
    (r : RequestId) (hits : List (List BlockId)) (numLocal numExternal : ℕ) :
    k1.claims r hits numLocal numExternal = k.claims r hits numLocal numExternal := by
  have hmap : k.managers.map (fun m hs => m.claim r hs numLocal numExternal) =
      k1.managers.map fun m hs => m.claim r hs numLocal numExternal := by
    rw [← forall₂_eq_eq_eq, forall₂_map_left_iff, forall₂_map_right_iff]
    exact h.imp fun m m1 hm => funext fun hs => (claim_of_kept hm r hs ..).symm
  simpa only [claims, zipWith_map_left] using (congrArg (zipWith (· ·) · hits) hmap).symm

theorem Outcome.of_kept {k1 : KVCacheManager} {total : ℕ} {queue : List BlockId}
    {cs : List (Claim BlockId)} (hkept : Forall₂ Manager.Kept k.managers k1.managers)
    (hpool : k1.pool = k.pool) (h : Outcome k1 k' r hits total queue cs) :
    Outcome k k' r hits total queue cs := by
  obtain ⟨hlen, hhash, hgroup⟩ := h
  rw [hpool] at hhash hgroup
  refine ⟨hlen.trans hkept.length_eq.symm, hhash, fun i m hi => ?_⟩
  obtain ⟨m1, hm1, hk⟩ := forall₂_getElem? hkept hi
  obtain ⟨hs, s, m', hhs, hshare, hm', hout⟩ := hgroup i m1 hm1
  have hskip := hk.config.numSkippedBlocks total
  refine ⟨hs, s, m', hhs, hshare, hm', fun r' hr' => ?_, ?_, ?_, hout.fresh_mem, hout.of_mem⟩
  · rw [hout.others r' hr', hk.tables]
  · rw [← hskip]
    exact hout.position
  · rw [← hskip]
    exact hout.mem_named

theorem allocateSlots_outcome {r : KVRequest} {a : SlotArgs} (h : k.Inv)
    (hnew : k.Blockless r.requestId) (hlt : ∀ hs ∈ hits, ∀ b ∈ hs, b < k.pool.numGpuBlocks)
    (hhits : hits.any (· ≠ []) = true) (he : k.allocateSlots r n hits a = some (some news, k')) :
    let l := (r.numComputedTokens + n).toNat
    let e := a.numExternalComputedTokens
    Outcome k k' r.requestId hits (l + e) k.pool.getAllFreeBlocks
      (k.claims r.requestId hits l e) := by
  obtain ⟨-, k1, total, hk1, ⟨hnone, -⟩ | ⟨news', -, hk2⟩⟩ := allocateSlots_cases he
  · cases hnone
  · obtain ⟨h1, -, -⟩ := removeSkippedBlocks_inv h hk1
    obtain ⟨hkept, hpool⟩ := removeSkippedBlocks_kept (fun m hm => (hnew m hm).1) hk1
    have hout := Outcome.of_kept hkept hpool (grow_outcome h1 (fun m1 hm1 => ?_) ?_ hhits hk2)
    · rwa [claims_of_kept hkept, hpool] at hout
    · obtain ⟨m, hm, hk⟩ := forall₂_mem_right hkept hm1
      rw [hk.tables, hk.allocated, Manager.isAlign, hk.config.spec]
      exact hnew m hm
    · rw [hpool]
      exact hlt

/-! ## Survival -/

/-- **The hits survive.** Every hit that the window does not skip still has its hash, sits at its
position in its group's table of the request, and is in no table of another group. -/
def HitsSurvive (k k' : KVCacheManager) (r : RequestId) (hits : List (List BlockId)) (total : ℕ) :
    Prop :=
  ∀ (i : ℕ) (m : Manager) (hs : List BlockId), k.managers[i]? = some m → hits[i]? = some hs →
    ∀ (j : ℕ) (b : BlockId), hs[j]? = some b → (m.numSkippedBlocks total).toNat ≤ j →
      b ≠ k.pool.nullBlock →
      (k'.pool.block b).blockHash = (k.pool.block b).blockHash ∧
      (∃ m', k'.managers[i]? = some m' ∧ (m'.table r)[j]? = some b) ∧
      ∀ (i' : ℕ) (m' : Manager), i' ≠ i → k'.managers[i']? = some m' → ∀ r', b ∉ m'.table r'

/-- **The condition**, on the state before the call: going through the groups in order, no group's
new blocks at the front of the free queue are hits of a later group, and no hit is in another
group's table already. -/
structure HitsApart (k : KVCacheManager) (r : RequestId) (hits : List (List BlockId))
    (numLocal numExternal : ℕ) : Prop where
  queue : Apart k.pool.getAllFreeBlocks (k.claims r hits numLocal numExternal)
  tables : ∀ (i i' : ℕ) (c : Claim BlockId) (m' : Manager),
    (k.claims r hits numLocal numExternal)[i]? = some c → k.managers[i']? = some m' → i' ≠ i →
      ∀ b ∈ c.named, b ≠ k.pool.nullBlock → ∀ r', b ∉ m'.table r'

/-- The hits of group `i` among the claims and among the shares. -/
theorem named_iff {cs : List (Claim BlockId)} {queue : List BlockId} {i : ℕ} {b : BlockId} :
    (∃ c, cs[i]? = some c ∧ b ∈ c.named) ↔ ∃ s, (reserve queue cs)[i]? = some s ∧ b ∈ s.named := by
  have hmap := congrArg (fun l => l[i]?) (map_named_reserve queue cs)
  simp only [getElem?_map] at hmap
  constructor
  · rintro ⟨c, hc, hb⟩
    rw [hc] at hmap
    obtain ⟨s, hs, hnamed⟩ := map_eq_some_iff.mp hmap
    exact ⟨s, hs, hnamed ▸ hb⟩
  · rintro ⟨s, hs, hb⟩
    rw [hs] at hmap
    obtain ⟨c, hc, hnamed⟩ := map_eq_some_iff.mp hmap.symm
    exact ⟨c, hc, hnamed ▸ hb⟩

section

variable {k k' : KVCacheManager} {r : RequestId} {hits : List (List BlockId)}
  {numLocal numExternal : ℕ}

/-- Every share belongs to a manager. -/
theorem lt_of_share {queue : List BlockId} {i : ℕ} {s : Share BlockId}
    (hs : (reserve queue (k.claims r hits numLocal numExternal))[i]? = some s) :
    i < k.managers.length := by
  have hlen := congrArg List.length
    (map_named_reserve queue (k.claims r hits numLocal numExternal))
  have hi := (List.getElem?_eq_some_iff.mp hs).1
  simp only [length_map] at hlen
  rw [hlen, claims, length_zipWith] at hi
  omega

/-- A manager that takes part has an outcome, read from its state afterwards. -/
theorem Outcome.back {total : ℕ} {queue : List BlockId} {cs : List (Claim BlockId)}
    (hout : Outcome k k' r hits total queue cs) {i : ℕ} {m' : Manager}
    (hi : k'.managers[i]? = some m') : ∃ m hs s, k.managers[i]? = some m ∧ hits[i]? = some hs ∧
      (reserve queue cs)[i]? = some s ∧
      GroupOutcome k.pool.nullBlock r hs total s (left queue cs) m m' := by
  have hlt : i < k.managers.length := hout.length ▸ (List.getElem?_eq_some_iff.mp hi).1
  obtain ⟨hs, s, m'', hhs, hshare, hm'', hgroup⟩ :=
    hout.group i _ (getElem?_eq_getElem hlt)
  obtain rfl : m'' = m' := Option.some.inj (hm''.symm.trans hi)
  exact ⟨_, hs, s, getElem?_eq_getElem hlt, hhs, hshare, hgroup⟩

theorem hitsSurvive_of_apart
    (hgrouped : ∀ (i : ℕ) (hs : List BlockId), hits[i]? = some hs → ∀ b ∈ hs,
      b ≠ k.pool.nullBlock → ∃ hash, (k.pool.block b).blockHash = some ⟨hash, i⟩)
    (hout : Outcome k k' r hits (numLocal + numExternal) k.pool.getAllFreeBlocks
      (k.claims r hits numLocal numExternal))
    (hapart : k.HitsApart r hits numLocal numExternal) :
    HitsSurvive k k' r hits (numLocal + numExternal) := by
  intro i m hs hi hhs j b hj hle hnull
  obtain ⟨hs', s, m', hhs', hshare, hm', hgroup⟩ := hout.group i m hi
  obtain rfl : hs' = hs := Option.some.inj (hhs'.symm.trans hhs)
  obtain ⟨hash, hkey⟩ := hgrouped i hs' hhs b (mem_of_getElem? hj) hnull
  have hnamed : b ∈ s.named := (hgroup.mem_named b).mpr ⟨j, hle, hj⟩
  -- neither handed out as a new block to any group nor left for new tokens
  have hfresh : ∀ (i' : ℕ) (s' : Share BlockId), (reserve _ _)[i']? = some s' → b ∉ s'.fresh :=
    fun i' s' hs' hb => apart_iff.mp hapart.queue i' i s' s hs' hshare b hb hnamed
  have hrest := not_left_of_named (mem_of_getElem? hshare) hnamed
  refine ⟨hout.hash b (by simp [hkey]) (fun s' hs' => ?_) hrest,
    ⟨m', hm', hgroup.position j b hle hj⟩, fun i' m'' hne hm'' r' hb => ?_⟩
  · obtain ⟨i', hi'⟩ := mem_iff_getElem?.mp hs'
    exact hfresh i' s' hi'
  · obtain ⟨m0, hs0, s0, hm0, hhs0, hshare0, hgroup0⟩ := hout.back hm''
    by_cases hr : r' = r
    · rw [hr] at hb
      rcases hgroup0.of_mem b hb with hb | hb | hb | hb
      · exact hnull hb
      · -- the hash of a hit names its group
        obtain ⟨j0, -, hj0⟩ := (hgroup0.mem_named b).mp hb
        obtain ⟨hash0, hkey0⟩ := hgrouped i' hs0 hhs0 b (mem_of_getElem? hj0) hnull
        rw [hkey] at hkey0
        cases hkey0
        exact hne rfl
      · exact hfresh i' s0 hshare0 hb
      · exact hrest hb
    · rw [hgroup0.others r' hr] at hb
      obtain ⟨c, hc, hbc⟩ := named_iff.mpr ⟨s, hshare, hnamed⟩
      exact hapart.tables i i' c m0 hc hm0 hne b hbc hnull r' hb

theorem apart_of_hitsSurvive (h : k.Inv) (hnew : ∀ m ∈ k.managers, m.table r = [])
    (hout : Outcome k k' r hits (numLocal + numExternal) k.pool.getAllFreeBlocks
      (k.claims r hits numLocal numExternal))
    (hsurvive : HitsSurvive k k' r hits (numLocal + numExternal)) :
    k.HitsApart r hits numLocal numExternal := by
  have hqueued := h.ref.queued h.hash
  -- a hit of group `i` that survives, read off its share
  have hhit : ∀ (i : ℕ) (s : Share BlockId) (b : BlockId), (reserve k.pool.getAllFreeBlocks
      (k.claims r hits numLocal numExternal))[i]? = some s → b ∈ s.named →
      b ≠ k.pool.nullBlock → ∀ (i' : ℕ) (m' : Manager), i' ≠ i → k'.managers[i']? = some m' →
        ∀ r', b ∉ m'.table r' := by
    intro i s b hshare hb hnull
    have hlt := lt_of_share hshare
    obtain ⟨hs, s', m', hhs, hshare', -, hgroup⟩ := hout.group i _ (getElem?_eq_getElem hlt)
    obtain rfl : s' = s := Option.some.inj (hshare'.symm.trans hshare)
    obtain ⟨j, hle, hj⟩ := (hgroup.mem_named b).mp hb
    exact (hsurvive i _ hs (getElem?_eq_getElem hlt) hhs j b hj hle hnull).2.2
  constructor
  · rw [apart_iff]
    intro i j s s' hs hs' b hfresh hnamed
    have hnull : b ≠ k.pool.nullBlock :=
      ((hqueued.mem_iff b).mp (mem_of_fresh (mem_of_getElem? hs) hfresh)).2.1
    by_cases hij : i = j
    · subst hij
      obtain rfl : s = s' := Option.some.inj (hs.symm.trans hs')
      exact not_fresh_of_named (mem_of_getElem? hs) hnamed hfresh
    · have hlt := lt_of_share hs
      obtain ⟨hs0, s0, m0, -, hshare0, hm0, hgroup0⟩ :=
        hout.group i _ (getElem?_eq_getElem hlt)
      obtain rfl : s0 = s := Option.some.inj (hshare0.symm.trans hs)
      exact hhit j s' b hs' hnamed hnull i m0 hij hm0 r (hgroup0.fresh_mem b hfresh hnull)
  · intro i i' c m0 hc hm0 hne b hb hnull r' hmem
    obtain ⟨s, hs, hbs⟩ := named_iff.mp ⟨c, hc, hb⟩
    by_cases hr : r' = r
    · rw [hr, hnew m0 (mem_of_getElem? hm0)] at hmem
      cases hmem
    · obtain ⟨hs0, s0, m', -, -, hm', hgroup⟩ := hout.group i' m0 hm0
      refine hhit i s b hs hbs hnull i' m' hne hm' r' ?_
      rw [hgroup.others r' hr]
      exact hmem

/-- Without any hit there is nothing that could be lost. -/
theorem apart_of_no_hits (hnone : ∀ hs ∈ hits, hs = []) :
    k.HitsApart r hits numLocal numExternal := by
  have hnamed : ∀ (i : ℕ) (c : Claim BlockId),
      (k.claims r hits numLocal numExternal)[i]? = some c → c.named = [] := by
    intro i c hc
    rw [claims, getElem?_zipWith_eq_some] at hc
    obtain ⟨m, hs, -, hhs, rfl⟩ := hc
    rw [hnone hs (mem_of_getElem? hhs)]
    unfold Manager.claim
    split
    · simp [Manager.hitsInWindow_eq]
    · rfl
  constructor
  · rw [apart_iff]
    intro i j s s' hs hs' b hfresh hb
    obtain ⟨c, hc, hbc⟩ := named_iff.mpr ⟨s', hs', hb⟩
    rw [hnamed j c hc] at hbc
    cases hbc
  · intro i i' c m' hc _ _ b hb
    rw [hnamed i c hc] at hb
    cases hb

/-- A group that takes hits had no blocks of the request. -/
theorem forManagersHits_takes {ms ms' : List Manager} {p p' : BlockPool}
    (hlen : hits.length = ms.length) (hhits : hits.any (· ≠ []) = true)
    (he : forManagersHits (fun m hs p => m.allocateNewComputedBlocks r hs numLocal numExternal p)
      ms hits p = some (ms', p')) : ∃ m ∈ ms, m.spec.isCross = false ∧ m.table r = [] := by
  induction ms generalizing hits p ms' with
  | nil =>
    rw [length_nil, length_eq_zero_iff] at hlen
    rw [hlen] at hhits
    cases hhits
  | cons m ms ih =>
    cases hits with
    | nil => cases he
    | cons hs hits =>
      simp only [forManagersHits, bind, bind_eq_some_iff] at he
      obtain ⟨⟨m1, p1⟩, hm, ⟨ms1, p2⟩, hms, he⟩ := he
      cases he
      by_cases hnil : hs = []
      · have hrest : hits.any (· ≠ []) = true := by simpa [hnil] using hhits
        obtain ⟨m', hm', hfound⟩ := ih (by simpa using hlen) hrest hms
        exact ⟨m', mem_cons_of_mem _ hm', hfound⟩
      · rcases Manager.allocateNewComputedBlocks_cases hm with ⟨hnone, -⟩ | ⟨hcross, -, hempty, -⟩
        · exact absurd hnone hnil
        · exact ⟨m, mem_cons_self, hcross, hempty⟩

/-- Hits are accepted only for a request without blocks. -/
theorem blockless_of_hits (ht : k.Together) {r : KVRequest} {n : ℕ} {a : SlotArgs}
    {news : List (List BlockId)} (hlen : hits.length = k.managers.length)
    (hhits : hits.any (· ≠ []) = true)
    (he : k.allocateSlots r n hits a = some (some news, k')) : k.Blockless r.requestId := by
  obtain ⟨-, k1, total, hk1, ⟨hnone, -⟩ | ⟨news', -, hk2⟩⟩ := allocateSlots_cases he
  · cases hnone
  · have hlengths := removeSkippedBlocks_lengths hk1
    obtain ⟨k3, _, _, _, _, hk3, -⟩ := grow_cases hk2
    rw [addComputed, if_pos (.inl hhits)] at hk3
    simp only [allocateNewComputedBlocks, bind, bind_eq_some_iff] at hk3
    obtain ⟨⟨ms, p⟩, hms, -⟩ := hk3
    obtain ⟨m1, hm1, hcross, hempty⟩ :=
      forManagersHits_takes (hlen.trans hlengths.length_eq) hhits hms
    -- removing skipped blocks has not emptied that table
    obtain ⟨m0, hm0, hsame⟩ := forall₂_mem_right hlengths hm1
    have hempty0 : m0.table r.requestId = [] := by
      rw [← length_eq_zero_iff, ← hsame.length, hempty, length_nil]
    have hall : ∀ m ∈ k.managers, m.table r.requestId = [] := fun m hm =>
      (ht _).tables m hm m0 hm0 (hsame.spec ▸ hcross) hempty0
    exact fun m hm => ⟨hall m hm, fun halign hmem => (ht _).allocated m hm halign hmem (hall m hm)⟩

end

/-- **Hits survive their own allocation exactly if they are apart.** For every state with sound
accounting and every request: the hits that `get_computed_blocks` found survive the call of
`allocate_slots` that uses them if and only if no group's new blocks for external tokens are hits
of a later group and no hit is in another group's table before. -/
theorem hitsSurvive_iff_apart {k k' : KVCacheManager} (h : k.Inv) (ht : k.Together)
    {r : KVRequest} {n : ℕ} {hits news : List (List BlockId)} {a : SlotArgs}
    (hhits : k.getComputedBlocks r = some (hits, n))
    (he : k.allocateSlots r n hits a = some (some news, k')) :
    HitsSurvive k k' r.requestId hits
        ((r.numComputedTokens + n).toNat + a.numExternalComputedTokens) ↔
      k.HitsApart r.requestId hits (r.numComputedTokens + n).toNat
        a.numExternalComputedTokens := by
  obtain ⟨hlen, hok⟩ := getComputedBlocks_ok h hhits
  by_cases hany : hits.any (· ≠ []) = true
  · have hnew := blockless_of_hits ht hlen hany he
    have hout := allocateSlots_outcome h hnew (fun hs hmem => (hok hs hmem).lt) hany he
    exact ⟨apart_of_hitsSurvive h (fun m hm => (hnew m hm).1) hout,
      hitsSurvive_of_apart (fun i hs hi => getComputedBlocks_grouped h.hash hhits hi) hout⟩
  · have hnone : ∀ hs ∈ hits, hs = [] := by simpa using hany
    refine iff_of_true (fun i m hs _ hhs j b hj => ?_) (apart_of_no_hits hnone)
    rw [hnone hs (mem_of_getElem? hhs)] at hj
    cases hj

/-! ## Two groups and one external token -/

/-- Full attention and a window of three tokens, with blocks of one token. -/
def windowConfig : KVCacheConfig where
  numBlocks := 15
  specs := [⟨.full false, 1, 0, Nat.one_pos, trivial⟩,
    ⟨.slidingWindow 3, 1, 0, Nat.one_pos, Nat.succ_pos 2⟩]
  maxModelLen := 100
  hashBlockSize := 1
  enableCaching := true
  useEagle := false

/-- Request 0 leaves two cached blocks in each group, request 2 takes all other blocks without
caching them, and both are freed in the given order, which is their order in the queue then. -/
def twoRequests (first second : RequestId) : List Call :=
  [.allocateSlots (promptOf 0 2) false { numNewTokens := 2 },
   .allocateSlots (promptOf 2 5) false { numNewTokens := 5, delayCacheBlocks := true },
   .free first, .free second]

/-- The next request hits the blocks of request 0 and has one external token. -/
def oneExternal : SlotArgs := { numNewTokens := 1, numExternalComputedTokens := 1 }

/-- A call without hits whose counts are not negative. -/
def Plain (k : KVCacheManager) : Call → Prop
  | .allocateSlots r withHits a => withHits = false ∧ 0 < k.maxModelLen ∧
      0 ≤ r.numComputedTokens ∧ 0 ≤ a.numNewTokens
  | _ => True

instance (k : KVCacheManager) (c : Call) : Decidable (k.Plain c) :=
  match c with
  | .allocateSlots _ _ _ => inferInstanceAs (Decidable (_ ∧ _ ∧ _ ∧ _))
  | .free _ | .cacheBlocks _ _ | .removeSkippedBlocks _ _ | .evictBlocks _ | .resetPrefixCache
  | .newStepStarts => isTrue trivial

theorem Plain.proper {c : Call} (h : k.Plain c) : k.CallProper c := by
  cases c with
  | allocateSlots r withHits a =>
    obtain ⟨rfl, hmax, hcomp, hnew⟩ := h
    refine ⟨callFits_without_hits k r a, fun r' w a' hc => ?_⟩
    cases hc
    exact ⟨hmax, hcomp, hnew⟩
  | _ => exact ⟨trivial, fun _ _ _ hc => by cases hc⟩

/-- A plain run and the call after it, with what is to be read off the states. -/
theorem exists_call (c : KVCacheConfig) (calls : List Call) (r : KVRequest) (a : SlotArgs)
    (f : KVCacheManager → List (List BlockId) → ℕ → KVCacheManager → Bool)
    (h : ((init c).bind fun k0 => (run (guarded Plain step) k0 calls).bind fun k =>
      (k.getComputedBlocks r).bind fun q => (k.allocateSlots r q.2 q.1 a).bind fun q' =>
        q'.1.map fun _ => f k q.1 q.2 q'.2) = some true) :
    ∃ k0 k k' hits n news, init c = some k0 ∧ Reach step CallProper k0 k ∧
      k.getComputedBlocks r = some (hits, n) ∧ k.allocateSlots r n hits a = some (some news, k') ∧
      f k hits n k' = true := by
  obtain ⟨k0, hk0, h⟩ := bind_eq_some_iff.mp h
  obtain ⟨k, hk, h⟩ := bind_eq_some_iff.mp h
  obtain ⟨⟨hits, n⟩, hhits, h⟩ := bind_eq_some_iff.mp h
  obtain ⟨⟨res, k'⟩, hslots, h⟩ := bind_eq_some_iff.mp h
  obtain ⟨news, hnews, h⟩ := map_eq_some_iff.mp h
  subst hnews
  exact ⟨k0, k, k', hits, n, news, hk0,
    (Reach.of_guarded_run .init hk).imp fun _ _ hc => hc.proper, hhits, hslots, h⟩

/-- With request 2 in front, the new blocks are its blocks, and the hits survive. -/
theorem hits_behind_survive : ∃ k0 k k' hits n news, init windowConfig = some k0 ∧
    Reach step CallProper k0 k ∧ k.getComputedBlocks (promptOf 1 4) = some (hits, n) ∧
    k.allocateSlots (promptOf 1 4) n hits oneExternal = some (some news, k') ∧
    k.HitsApart 1 hits n 1 ∧ HitsSurvive k k' 1 hits (n + 1) := by
  obtain ⟨k0, k, k', hits, n, news, hk0, hreach, hhits, hslots, hfacts⟩ := exists_call
    windowConfig (twoRequests 2 0) (promptOf 1 4) oneExternal
    (fun k hits n _ => decide (Apart k.pool.getAllFreeBlocks (k.claims 1 hits n 1)) &&
      k.managers.all fun m => decide (m.reqToBlocks = ∅))
    (by decide +kernel)
  rw [Bool.and_eq_true, decide_eq_true_eq] at hfacts
  obtain ⟨hinv, htogether⟩ := sound_of_run hk0 hreach
  have happart : k.HitsApart 1 hits n 1 := by
    refine ⟨hfacts.1, fun i i' c m' _ hm' _ b _ _ r' hb => ?_⟩
    have hempty : m'.reqToBlocks = ∅ := by
      simpa using all_eq_true.mp hfacts.2 m' (mem_of_getElem? hm')
    rw [Manager.table, hempty] at hb
    cases hb
  have hlocal : ((promptOf 1 4).numComputedTokens + n).toNat = n := by simp [promptOf]
  have hiff := hitsSurvive_iff_apart hinv htogether hhits hslots
  rw [hlocal] at hiff
  exact ⟨k0, k, k', hits, n, news, hk0, hreach, hhits, hslots, happart, hiff.mpr happart⟩

/-- With request 0 in front, the external token of the full-attention group gets block 4, which
the window group has hit: the block loses its hash and is in both tables. -/
theorem hit_is_handed_out : ∃ k0 k k' hits n news, init windowConfig = some k0 ∧
    Reach step CallProper k0 k ∧ k.getComputedBlocks (promptOf 1 4) = some (hits, n) ∧
    k.allocateSlots (promptOf 1 4) n hits oneExternal = some (some news, k') ∧
    ¬ HitsSurvive k k' 1 hits (n + 1) := by
  obtain ⟨k0, k, k', hits, n, news, hk0, hreach, hhits, hslots, hfacts⟩ := exists_call
    windowConfig (twoRequests 0 2) (promptOf 1 4) oneExternal
    (fun k hits n k' => decide (hits = [[1, 2], [3, 4]] ∧ n = 2 ∧ k.pool.nullBlock = 0) &&
      decide (k.managers.map (·.numSkippedBlocks 3) = [0, 1]) &&
      decide (k'.managers.map (·.table 1) = [[1, 2, 4, 9], [0, 4, 3, 8]])) (by decide +kernel)
  simp only [Bool.and_eq_true, decide_eq_true_eq] at hfacts
  obtain ⟨⟨⟨rfl, rfl, hnull⟩, hskip⟩, htables⟩ := hfacts
  refine ⟨k0, k, k', _, _, news, hk0, hreach, hhits, hslots, fun hsurvive => ?_⟩
  obtain ⟨m, hm, hms⟩ := map_eq_some_iff.mp
    ((getElem?_map ..).symm.trans (congrArg (fun l => l[1]?) hskip))
  obtain ⟨m', hm', htable⟩ := map_eq_some_iff.mp
    ((getElem?_map ..).symm.trans (congrArg (fun l => l[0]?) htables))
  have hkept := (hsurvive 1 m _ hm rfl 1 4 rfl (by rw [hms]; decide) (by rw [hnull]; decide)).2.2
  exact hkept 0 m' (by decide) hm' 1 (by rw [htable]; decide)

end KVCacheManager

end Nvllm.KVCache
