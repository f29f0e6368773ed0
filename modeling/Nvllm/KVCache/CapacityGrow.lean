import Nvllm.KVCache.Aligned
import Nvllm.KVCache.Capacity

/-! # All groups grow within what they announced

After the check for free blocks the groups take their blocks one after the other. Here the costs of
the groups are added up, the announcements likewise, and `grow` is shown to succeed whenever the
announced number is free. The invariant for this is `Ready`: the accounting is right, align groups
are aligned, and blocks that are not cached yet have no hash.
-/

namespace Nvllm.KVCache

open BlockPool Nvllm.Reserve List

namespace KVCacheManager

/-! ## The loops succeed -/

variable {p : BlockPool} {a : SlotArgs} {n total : ℕ} {r : KVRequest} {k k' : KVCacheManager}

/-- A method succeeds on all managers if it succeeds on each of them and keeps it good and, where
that counts, tidy. -/
theorem onManagers_some {f : Manager → BlockPool → Option (Manager × BlockPool)} {c : Prop}
    (h : k.Inv) (ht : c → AllTidy k.pool k.managers fun _ => False)
    (hf : ∀ m ∈ k.managers, ∀ p rest elsewhere, k.pool.SameShape p → m.Good p rest →
      (c → m.Tidy p elsewhere) → ∃ m' p', f m p = some (m', p') ∧ m.Keeps m' p p' rest ∧
        (c → m'.Tidy p' elsewhere)) : ∃ k', k.onManagers f = some k' := by
  have hloop : ∀ ms p rest elsewhere, ms ⊆ k.managers → k.pool.SameShape p → AllGood p ms rest →
      (c → AllTidy p ms elsewhere) → ∃ ms' p', forManagers f ms p = some (ms', p') := by
    intro ms
    induction ms with
    | nil => exact fun p _ _ _ _ _ _ => ⟨[], p, rfl⟩
    | cons m ms ih =>
      intro p rest elsewhere hsub hs hgood htidy
      obtain ⟨hm, hsub⟩ := cons_subset.mp hsub
      obtain ⟨m', p1, he, hk, htidy'⟩ := hf m hm p _ _ hs hgood.head fun hc => (htidy hc).head
      obtain ⟨ms', p', hms⟩ := ih p1 _ _ hsub (hs.trans hk.shape) (hgood.tail hk) fun hc =>
        (htidy hc).tail hk.shape.nullBlock (htidy' hc)
      exact ⟨m' :: ms', p', by simp only [forManagers, he, hms, bind, Option.bind_some]; rfl⟩
  obtain ⟨ms, p, hms⟩ := hloop k.managers k.pool _ _ (Subset.refl _) (.refl _) h ht
  exact ⟨{ k with managers := ms, pool := p }, by rw [onManagers, hms]; rfl⟩

/-- What adding computed blocks leaves behind for one group. -/
structure PlacedFor (r : RequestId) (hs : List BlockId) (numLocal numExternal : ℕ)
    (m m' : Manager) : Prop where
  only : m.Only r m'
  length : (m'.table r).length = m.lengthAfter r hs numLocal numExternal
  allocated : m'.allocatedBlockReqs = m.allocatedBlockReqs
  lastState : m'.lastStateBlockIdx = m.lastStateBlockIdx
  cached : ∀ n, m'.numCachedBlock.get? r = some n → m.numCachedBlock.get? r = none →
    n = (m.numSkippedBlocks (numLocal + numExternal)).toNat +
      (m.claim r hs numLocal numExternal).named.length

section

variable {r : RequestId} {numLocal numExternal : ℕ} {ms : List Manager}
  {hits : List (List BlockId)} {p : BlockPool} {rest : BlockId → ℕ}

/-- What one group needs so that its computed blocks can be added. -/
structure CanPlace (p : BlockPool) (r : RequestId) (numLocal numExternal : ℕ) (m : Manager)
    (hs : List BlockId) : Prop where
  hits : Manager.Hits p hs
  empty : m.table r = []
  followed : m.numCachedBlock.contains r = false
  caching : m.enableCaching = false → hs = []
  cross : m.spec.isCross = true → hs = []
  fits : m.Fits r hs numLocal numExternal

theorem allocateNewComputedBlocks_some {m : Manager} {hs : List BlockId} (h : m.Good p rest)
    (hcan : CanPlace p r numLocal numExternal m hs)
    (hroom : (m.claim r hs numLocal numExternal).cost p.getAllFreeBlocks ≤
      p.getAllFreeBlocks.length) :
    ∃ m' p', m.allocateNewComputedBlocks r hs numLocal numExternal p = some (m', p') ∧
      PlacedFor r hs numLocal numExternal m m' := by
  unfold Manager.allocateNewComputedBlocks
  by_cases hcross : m.spec.isCross = true
  · rw [if_pos hcross, if_pos (hcan.cross hcross)]
    refine ⟨m, p, rfl, .refl m, ?_, rfl, rfl, fun n hn hnone => ?_⟩
    · simp [Manager.lengthAfter, Manager.takesHits, hcross]
    · rw [hnone] at hn
      cases hn
  · have htakes : m.takesHits r = true := by
      simp [Manager.takesHits, hcross, hcan.followed]
    rw [if_neg hcross, if_neg (by simp [hcan.followed]), if_pos hcan.empty]
    obtain ⟨m', p', he, hlen, hcached, hlast⟩ := Manager.addComputedBlocks_some h hcan.hits htakes
      hcan.caching (hcan.fits (by simpa using hcross) hcan.followed) hroom
    have he' : m.allocateNewComputedBlocks r hs numLocal numExternal p = some (m', p') := by
      rw [Manager.allocateNewComputedBlocks, if_neg hcross, if_neg (by simp [hcan.followed]),
        if_pos hcan.empty, he]
    have hplaced := (Manager.allocateNewComputedBlocks_placed (h.ref.queued h.hash) hcan.hits.lt
      hcan.empty he').1
    refine ⟨m', p', he, Manager.allocateNewComputedBlocks_only he', ?_, hplaced.allocated, hlast,
      fun n hn _ => ?_⟩
    · rw [hlen, Manager.lengthAfter, if_pos htakes]
    · rw [hcached, Dict.get?_set_self] at hn
      exact (Option.some.inj hn).symm

/-- **Computed blocks of all groups** can be added if together they cost no more than what is
free. -/
theorem forManagersHits_some (h : AllGood p ms rest)
    (hcan : Forall₂ (CanPlace p r numLocal numExternal) ms hits)
    (hroom : costs p.getAllFreeBlocks
      (zipWith (fun m hs => Manager.claim m r hs numLocal numExternal) ms hits) ≤
        p.getAllFreeBlocks.length) :
    ∃ ms' p', forManagersHits
        (fun m hs p => m.allocateNewComputedBlocks r hs numLocal numExternal p) ms hits p =
        some (ms', p') ∧
      p.getAllFreeBlocks.length ≤ p'.getAllFreeBlocks.length + costs p.getAllFreeBlocks
        (zipWith (fun m hs => Manager.claim m r hs numLocal numExternal) ms hits) ∧
      Forall₂ (fun q m' => PlacedFor r (Prod.snd q) numLocal numExternal (Prod.fst q) m')
        (ms.zip hits) ms' := by
  induction ms generalizing p rest hits with
  | nil =>
    exact ⟨[], p, rfl, by omega, .nil⟩
  | cons m ms ih =>
    cases hcan with
    | @cons _ hs _ hits hm hms =>
      rw [zipWith_cons_cons, costs_cons] at hroom ⊢
      obtain ⟨m', p1, he, hplaced⟩ := allocateNewComputedBlocks_some h.head hm (by omega)
      have hk := Manager.allocateNewComputedBlocks_keeps h.head hm.hits hm.fits he
      have htail := h.tail hk
      -- the queue after the first group
      have hqueued := h.ref.queued h.hash
      obtain ⟨-, hserved⟩ :=
        Manager.allocateNewComputedBlocks_placed hqueued hm.hits.lt hm.empty he
      have hperm := hserved.queued.perm (htail.ref.queued htail.hash)
      have hlen := Claim.length_le_rest hqueued.holds.nodup
        (Manager.claim m r hs numLocal numExternal)
      rw [hperm.length_eq] at hlen
      have hcosts := costs_le
        (fun b hb => (Claim.mem_of_rest (hperm.mem_iff.mpr hb)).1)
        (zipWith (fun m hs => Manager.claim m r hs numLocal numExternal) ms hits)
      obtain ⟨ms', p', hrest, hfree, hall⟩ := ih htail
        (hms.imp fun m2 hs2 hcan => { hcan with hits := hcan.hits.of_shape hk.shape }) (by omega)
      refine ⟨m' :: ms', p', ?_, by omega, .cons hplaced hall⟩
      simp only [forManagersHits, he, hrest, bind, Option.bind_some]
      rfl

/-- The new blocks that the groups take for `n` slots; cross attention counts encoder tokens. -/
def sumNewBlocks (r : RequestId) (n l e : ℕ) (ms : List Manager) : ℕ :=
  (ms.map fun m => m.newBlocksTaken r (if m.spec.isCross then e else n) l (m.table r).length).sum

/-- **New blocks of all groups.** -/
theorem allocateLoop_some {n l e : ℕ} (h : AllGood p ms rest) (halign : ∀ m ∈ ms, m.RoomToAlign r l)
    (hroom : sumNewBlocks r n l e ms ≤ p.getAllFreeBlocks.length) :
    ∃ news ms' p', allocateLoop r n l e ms p = some (news, ms', p') ∧
      p.getAllFreeBlocks.length ≤ p'.getAllFreeBlocks.length + sumNewBlocks r n l e ms := by
  unfold sumNewBlocks at hroom ⊢
  induction ms generalizing p rest with
  | nil => exact ⟨[], [], p, rfl, by simp⟩
  | cons m ms ih =>
    rw [map_cons, sum_cons] at hroom ⊢
    obtain ⟨new, m', p1, he, hfree⟩ := Manager.allocateNewBlocks_some h.head
      (halign m mem_cons_self) (n := if m.spec.isCross then e else n) (by omega)
    have hk := Manager.allocateNewBlocks_keeps h.head he
    obtain ⟨news, ms', p', hrest, hfree'⟩ := ih (h.tail hk)
      (fun m2 hm2 => halign m2 (mem_cons_of_mem _ hm2)) (by omega)
    refine ⟨new :: news, m' :: ms', p', ?_, by omega⟩
    simp only [allocateLoop, he, hrest, bind, Option.bind_some]
    rfl

/-- The sum of the announcements, if each group's is at least its cost. -/
theorem sumBlocksToAllocate_some {n e total l : ℕ} {cost : Manager → List BlockId → ℕ} {N : ℕ}
    (hall : Forall₂ (fun m hs => ∃ need, blocksToAllocate p r n e total l m hs = some need ∧
      0 ≤ need ∧ (need ≤ N → (cost m hs : ℤ) ≤ need)) ms hits) :
    ∃ need, sumBlocksToAllocate p r n e total l ms hits = some need ∧ 0 ≤ need ∧
      (need ≤ N → ((zipWith cost ms hits).sum : ℤ) ≤ need) := by
  induction hall with
  | nil => exact ⟨0, rfl, le_rfl, fun _ => by simp⟩
  | cons hm _ ih =>
    obtain ⟨need, hneed, h0, hle⟩ := hm
    obtain ⟨sum, hsum, hs0, hsle⟩ := ih
    refine ⟨need + sum, ?_, by omega, fun hN => ?_⟩
    · simp only [sumBlocksToAllocate, hneed, hsum, bind, Option.bind_some]
      rfl
    · rw [zipWith_cons_cons, sum_cons]
      omega

end

/-! ## One call -/

/-- The locally computed tokens of a call. -/
def localTokens (r : KVRequest) (n : ℕ) : ℕ := (r.numComputedTokens + n).toNat

/-- The tokens of the main model: computed ones and new ones. -/
def mainTokens (r : KVRequest) (n : ℕ) (a : SlotArgs) : ℕ :=
  localTokens r n + a.numExternalComputedTokens + a.numNewTokens.toNat

/-- The call adds computed blocks. -/
def Adds (hits : List (List BlockId)) (a : SlotArgs) : Prop :=
  hits.any (· ≠ []) = true ∨ 0 < a.numExternalComputedTokens

instance (hits : List (List BlockId)) (a : SlotArgs) : Decidable (Adds hits a) :=
  inferInstanceAs (Decidable (_ ∨ _))

/-- **A call as the scheduler makes it.** Its counts are not negative, it asks for something, and
the computed tokens are within the model length. Computed blocks are added only for a request that
no group knows; otherwise the computed tokens have blocks already. The request has the hashes of
its tokens. -/
@[mk_iff]
structure Scheduled (k : KVCacheManager) (r : KVRequest) (n : ℕ) (hits : List (List BlockId))
    (a : SlotArgs) : Prop where
  computed : 0 ≤ r.numComputedTokens
  new : 0 ≤ a.numNewTokens
  asks : ¬ (a.numNewTokens = 0 ∧ a.numExternalComputedTokens = 0)
  room : localTokens r n + a.numExternalComputedTokens ≤ k.maxModelLen
  fresh : Adds hits a → ∀ m ∈ k.managers, m.table r.requestId = [] ∧
    m.numCachedBlock.contains r.requestId = false
  covered : ¬ Adds hits a → ∀ m ∈ k.managers, m.spec.isCross = false →
    cdiv (localTokens r n) m.blockSize ≤ (m.table r.requestId).length
  hashes : k.enableCaching = true →
    r.numTokens / k.pool.hashBlockSize ≤ r.blockHashes.hashes.length

/-- What an align group with `s` speculative blocks needs of a call: its table is not longer than
the tokens require, there are no more hits than blocks of computed tokens, and external tokens come
without a further block for new tokens. -/
@[mk_iff]
structure AlignForeseen (r : KVRequest) (n : ℕ) (a : SlotArgs) (m : Manager) (s : ℕ)
    (hs : List BlockId) : Prop where
  table : (m.table r.requestId).length ≤ cdiv (mainTokens r n a) m.blockSize + s
  hits : hs.length ≤ cdiv (localTokens r n + a.numExternalComputedTokens) m.blockSize
  external : a.numExternalComputedTokens = 0 ∨ cdiv (mainTokens r n a) m.blockSize =
    cdiv (localTokens r n + a.numExternalComputedTokens) m.blockSize

/-- **The condition** on the state before the call and its arguments. The hits fit next to external
tokens; mamba has the same block size for counting and taking speculative blocks; align groups
foresee the call; cross attention comes without prefix caching. -/
@[mk_iff]
structure Foreseen (k : KVCacheManager) (r : KVRequest) (n : ℕ) (hits : List (List BlockId))
    (a : SlotArgs) : Prop where
  fits : k.HitsFit r.requestId hits (localTokens r n) a.numExternalComputedTokens
  speculation : ∀ m ∈ k.managers, m.SameSpeculation
  align : Forall₂ (fun m hs => ∀ s, m.spec.kind = .mamba .align s →
    AlignForeseen r n a m s hs) k.managers hits
  cross : k.enableCaching = true → ∀ m ∈ k.managers, m.spec.isCross = false

/-- All of it for one group. -/
structure GroupReady (p : BlockPool) (r : KVRequest) (n : ℕ) (hits : List (List BlockId))
    (a : SlotArgs) (m : Manager) (hs : List BlockId) : Prop where
  ok : Manager.Hits p hs
  caching : m.enableCaching = false → hs = []
  cross : m.spec.isCross = true → hs = []
  fits : m.Fits r.requestId hs (localTokens r n) a.numExternalComputedTokens
  speculation : m.SameSpeculation
  fresh : Adds hits a → m.table r.requestId = [] ∧
    m.numCachedBlock.contains r.requestId = false
  covered : ¬ Adds hits a → hs = [] ∧ (m.spec.isCross = false →
    cdiv (localTokens r n) m.blockSize ≤ (m.table r.requestId).length)
  align : ∀ s, m.spec.kind = .mamba .align s → AlignForeseen r n a m s hs

/-- Nothing of this is changed by removing skipped blocks. -/
theorem GroupReady.of_shrunk {p' : BlockPool} {hits : List (List BlockId)} {m m' : Manager}
    {hs : List BlockId} {null : BlockId} {limit : ℤ} (h : GroupReady p r n hits a m hs)
    (hm : m.Shrunk null r.requestId limit m') (hs' : p.SameShape p') :
    GroupReady p' r n hits a m' hs := by
  have hbs := hm.config.blockSize
  refine ⟨h.ok.of_shape hs', ?_, ?_, ?_, ?_, fun hadds => ?_, fun hadds => ?_, fun s hkind => ?_⟩
  · rw [hm.config.enableCaching]
    exact h.caching
  · rw [hm.config.spec]
    exact h.cross
  · unfold Manager.Fits
    rw [hm.config.spec, hm.numCachedBlock, hbs]
    exact h.fits
  · unfold Manager.SameSpeculation
    rw [hm.config.spec, hm.config.worldSize]
    exact h.speculation
  · obtain ⟨hempty, hnot⟩ := h.fresh hadds
    refine ⟨?_, hm.numCachedBlock ▸ hnot⟩
    rw [← length_eq_zero_iff, hm.length, hempty, length_nil]
  · rw [hm.config.spec, hbs, hm.length]
    exact h.covered hadds
  · rw [hm.config.spec] at hkind
    obtain ⟨htable, hhits, hext⟩ := h.align s hkind
    exact ⟨by rwa [hm.length, hbs], by rwa [hbs], by rwa [hbs]⟩

/-- The blocks that one group takes from the queue `as` of free blocks. -/
def groupCost (r : KVRequest) (n : ℕ) (hits : List (List BlockId)) (a : SlotArgs) (slots : ℕ)
    (as : List BlockId) (m : Manager) (hs : List BlockId) : ℕ :=
  if Adds hits a then
    (m.claim r.requestId hs (localTokens r n) a.numExternalComputedTokens).cost as +
      m.newBlocksTaken r.requestId (if m.spec.isCross then a.numEncoderTokens else slots)
        (mainTokens r n a) (m.lengthAfter r.requestId hs (localTokens r n)
          a.numExternalComputedTokens)
  else
    m.newBlocksTaken r.requestId (if m.spec.isCross then a.numEncoderTokens else slots)
      (mainTokens r n a) (m.table r.requestId).length

section

variable {p : BlockPool} {r : KVRequest} {n slots : ℕ} {hits : List (List BlockId)} {a : SlotArgs}
  {m : Manager} {hs : List BlockId} {as : List BlockId}

theorem mainTokens_pos (hnew : 0 ≤ a.numNewTokens)
    (hasks : ¬ (a.numNewTokens = 0 ∧ a.numExternalComputedTokens = 0)) : 0 < mainTokens r n a := by
  unfold mainTokens
  omega

variable (slots) in
/-- A request with blocks in all groups: cross attention counts encoder tokens. -/
theorem announced_of_table (total : ℕ) (hspec : m.SameSpeculation)
    (hskip : m.spec.isCross = false → m.numSkippedBlocks total ≤ (m.table r.requestId).length)
    (halign : ∀ s, m.spec.kind = .mamba .align s →
      (m.table r.requestId).length ≤ cdiv (mainTokens r n a) m.blockSize + s) :
    ∃ need, blocksToAllocate p r.requestId slots a.numEncoderTokens total (mainTokens r n a) m [] =
        some need ∧ 0 ≤ need ∧
      (m.newBlocksTaken r.requestId (if m.spec.isCross then a.numEncoderTokens else slots)
        (mainTokens r n a) (m.table r.requestId).length : ℤ) ≤ need := by
  unfold blocksToAllocate
  by_cases hcross : m.spec.isCross = true
  · rw [if_pos hcross, if_pos hcross]
    have hkind : m.spec.kind = .crossAttention := by
      unfold KVCacheSpec.isCross at hcross
      split at hcross
      · assumption
      · cases hcross
    have hzero : m.numSkippedBlocks 0 = 0 := by
      simp [Manager.numSkippedBlocks, Manager.getNumSkippedTokens, hkind]
    obtain ⟨need, hneed, h0, hle⟩ := Manager.getNumBlocksToAllocate_running (p := p)
      (r := r.requestId) a.numEncoderTokens a.numEncoderTokens 0 (by omega) hspec
      (fun s hs => by rw [hkind] at hs; cases hs)
    refine ⟨need, hneed, h0, ?_⟩
    simp only [Manager.newBlocksTaken, hkind] at hle ⊢
    exact hle
  · rw [if_neg hcross, if_neg hcross]
    exact Manager.getNumBlocksToAllocate_running _ _ _ (hskip (by simpa using hcross)) hspec halign

/-- **One group announces what it takes**, or more than the pool has. -/
theorem GroupReady.announced (h : GroupReady p r n hits a m hs) (hqueued : p.Queued as)
    (hslots : localTokens r n + a.numExternalComputedTokens ≤ slots) (ha : m.Aligned) :
    ∃ need, blocksToAllocate p r.requestId slots a.numEncoderTokens
        (localTokens r n + a.numExternalComputedTokens) (mainTokens r n a) m hs = some need ∧
      0 ≤ need ∧ (need ≤ p.numGpuBlocks → (groupCost r n hits a slots as m hs : ℤ) ≤ need) := by
  unfold groupCost
  by_cases hadds : Adds hits a
  · obtain ⟨hempty, hnot⟩ := h.fresh hadds
    by_cases hcross : m.spec.isCross = true
    · -- cross attention takes no part in adding computed blocks
      have htakes : m.takesHits r.requestId = false := by simp [Manager.takesHits, hcross]
      have hnil := h.cross hcross
      subst hnil
      obtain ⟨need, hneed, h0, hle⟩ := announced_of_table (p := p) slots
        (localTokens r n + a.numExternalComputedTokens) h.speculation
        (fun hc => by rw [hcross] at hc; cases hc) fun s hs => (h.align s hs).table
      refine ⟨need, hneed, h0, fun _ => ?_⟩
      rw [if_pos hadds, Manager.lengthAfter, htakes]
      simpa [Manager.claim, htakes, Claim.cost] using hle
    · have htakes : m.takesHits r.requestId = true := by simp [Manager.takesHits, hcross, hnot]
      rw [if_pos hadds, if_neg hcross, Manager.lengthAfter, if_pos htakes, blocksToAllocate,
        if_neg hcross]
      refine Manager.getNumBlocksToAllocate_fresh hqueued h.ok.lt htakes hempty h.speculation
        hslots (by unfold mainTokens; omega) fun s hs => ?_
      obtain ⟨-, hhits, hext⟩ := h.align s hs
      refine ⟨fun hmem => ?_, hhits, hext⟩
      have := (ha s hs r.requestId).allocated hmem
      rw [hempty, length_nil] at this
      omega
  · obtain ⟨hnil, hcovered⟩ := h.covered hadds
    subst hnil
    have hext : a.numExternalComputedTokens = 0 := by
      unfold Adds at hadds
      omega
    obtain ⟨need, hneed, h0, hle⟩ := announced_of_table (p := p) slots
      (localTokens r n + a.numExternalComputedTokens) h.speculation
      (fun hc => by
        have h1 := m.numSkippedBlocks_le (localTokens r n + a.numExternalComputedTokens)
        have h2 := hcovered hc
        rw [hext, Nat.add_zero] at h1 ⊢
        omega) fun s hs => (h.align s hs).table
    refine ⟨need, hneed, h0, fun _ => ?_⟩
    rw [if_neg hadds]
    exact hle

end

/-! ## The state -/

/-- The flags of the manager, its groups and its pool agree, and hashes can be read at the block
size of every group. -/
structure Configured (k : KVCacheManager) : Prop where
  pool : k.pool.enableCaching = k.enableCaching
  managers : ∀ m ∈ k.managers, m.enableCaching = k.enableCaching
  sizes : k.enableCaching = true → ∀ m ∈ k.managers, m.blockSize % k.pool.hashBlockSize = 0

/-- **The invariant.** The accounting is right, align groups are aligned, and with prefix caching
open blocks have no hash. -/
structure Ready (k : KVCacheManager) : Prop where
  inv : k.Inv
  configured : k.Configured
  aligned : ∀ m ∈ k.managers, m.Aligned
  tidy : k.enableCaching = true → AllTidy k.pool k.managers fun _ => False

theorem Configured.of_same (h : k.Configured) (hk : k'.enableCaching = k.enableCaching)
    (hs : k.pool.SameShape k'.pool)
    (hm : Forall₂ Manager.SameConfig k.managers k'.managers) : k'.Configured := by
  refine ⟨by rw [hs.enableCaching, h.pool, hk], fun m' hm' => ?_, fun hc m' hm' => ?_⟩
  · obtain ⟨m, hmem, hsame⟩ := forall₂_mem_right hm hm'
    rw [hsame.enableCaching, h.managers m hmem, hk]
  · obtain ⟨m, hmem, hsame⟩ := forall₂_mem_right hm hm'
    rw [hsame.blockSize, hs.hashBlockSize]
    exact h.sizes (hk ▸ hc) m hmem

/-- A method that keeps each manager good, aligned and tidy keeps the invariant. -/
theorem onManagers_ready {f : Manager → BlockPool → Option (Manager × BlockPool)} (h : k.Ready)
    (hk : ∀ m ∈ k.managers, ∀ m' p p' rest, m.Good p rest → f m p = some (m', p') →
      m.Keeps m' p p' rest ∧ m'.Aligned)
    (ht : ∀ m ∈ k.managers, ∀ m' p p' rest elsewhere, m.Good p rest → m.Tidy p elsewhere →
      f m p = some (m', p') → m'.Tidy p' elsewhere) (he : k.onManagers f = some k') :
    k'.Ready := by
  obtain ⟨ms, p, rfl, hturn⟩ := onManagers_inTurn he
  obtain ⟨⟨hs, hgood⟩, hgroups⟩ := hturn.keeps
    (S := fun m m' => Manager.SameConfig m m' ∧ m'.Aligned) (fun m hm m' p1 p2 rest _ hgood hR =>
      let ⟨hkeeps, ha⟩ := hk m hm m' p1 p2 rest hgood hR
      ⟨hkeeps, hkeeps.config, ha⟩) h.inv
  refine ⟨hgood, h.configured.of_same rfl hs (hgroups.imp fun _ _ hm => hm.1), fun m' hm' => ?_,
    fun hc => ?_⟩
  · obtain ⟨m, -, -, haligned⟩ := forall₂_mem_right hgroups hm'
    exact haligned
  · exact hturn.tidy (fun m hm m' p1 p2 rest _ hg hR => (hk m hm m' p1 p2 rest hg hR).1)
      (fun m hm m' p1 p2 rest elsewhere _ hg htidy _ hR =>
        ht m hm m' p1 p2 rest elsewhere hg htidy hR) h.inv (h.tidy hc) fun b hb => hb.elim

/-! ### Removing skipped blocks -/

/-- **What a failed call changes.** Each group has at most replaced blocks outside its window by the
null block; no hash has changed, and the accounting is right. -/
structure OnlySkipped (k k' : KVCacheManager) (r : RequestId) (total : ℕ) : Prop where
  groups : Forall₂ (fun m m' => Manager.Shrunk k.pool.nullBlock r
    (m.numSkippedBlocks (m.settledTokens total)) m m') k.managers k'.managers
  shape : k.pool.SameShape k'.pool
  hashes : k.pool.SameHashes k'.pool
  maxModelLen : k'.maxModelLen = k.maxModelLen
  enableCaching : k'.enableCaching = k.enableCaching
  useEagle : k'.useEagle = k.useEagle
  inv : k'.Inv

theorem removeSkippedBlocks_onlySkipped {r : RequestId} (h : k.Inv)
    (ha : ∀ m ∈ k.managers, m.Aligned)
    (he : k.removeSkippedBlocks r total = some k') : OnlySkipped k k' r total := by
  obtain ⟨ms, p, rfl, hturn⟩ := onManagers_inTurn he
  obtain ⟨⟨hshape, hinv⟩, hgroups⟩ := hturn.keeps (S := fun m m' => Manager.Shrunk k.pool.nullBlock
      r (m.numSkippedBlocks (m.settledTokens total)) m m') (fun m hm m' p p' rest hs hgood hR => by
    obtain ⟨hkeeps, hshrunk, -⟩ := hgood.removeSkippedBlocks (ha m hm) hR
    exact ⟨hkeeps, hs.nullBlock ▸ hshrunk⟩) h
  obtain ⟨-, hhashes⟩ := hturn.rel (S := fun _ _ => True) (T := BlockPool.SameHashes) .refl
    (fun _ _ _ => .trans) fun m _ m' p p' hm => by
      obtain ⟨m1, p1, hd, hd'⟩ := Manager.removeSkippedBlocks_drops hm
      exact ⟨trivial, hd.hashes.trans hd'.hashes⟩
  exact ⟨hgroups, hshape, hhashes, rfl, rfl, rfl, hinv⟩

/-- **Removing skipped blocks never raises.** -/
theorem removeSkippedBlocks_some (h : k.Inv) (ha : ∀ m ∈ k.managers, m.Aligned) (r : RequestId)
    (total : ℕ) : ∃ k', k.removeSkippedBlocks r total = some k' := by
  refine onManagers_some (c := False) h False.elim fun m hm p rest _ _ hgood _ => ?_
  obtain ⟨m', p', he, -⟩ := Manager.removeSkippedBlocks_shrunk (r := r) (n := total) hgood (ha m hm)
  exact ⟨m', p', he, (Manager.removeSkippedBlocks_keeps hgood he).1, False.elim⟩

theorem removeSkippedBlocks_ready {r : RequestId} (h : k.Ready)
    (he : k.removeSkippedBlocks r total = some k') : k'.Ready := by
  refine onManagers_ready h (fun m hm m' p p' rest hgood hR => ?_)
    (fun m hm m' p p' rest elsewhere hgood htidy hR => ?_) he
  · obtain ⟨hkeeps, hshrunk, -⟩ := hgood.removeSkippedBlocks (h.aligned m hm) hR
    exact ⟨hkeeps, hshrunk.aligned (h.aligned m hm)⟩
  · obtain ⟨hkeeps, hshrunk, hh⟩ := hgood.removeSkippedBlocks (h.aligned m hm) hR
    exact hshrunk.tidy hkeeps.shape.nullBlock hh htidy

/-! ### Growing -/

/-- The slots that a call asks for. -/
def slotTokens (k : KVCacheManager) (r : KVRequest) (n : ℕ) (a : SlotArgs) : ℕ :=
  min (mainTokens r n a + a.numLookaheadTokens) k.maxModelLen

/-- The counts of a call as natural numbers. -/
theorem counts_eq (hcomp : 0 ≤ r.numComputedTokens) (hnew : 0 ≤ a.numNewTokens)
    (hroom : localTokens r n + a.numExternalComputedTokens ≤ k.maxModelLen) :
    r.numComputedTokens + n = (localTokens r n : ℤ) ∧
    min ((localTokens r n : ℤ) + a.numExternalComputedTokens) k.maxModelLen + a.numNewTokens =
      (mainTokens r n a : ℤ) ∧
    (min ((mainTokens r n a : ℤ) + a.numLookaheadTokens) k.maxModelLen).toNat =
      k.slotTokens r n a := by
  refine ⟨?_, ?_, ?_⟩
  · unfold localTokens
    omega
  · unfold mainTokens
    omega
  · unfold slotTokens
    omega

/-- The three parts of `grow`, with the counts as natural numbers. -/
theorem grow_eq {hits : List (List BlockId)} (hcomp : 0 ≤ r.numComputedTokens)
    (hnew : 0 ≤ a.numNewTokens)
    (hroom : localTokens r n + a.numExternalComputedTokens ≤ k.maxModelLen) :
    k.grow r n hits a =
      (k.addComputed r.requestId hits (localTokens r n) a.numExternalComputedTokens).bind fun k1 =>
        (k1.allocateNewBlocks r.requestId (k.slotTokens r n a) (mainTokens r n a)
          a.numEncoderTokens).bind fun q =>
          if k.enableCaching = false ∨ a.delayCacheBlocks = true then some q
          else
            (q.2.commitBlocks r (min (mainTokens r n a) r.numTokens)).map fun k3 => (q.1, k3) := by
  obtain ⟨hlocal, hmain, hslots⟩ := counts_eq hcomp hnew hroom
  have hcached : (min (mainTokens r n a : ℤ) r.numTokens).toNat =
      min (mainTokens r n a) r.numTokens := by omega
  simp only [grow, hlocal, hmain, hslots, hcached, Int.toNat_natCast, bind]
  congr 1
  funext k1
  congr 1
  funext q
  obtain ⟨news, k2⟩ := q
  split
  · rfl
  · cases k2.commitBlocks r (min (mainTokens r n a) r.numTokens) <;> rfl

section

variable {k k1 k' : KVCacheManager} {r : KVRequest} {n : ℕ} {hits : List (List BlockId)}
  {a : SlotArgs}

/-- What the groups take when computed blocks are added. -/
theorem taken_of_placed (slots e : ℕ) {l : ℕ} {ms ms' : List Manager} {hits : List (List BlockId)}
    {r : RequestId} {numLocal numExternal : ℕ}
    (h : Forall₂ (fun q m' => PlacedFor r (Prod.snd q) numLocal numExternal (Prod.fst q) m')
      (ms.zip hits) ms') :
    sumNewBlocks r slots l e ms' =
      (zipWith (fun m hs => Manager.newBlocksTaken m r (if m.spec.isCross then e else slots) l
        (m.lengthAfter r hs numLocal numExternal)) ms hits).sum := by
  rw [sumNewBlocks, ← map_uncurry_zip_eq_zipWith]
  congr 1
  refine (forall₂_eq_eq_eq ▸ forall₂_map_left_iff.mpr (forall₂_map_right_iff.mpr
    (h.imp fun q m' hm => ?_)) : _ = _).symm
  rw [hm.length, hm.only.config.spec]
  simp only [Function.uncurry, Manager.newBlocksTaken, hm.only.config.spec,
    hm.only.config.blockSize, hm.allocated]

theorem sum_zipWith_add {f g : Manager → List BlockId → ℕ} (ms : List Manager)
    (hits : List (List BlockId)) : (zipWith (fun m hs => f m hs + g m hs) ms hits).sum =
      (zipWith f ms hits).sum + (zipWith g ms hits).sum := by
  simp only [← map_uncurry_zip_eq_zipWith]
  exact sum_map_add

theorem zipWith_left {f : Manager → ℕ} {ms : List Manager} {hits : List (List BlockId)}
    (hlen : ms.length = hits.length) : zipWith (fun m _ => f m) ms hits = ms.map f := by
  rw [← map_uncurry_zip_eq_zipWith]
  exact (map_map (g := f)).symm.trans (congrArg _ (map_fst_zip hlen.le))

/-- The cost of all groups. -/
def totalCost (k : KVCacheManager) (r : KVRequest) (n : ℕ) (hits : List (List BlockId))
    (a : SlotArgs) : ℕ :=
  (zipWith (groupCost r n hits a (k.slotTokens r n a) k.pool.getAllFreeBlocks)
    k.managers hits).sum

/-- What is known of an align group once computed blocks were added, or not: enough to add new
blocks and to keep it aligned. -/
structure AlignPlaced (r : KVRequest) (n : ℕ) (a : SlotArgs) (m : Manager) (s : ℕ) : Prop where
  others : ∀ r', r' ≠ r.requestId → m.AlignedAt s r'
  alignable : m.Alignable s r.requestId (mainTokens r n a)
  table : (m.table r.requestId).length ≤ cdiv (mainTokens r n a) m.blockSize + s
  behind : r.requestId ∈ m.allocatedBlockReqs →
    m.numCachedBlock.getD r.requestId 0 + s ≤ (m.table r.requestId).length

section

variable {p : BlockPool} {m m1 : Manager} {hs : List BlockId} {s : ℕ}

/-- A group that is aligned and foresees the call. -/
theorem GroupReady.alignPlaced (h : GroupReady p r n hits a m hs) (ha : m.Aligned)
    (hpos : 0 < mainTokens r n a) (hkind : m.spec.kind = .mamba .align s) :
    AlignPlaced r n a m s := by
  obtain ⟨hcached, halloc, hlast⟩ := ha s hkind r.requestId
  have htable := (h.align s hkind).table
  refine ⟨fun r' _ => ha s hkind r', ⟨hpos, fun c hc => ?_, halloc, hlast⟩, htable,
    (ha s hkind _).cached_le⟩
  have := hcached c hc
  omega

/-- The same once the computed blocks are in the table. -/
theorem GroupReady.alignPlaced_of_placed (h : GroupReady p r n hits a m hs) (hadds : Adds hits a)
    (ha : m.Aligned) (hpos : 0 < mainTokens r n a) (hpl : PlacedFor r.requestId hs
      (localTokens r n) a.numExternalComputedTokens m m1)
    (hkind : m1.spec.kind = .mamba .align s) : AlignPlaced r n a m1 s := by
  rw [hpl.only.config.spec] at hkind
  -- the request is new to the group
  obtain ⟨hempty, hnot⟩ := h.fresh hadds
  obtain ⟨-, halloc, hlast⟩ := ha s hkind r.requestId
  rw [hempty, length_nil] at halloc hlast
  have hfresh : r.requestId ∉ m1.allocatedBlockReqs := by
    intro hmem
    have := halloc (hpl.allocated ▸ hmem)
    omega
  have hcross : m.spec.isCross = false := by simp [KVCacheSpec.isCross, hkind]
  have htakes : m.takesHits r.requestId = true := by simp [Manager.takesHits, hcross, hnot]
  have hskip := m.numSkippedBlocks_le (localTokens r n + a.numExternalComputedTokens)
  have hhits := (h.align s hkind).hits
  have hmono : cdiv (localTokens r n + a.numExternalComputedTokens) m.blockSize ≤
      cdiv (mainTokens r n a) m.blockSize := Manager.cdiv_mono (by unfold mainTokens; omega)
  obtain ⟨hle, -⟩ := Manager.fresh_le hs (localTokens r n) a.numExternalComputedTokens htakes
  have hnamed : (m.claim r.requestId hs (localTokens r n)
      a.numExternalComputedTokens).named.length = hs.length -
        (m.numSkippedBlocks (localTokens r n + a.numExternalComputedTokens)).toNat := by
    simp only [Manager.claim, htakes, if_true, Manager.hitsInWindow_eq, length_drop]
  refine ⟨fun r' hr' => hpl.only.alignedAt hr' (ha s hkind r'), ⟨hpos, fun c hc => ?_,
    fun hmem => absurd hmem hfresh, fun idx hidx => ?_⟩, ?_, fun hmem => absurd hmem hfresh⟩
  · have hget : m.numCachedBlock.get? r.requestId = none := by simpa [Dict.contains] using hnot
    rw [hpl.cached c hc hget, hpl.only.config.blockSize, hnamed]
    omega
  · have := hlast idx (hpl.lastState ▸ hidx)
    omega
  · rw [hpl.length, hpl.only.config.blockSize, Manager.lengthAfter, if_pos htakes,
      Manager.placedLength_eq htakes]
    omega

end

/-- **Adding computed blocks** succeeds within its cost. -/
theorem addComputed_some (h : k.Inv)
    (hready : Forall₂ (GroupReady k.pool r n hits a) k.managers hits)
    (ha : ∀ m ∈ k.managers, m.Aligned) (hpos : 0 < mainTokens r n a)
    (hroom : k.totalCost r n hits a ≤ k.pool.getAllFreeBlocks.length) :
    ∃ k1, k.addComputed r.requestId hits (localTokens r n) a.numExternalComputedTokens = some k1 ∧
      (∀ m ∈ k1.managers, ∀ s, m.spec.kind = .mamba .align s → AlignPlaced r n a m s) ∧
      k.pool.getAllFreeBlocks.length + sumNewBlocks r.requestId (k.slotTokens r n a)
          (mainTokens r n a) a.numEncoderTokens k1.managers ≤
        k1.pool.getAllFreeBlocks.length + k.totalCost r n hits a := by
  unfold totalCost at hroom ⊢
  by_cases hadds : Adds hits a
  · have hcost : groupCost r n hits a (k.slotTokens r n a) k.pool.getAllFreeBlocks =
        fun m hs => (m.claim r.requestId hs (localTokens r n)
            a.numExternalComputedTokens).cost k.pool.getAllFreeBlocks +
          m.newBlocksTaken r.requestId (if m.spec.isCross then a.numEncoderTokens else
            k.slotTokens r n a) (mainTokens r n a) (m.lengthAfter r.requestId hs
              (localTokens r n) a.numExternalComputedTokens) := by
      funext m hs
      exact if_pos hadds
    rw [hcost, sum_zipWith_add] at hroom ⊢
    have hcan : Forall₂ (CanPlace k.pool r.requestId (localTokens r n)
        a.numExternalComputedTokens) k.managers hits := hready.imp fun m hs hgroup =>
      ⟨hgroup.ok, (hgroup.fresh hadds).1, (hgroup.fresh hadds).2, hgroup.caching, hgroup.cross,
        hgroup.fits⟩
    have hcosts : costs k.pool.getAllFreeBlocks (zipWith (fun m hs => Manager.claim m
        r.requestId hs (localTokens r n) a.numExternalComputedTokens) k.managers hits) =
        (zipWith (fun m hs => (Manager.claim m r.requestId hs (localTokens r n)
          a.numExternalComputedTokens).cost k.pool.getAllFreeBlocks) k.managers hits).sum := by
      rw [costs, map_zipWith]
    obtain ⟨ms, p, hms, hfree, hplaced⟩ := forManagersHits_some h hcan (by omega)
    refine ⟨{ k with managers := ms, pool := p }, ?_, fun m1 hm1 s hkind => ?_, ?_⟩
    · refine (if_pos hadds).trans ?_
      rw [allocateNewComputedBlocks, hms]
      rfl
    · obtain ⟨⟨m, hs⟩, hmem, hpl⟩ := forall₂_mem_right hplaced hm1
      exact ((forall₂_iff_zip.mp hready).2 hmem).alignPlaced_of_placed hadds
        (ha m (of_mem_zip hmem).1) hpos hpl hkind
    · have htaken := taken_of_placed (k.slotTokens r n a) a.numEncoderTokens
        (l := mainTokens r n a) hplaced
      dsimp only
      omega
  · refine ⟨k, by rw [addComputed]; exact if_neg hadds, fun m hm s hkind => ?_, ?_⟩
    · obtain ⟨hs, -, hgroup⟩ := forall₂_mem_right hready.flip hm
      exact hgroup.alignPlaced (ha m hm) hpos hkind
    have hcost : groupCost r n hits a (k.slotTokens r n a) k.pool.getAllFreeBlocks =
        fun m _ => m.newBlocksTaken r.requestId (if m.spec.isCross then a.numEncoderTokens else
          k.slotTokens r n a) (mainTokens r n a) (m.table r.requestId).length := by
      funext m hs
      exact if_neg hadds
    rw [hcost, zipWith_left hready.length_eq]
    exact le_rfl

theorem addComputed_ready (h : k.Ready)
    (hready : Forall₂ (GroupReady k.pool r n hits a) k.managers hits)
    (he : k.addComputed r.requestId hits (localTokens r n) a.numExternalComputedTokens = some k1) :
    k1.Inv ∧ k.pool.SameShape k1.pool ∧ k1.enableCaching = k.enableCaching ∧
      Forall₂ (Manager.Only r.requestId) k.managers k1.managers ∧
      (k.enableCaching = true → AllTidy k1.pool k1.managers fun _ => False) := by
  have hok : ∀ hs ∈ hits, Manager.Hits k.pool hs := fun hs hmem =>
    have ⟨_, _, hgroup⟩ := forall₂_mem_right hready hmem
    hgroup.ok
  rcases addComputed_inTurn hok (hready.imp fun m hs hgroup => hgroup.fits) he with
    rfl | ⟨ms, p, rfl, hturn⟩
  · exact ⟨h.inv, .refl _, rfl, forall₂_same.mpr fun m _ => .refl m, h.tidy⟩
  · obtain ⟨⟨hshape, hgood⟩, honly⟩ := hturn.keeps (S := Manager.Only r.requestId)
      (fun m _ m' p1 p2 rest hs hg hR =>
        ⟨hR.keeps hs hg, Manager.allocateNewComputedBlocks_only hR.choose_spec.2.2⟩) h.inv
    refine ⟨hgood, hshape, rfl, honly, fun hc => ?_⟩
    refine hturn.tidy (fun m _ m' p1 p2 rest hs hg hR => hR.keeps hs hg)
      (fun m _ m' p1 p2 rest elsewhere hs hgood ht helse hR => ?_) h.inv (h.tidy hc)
      fun b hb => hb.elim
    obtain ⟨hs', hhits, hfits, hm'⟩ := hR
    exact Manager.allocateNewComputedBlocks_tidy hgood ht
      (hs.enableCaching.trans (h.configured.pool.trans hc)) helse (hhits.of_shape hs) hfits hm'

/-- What is known after new blocks were added. -/
structure Grown (k k2 : KVCacheManager) (r : KVRequest) (n : ℕ) (a : SlotArgs) : Prop where
  ready : k2.Ready
  shape : k.pool.SameShape k2.pool
  enableCaching : k2.enableCaching = k.enableCaching
  config : Forall₂ Manager.SameConfig k.managers k2.managers
  length : ∀ m ∈ k2.managers, ∀ s, m.spec.kind = .mamba .align s →
    (m.table r.requestId).length = cdiv (mainTokens r n a) m.blockSize + s

/-- **New blocks** are added to all groups within the cost. -/
theorem allocateNewBlocks_grown (h : k.Ready) (hinv : k1.Inv)
    (hshape : k.pool.SameShape k1.pool) (hcaching : k1.enableCaching = k.enableCaching)
    (htidy : k.enableCaching = true → AllTidy k1.pool k1.managers fun _ => False)
    (honly : Forall₂ (Manager.Only r.requestId) k.managers k1.managers)
    (halign : ∀ m ∈ k1.managers, ∀ s, m.spec.kind = .mamba .align s → AlignPlaced r n a m s)
    (slots e : ℕ)
    (hroom : sumNewBlocks r.requestId slots (mainTokens r n a) e k1.managers ≤
      k1.pool.getAllFreeBlocks.length) :
    ∃ news k2, k1.allocateNewBlocks r.requestId slots (mainTokens r n a) e = some (news, k2) ∧
      Grown k k2 r n a ∧
      k1.pool.getAllFreeBlocks.length ≤ k2.pool.getAllFreeBlocks.length +
        sumNewBlocks r.requestId slots (mainTokens r n a) e k1.managers := by
  obtain ⟨news, ms, p, hms, hfree⟩ := allocateLoop_some hinv (fun m hm s hs =>
    have hm := halign m hm s hs
    ⟨hm.table, hm.alignable.allocated⟩) hroom
  have hturn := allocateLoop_inTurn hms
  have hkeeps : ∀ m ∈ k1.managers, ∀ m' p1 p2 rest, k1.pool.SameShape p1 → m.Good p1 rest →
      (∃ new, m.allocateNewBlocks r.requestId (if m.spec.isCross then e else slots)
        (mainTokens r n a) p1 = some (new, m', p2)) → m.Keeps m' p1 p2 rest := by
    rintro m - m' p1 p2 rest - hgood ⟨new, hm⟩
    exact Manager.allocateNewBlocks_keeps hgood hm
  -- each group on its own
  obtain ⟨⟨hs, hgood⟩, hgroups⟩ := hturn.keeps (S := fun m m' => Manager.SameConfig m m' ∧
      m'.Aligned ∧ ∀ s, m.spec.kind = .mamba .align s →
        (m'.table r.requestId).length = cdiv (mainTokens r n a) m.blockSize + s)
    (fun m hm m' p1 p2 rest hs hgood hR => by
      have hk := hkeeps m hm m' p1 p2 rest hs hgood hR
      obtain ⟨new, hm'⟩ := hR
      exact ⟨hk, hk.config, Manager.allocateNewBlocks_aligned hgood
        (fun s hs => (halign m hm s hs).others)
        (fun s hs => (halign m hm s hs).alignable) hm'⟩) hinv
  have hconfig : Forall₂ Manager.SameConfig k.managers ms :=
    forall₂_trans (R := Manager.SameConfig) (fun _ _ _ => Manager.SameConfig.trans)
      (honly.imp fun _ _ hm => hm.config) (hgroups.imp fun _ _ hm => hm.1)
  refine ⟨news, { k1 with managers := ms, pool := p }, ?_, ⟨⟨hgood, ?_, ?_, fun hc => ?_⟩,
    hshape.trans hs, hcaching, hconfig, fun m' hm' s hs' => ?_⟩, hfree⟩
  · rw [allocateNewBlocks, hms]
    rfl
  · exact h.configured.of_same hcaching (hshape.trans hs) hconfig
  · intro m' hm'
    obtain ⟨m, -, -, haligned, -⟩ := forall₂_mem_right hgroups hm'
    exact haligned
  · have hc : k.enableCaching = true := hcaching ▸ hc
    refine hturn.tidy hkeeps (fun m hm m' p1 p2 rest elsewhere hs hgood ht helse hR => ?_) hinv
      (htidy hc) fun b hb => hb.elim
    obtain ⟨new, hm'⟩ := hR
    refine Manager.allocateNewBlocks_tidy hgood ht ?_ helse
      (fun s hs => (halign m hm s hs).behind) hm'
    rw [hs.enableCaching, hshape.enableCaching, h.configured.pool, hc]
  · obtain ⟨m, -, hsame, -, hlen⟩ := forall₂_mem_right hgroups hm'
    rw [hsame.spec] at hs'
    rw [hsame.blockSize]
    exact hlen s hs'

variable {c : ℕ}

/-- **Caching** does not raise, takes no block and keeps the invariant. -/
theorem commitBlocks_some (h : k.Ready) (hc : k.enableCaching = true)
    (hcross : ∀ m ∈ k.managers, m.spec.isCross = false)
    (hlen : c / k.pool.hashBlockSize ≤ r.blockHashes.hashes.length) :
    ∃ k', k.commitBlocks r c = some k' := by
  refine onManagers_some (c := True) h.inv (fun _ => h.tidy hc)
    fun m hm p rest elsewhere hs hgood htidy => ?_
  obtain ⟨m', p', he⟩ := Manager.cacheBlocks_some r.requestId r.blockHashes.hashes (n := c) hgood
    (htidy trivial) (hcross m hm) (by rw [hs.hashBlockSize]; exact h.configured.sizes hc m hm)
    (by rw [hs.hashBlockSize]; exact hlen)
  exact ⟨m', p', he, Manager.cacheBlocks_keeps hgood he,
    fun _ => Manager.cacheBlocks_tidy hgood (htidy trivial) he⟩

theorem commitBlocks_ready (h : k.Ready)
    (hle : ∀ m ∈ k.managers, ∀ s, m.spec.kind = .mamba .align s →
      c / m.blockSize + s ≤ (m.table r.requestId).length) (he : k.commitBlocks r c = some k') :
    k'.Ready ∧ k'.pool.freeBlockQueue = k.pool.freeBlockQueue := by
  refine ⟨onManagers_ready h (fun m hm m' p p' rest hgood hR =>
      ⟨Manager.cacheBlocks_keeps hgood hR,
        Manager.cacheBlocks_aligned (h.aligned m hm) (hle m hm) hR⟩)
    (fun m _ m' p p' rest elsewhere hgood ht hR => Manager.cacheBlocks_tidy hgood ht hR) he, ?_⟩
  obtain ⟨ms, p, rfl, hturn⟩ := onManagers_inTurn he
  exact (hturn.rel (S := fun _ _ => True)
    (T := fun p p' => p'.freeBlockQueue = p.freeBlockQueue) (fun _ => rfl)
    (fun _ _ _ h h' => h'.trans h)
    fun m _ m' p p' hm => ⟨trivial, Manager.cacheBlocks_queue hm⟩).2

/-- Full blocks of the tokens that are cached lie within the blocks of the main model. -/
theorem div_le_cdiv {n b : ℕ} (h : c ≤ n) (hb : 0 < b) : c / b ≤ cdiv n b := by
  apply Manager.le_cdiv hb
  have := Nat.div_mul_le_self c b
  omega

/-- **Growing within the cost.** If the groups cost no more than what is free, `grow` does not
raise, takes no more than the cost and keeps the invariant. -/
theorem grow_some (h : k.Ready)
    (hready : Forall₂ (GroupReady k.pool r n hits a) k.managers hits)
    (hcomp : 0 ≤ r.numComputedTokens) (hnew : 0 ≤ a.numNewTokens)
    (hasks : ¬ (a.numNewTokens = 0 ∧ a.numExternalComputedTokens = 0))
    (hlen : localTokens r n + a.numExternalComputedTokens ≤ k.maxModelLen)
    (hashes : k.enableCaching = true →
      r.numTokens / k.pool.hashBlockSize ≤ r.blockHashes.hashes.length)
    (hcross : k.enableCaching = true → ∀ m ∈ k.managers, m.spec.isCross = false)
    (hroom : k.totalCost r n hits a ≤ k.pool.getAllFreeBlocks.length) :
    ∃ news k', k.grow r n hits a = some (news, k') ∧ k'.Ready ∧
      k.pool.getAllFreeBlocks.length ≤
        k'.pool.getAllFreeBlocks.length + k.totalCost r n hits a := by
  have hpos := mainTokens_pos (r := r) (n := n) hnew hasks
  rw [grow_eq hcomp hnew hlen]
  obtain ⟨k1, hk1, halign, hfree1⟩ := addComputed_some h.inv hready h.aligned hpos hroom
  obtain ⟨hinv1, hs1, hcaching1, honly, htidy1⟩ := addComputed_ready h hready hk1
  obtain ⟨news, k2, hk2, hgrown, hfree2⟩ := allocateNewBlocks_grown h hinv1 hs1 hcaching1 htidy1
    honly halign (k.slotTokens r n a) a.numEncoderTokens (by omega)
  simp only [hk1, hk2, Option.bind_some]
  split
  · exact ⟨news, k2, rfl, hgrown.ready, by omega⟩
  · rename_i hcache
    have hc : k.enableCaching = true := by
      by_contra hoff
      exact hcache (.inl (by simpa using hoff))
    have hle : min (mainTokens r n a) r.numTokens / k2.pool.hashBlockSize ≤
        r.blockHashes.hashes.length := by
      rw [hgrown.shape.hashBlockSize]
      exact (Nat.div_le_div_right (Nat.min_le_right _ _)).trans (hashes hc)
    obtain ⟨k3, hk3⟩ := commitBlocks_some hgrown.ready (hgrown.enableCaching.trans hc)
      (fun m' hm' => by
        obtain ⟨m, hm, hsame⟩ := forall₂_mem_right hgrown.config hm'
        rw [hsame.spec]
        exact hcross hc m hm) hle
    obtain ⟨hready3, hqueue⟩ := commitBlocks_ready hgrown.ready (fun m hm s hs => by
      rw [hgrown.length m hm s hs]
      have := div_le_cdiv (Nat.min_le_left (mainTokens r n a) r.numTokens) m.blockSize_pos
      omega) hk3
    refine ⟨news, k3, by rw [hk3]; rfl, hready3, ?_⟩
    rw [getAllFreeBlocks, getAllFreeBlocks, hqueue]
    rw [getAllFreeBlocks, getAllFreeBlocks] at hfree1 hfree2
    omega

end

end KVCacheManager

end Nvllm.KVCache
