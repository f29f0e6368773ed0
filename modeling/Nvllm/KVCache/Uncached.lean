import Nvllm.KVCache.Removed

/-! # Blocks that are not cached yet have no hash

`cache_full_blocks` asserts that a block it is about to cache has no hash. The blocks in question
are the *open* ones: those behind the cached blocks of their request. An open block has no hash,
and it is open for one request of one group only, so that caching it for this request cannot give
a hash to an open block of another one. Hits do not count: they are put in front, as cached blocks.

The managers work in turn on one pool, so the invariant of one of them is stated next to the blocks
that are open `elsewhere`.
-/

namespace Nvllm.KVCache

open BlockPool List Option

namespace Manager

/-! ## Open blocks -/

/-- The blocks of `r` behind the cached ones. -/
def openBlocks (m : Manager) (r : RequestId) : List BlockId :=
  (m.table r).drop (m.numCachedBlock.getD r 0)

/-- **Open blocks have no hash**, are open for one request only, and are not open elsewhere. -/
structure Tidy (m : Manager) (p : BlockPool) (elsewhere : BlockId → Prop) : Prop where
  unhashed : ∀ r, ∀ b ∈ m.openBlocks r, b ≠ p.nullBlock → (p.block b).blockHash = none
  alone : ∀ r r' b, b ∈ m.openBlocks r → b ∈ m.openBlocks r' → b ≠ p.nullBlock → r = r'
  elsewhere : ∀ b, elsewhere b → b ≠ p.nullBlock →
    (p.block b).blockHash = none ∧ ∀ r, b ∉ m.openBlocks r

section

variable {m m' : Manager} {p p' : BlockPool} {rest : BlockId → ℕ} {r : RequestId} {b : BlockId}
  {elsewhere : BlockId → Prop}

theorem mem_openBlocks : b ∈ m.openBlocks r ↔
    ∃ j, m.numCachedBlock.getD r 0 ≤ j ∧ (m.table r)[j]? = some b := by
  rw [openBlocks, mem_drop_iff]

theorem mem_table_of_open (hb : b ∈ m.openBlocks r) : b ∈ m.table r := mem_of_mem_drop hb

theorem occurrences_pos_of_open (hb : b ∈ m.openBlocks r) : 0 < occurrences m.reqToBlocks b := by
  have hcount : 0 < (m.table r).count b := count_pos_iff.mpr (mem_table_of_open hb)
  exact hcount.trans_le (TableInv.count_le_occurrences m.reqToBlocks r b)

theorem openBlocks_setTable_self (m : Manager) (r r' : RequestId) :
    (m.setTable r (m.table r)).openBlocks r' = m.openBlocks r' := by
  rw [openBlocks, table_setTable]
  split
  · rename_i hr
    rw [hr]
    rfl
  · rfl

/-- New blocks may be opened for one request. -/
theorem Tidy.open_new (h : m.Tidy p elsewhere) (hnull : p'.nullBlock = p.nullBlock)
    (new : List BlockId) (hopen : ∀ r', ∀ b ∈ m'.openBlocks r', b ≠ p.nullBlock →
      b ∈ m.openBlocks r' ∨ (r' = r ∧ b ∈ new))
    (hnew : ∀ b ∈ new, (p'.block b).blockHash = none ∧ (∀ r', b ∉ m.table r') ∧ ¬ elsewhere b)
    (hhash : ∀ b, (p.block b).blockHash = none → (p'.block b).blockHash = none) :
    m'.Tidy p' elsewhere := by
  refine ⟨fun r1 b hb hn => ?_, fun r1 r2 b hb1 hb2 hn => ?_, fun b hb hn => ?_⟩
  · rw [hnull] at hn
    rcases hopen r1 b hb hn with hb | ⟨-, hb⟩
    · exact hhash b (h.unhashed r1 b hb hn)
    · exact (hnew b hb).1
  · rw [hnull] at hn
    rcases hopen r1 b hb1 hn with hb1 | ⟨rfl, hb1⟩
    · rcases hopen r2 b hb2 hn with hb2 | ⟨rfl, hb2⟩
      · exact h.alone r1 r2 b hb1 hb2 hn
      · exact absurd (mem_table_of_open hb1) ((hnew b hb2).2.1 r1)
    · rcases hopen r2 b hb2 hn with hb2 | ⟨rfl, -⟩
      · exact absurd (mem_table_of_open hb2) ((hnew b hb1).2.1 r2)
      · rfl
  · rw [hnull] at hn
    obtain ⟨hnone, hnot⟩ := h.elsewhere b hb hn
    refine ⟨hhash b hnone, fun r1 hopen1 => ?_⟩
    rcases hopen r1 b hopen1 hn with hopen1 | ⟨-, hmem⟩
    · exact hnot r1 hopen1
    · exact (hnew b hmem).2.2 hb

/-- No block is opened or gets a hash. -/
theorem Tidy.of_subset (h : m.Tidy p elsewhere) (hnull : p'.nullBlock = p.nullBlock)
    (hopen : ∀ r', ∀ b ∈ m'.openBlocks r', b ≠ p.nullBlock → b ∈ m.openBlocks r')
    (hhash : ∀ b, (p.block b).blockHash = none → (p'.block b).blockHash = none) :
    m'.Tidy p' elsewhere :=
  h.open_new (r := 0) hnull [] (fun r' b hb hn => .inl (hopen r' b hb hn))
    (fun _ hb => absurd hb not_mem_nil) hhash

/-! ## Removing, freeing and caching -/

variable {null : BlockId} {k n s : ℕ} {hashes : List Bytes} {bs new : List BlockId}

theorem Shrunk.openBlocks_subset {limit : ℤ} (h : m.Shrunk null r limit m') {r' : RequestId}
    (hb : b ∈ m'.openBlocks r') (hn : b ≠ null) : b ∈ m.openBlocks r' := by
  obtain ⟨j, hle, hj⟩ := mem_openBlocks.mp hb
  rw [h.numCachedBlock] at hle
  refine mem_openBlocks.mpr ⟨j, hle, ?_⟩
  by_cases hr : r' = r
  · subst hr
    rcases h.position j with hsame | ⟨hnull, -⟩
    · rwa [hsame] at hj
    · rw [hnull] at hj
      exact absurd (Option.some.inj hj).symm hn
  · rwa [h.others r' hr] at hj

theorem Shrunk.tidy {limit : ℤ} (h : m.Shrunk p.nullBlock r limit m')
    (hnull : p'.nullBlock = p.nullBlock) (hh : p.SameHashes p') (ht : m.Tidy p elsewhere) :
    m'.Tidy p' elsewhere :=
  ht.of_subset hnull (fun _ _ hb hn => h.openBlocks_subset hb hn)
    fun b hb => (hh.blockHash b).trans hb

theorem free_openBlocks (he : m.free r p = some (m', p')) (r' : RequestId) :
    m'.openBlocks r' = if r' = r then [] else m.openBlocks r' := by
  obtain ⟨htable, -⟩ := free_tables he
  have hcached : m'.numCachedBlock = m.numCachedBlock.erase r := by
    simp only [free, bind, bind_eq_some_iff] at he
    obtain ⟨p1, -, he⟩ := he
    cases he
    split <;> rfl
  rw [openBlocks, htable, hcached]
  by_cases hr : r' = r
  · rw [if_pos hr, if_pos hr, drop_nil]
  · rw [if_neg hr, if_neg hr, openBlocks, Dict.getD, Dict.get?_erase_of_ne _ hr]
    rfl

theorem free_tidy (h : m.Good p rest) (ht : m.Tidy p elsewhere)
    (he : m.free r p = some (m', p')) : m'.Tidy p' elsewhere := by
  have hfree : p.freeBlocks (m.table r).reverse = some p' := by
    unfold free at he
    simp only [bind, bind_eq_some_iff] at he
    obtain ⟨p1, hfree, he⟩ := he
    cases he
    split at hfree <;> exact hfree
  obtain ⟨hs, hh, -⟩ := TableInv.free_erase h hfree
  refine ht.of_subset hs.nullBlock (fun r' b hb _ => ?_) fun b hb => (hh.blockHash b).trans hb
  rw [free_openBlocks he] at hb
  split at hb
  · cases hb
  · exact hb

/-- A proper block stands at one position of a table only. -/
theorem not_mem_drop_of_take (h : m.Good p rest) (hn : b ≠ p.nullBlock)
    (hb : b ∈ (m.table r).take k) : b ∉ (m.table r).drop k := by
  intro hb'
  have hcount : (m.table r).count b ≤ 1 := by
    rw [← count_held _ hn]
    exact nodup_iff_count_le_one.mp (TableInv.nodup_getD h) b
  have h1 : 0 < ((m.table r).take k).count b := count_pos_iff.mpr hb
  have h2 : 0 < ((m.table r).drop k).count b := count_pos_iff.mpr hb'
  have hsum : (m.table r).count b =
      ((m.table r).take k).count b + ((m.table r).drop k).count b := by
    rw [← count_append, take_append_drop]
  omega

/-- With more blocks cached the open blocks lie behind them. -/
theorem openBlocks_of_cached (htable : ∀ r', m'.table r' = m.table r')
    (hcached : m'.numCachedBlock = m.numCachedBlock.set r k) (hk : m.numCachedBlock.getD r 0 ≤ k)
    {r' : RequestId} (hb : b ∈ m'.openBlocks r') :
    b ∈ m.openBlocks r' ∧ (r' = r → b ∈ (m.table r).drop k) := by
  by_cases hr : r' = r
  · subst hr
    rw [openBlocks, htable, hcached, Dict.getD, Dict.get?_set_self, getD_some] at hb
    exact ⟨drop_subset_drop_left _ hk hb, fun _ => hb⟩
  · refine ⟨?_, fun heq => absurd heq hr⟩
    rwa [openBlocks, htable, hcached, Dict.getD, Dict.get?_set_of_ne _ _ hr] at hb

theorem baseCacheBlocks_tidy (h : m.Good p rest) (ht : m.Tidy p elsewhere)
    (he : m.baseCacheBlocks r hashes n p = some (m', p')) : m'.Tidy p' elsewhere := by
  rcases baseCacheBlocks_cases he with ⟨rfl, rfl, -⟩ | ⟨hlt, hm', hcache⟩
  · exact ht
  · obtain ⟨hs, -, -, hhash⟩ := cacheFullBlocks_spec h.ref h.hash (TableInv.lt_getD h) hcache
    -- a block that has got a hash was open for `r`, and lies in front of the new open blocks
    have hgot : ∀ b, (p.block b).blockHash = none → (p'.block b).blockHash ≠ none →
        b ∈ m.openBlocks r ∧ b ∈ (m.table r).take (n / m.blockSize) := by
      intro b hnone hsome
      obtain ⟨key, hkey⟩ := ne_none_iff_exists'.mp hsome
      rcases hhash b key hkey with hold | ⟨i, hs, hash, hle, hfull, hi, -⟩
      · rw [hnone] at hold
        cases hold
      · refine ⟨mem_openBlocks.mpr ⟨i, hle, hi⟩, mem_of_getElem? (i := i) ?_⟩
        rw [getElem?_take_of_lt hfull]
        exact hi
    have hopen : ∀ r', ∀ b ∈ m'.openBlocks r', b ∈ m.openBlocks r' ∧
        (r' = r → b ∈ (m.table r).drop (n / m.blockSize)) :=
      fun r' b hb => openBlocks_of_cached (hm' ▸ table_setTable_of_eq rfl)
        (congrArg Manager.numCachedBlock hm') hlt.le hb
    refine ⟨fun r' b hb hn => ?_, fun r1 r2 b hb1 hb2 hn => ?_, fun b hb hn => ?_⟩
    · rw [hs.nullBlock] at hn
      obtain ⟨hold, hbehind⟩ := hopen r' b hb
      by_contra hsome
      obtain ⟨hr, htake⟩ := hgot b (ht.unhashed r' b hold hn) hsome
      exact not_mem_drop_of_take h hn htake (hbehind (ht.alone r' r b hold hr hn))
    · rw [hs.nullBlock] at hn
      exact ht.alone r1 r2 b (hopen r1 b hb1).1 (hopen r2 b hb2).1 hn
    · rw [hs.nullBlock] at hn
      obtain ⟨hnone, hnot⟩ := ht.elsewhere b hb hn
      refine ⟨?_, fun r' hopen' => hnot r' (hopen r' b hopen').1⟩
      by_contra hsome
      exact hnot r (hgot b hnone hsome).1

theorem cacheBlocks_tidy (h : m.Good p rest) (ht : m.Tidy p elsewhere)
    (he : m.cacheBlocks r hashes n p = some (m', p')) : m'.Tidy p' elsewhere := by
  obtain ⟨m1, keys, hbase, rfl⟩ := cacheBlocks_base he
  exact (baseCacheBlocks_tidy h ht hbase).of_subset rfl (fun _ _ hb _ => hb) fun _ hb => hb

theorem cacheBlocks_queue (he : m.cacheBlocks r hashes n p = some (m', p')) :
    p'.freeBlockQueue = p.freeBlockQueue := by
  obtain ⟨m1, keys, hbase, -⟩ := cacheBlocks_base he
  rcases baseCacheBlocks_cases hbase with ⟨-, rfl, -⟩ | ⟨-, -, hcache⟩
  · rfl
  · exact (cacheFullBlocks_keeps hcache).1

/-! ## Caching succeeds -/

/-- Caching blocks without hash succeeds, and then they have one. -/
theorem cacheLoop_some (groupId : ℕ) (hashes : List Bytes) (h : p.HashInv)
    (hnull : ∀ b, (p.block b).isNull = true ↔ b = p.nullBlock) (hlt : ∀ b ∈ bs, b < p.blocks.length)
    (hnd : (held p.nullBlock bs).Nodup)
    (hnone : ∀ b ∈ bs, b ≠ p.nullBlock → (p.block b).blockHash = none)
    (hlen : bs.length ≤ hashes.length) :
    ∃ p', cacheLoop groupId bs hashes p = some p' ∧
      ∀ b ∈ bs, b ≠ p.nullBlock → (p'.block b).blockHash ≠ none := by
  induction bs generalizing p hashes with
  | nil => exact ⟨p, rfl, fun b hb => absurd hb not_mem_nil⟩
  | cons a bs ih =>
    obtain ⟨hash, hs, rfl⟩ : ∃ hash hs, hashes = hash :: hs := by
      cases hashes with
      | nil => simp at hlen
      | cons hash hs => exact ⟨hash, hs, rfl⟩
    have hlen' : bs.length ≤ hs.length := by simpa using hlen
    by_cases ha : a = p.nullBlock
    · obtain ⟨p', hp', hgot⟩ := ih hs h hnull (fun b hb => hlt b (mem_cons_of_mem _ hb))
        (by simpa [held, ha] using hnd) (fun b hb => hnone b (mem_cons_of_mem _ hb)) hlen'
      refine ⟨p', ?_, fun b hb hn => ?_⟩
      · unfold cacheLoop
        rw [if_pos ((hnull a).mpr ha)]
        exact hp'
      · exact hgot b ((mem_cons.mp hb).resolve_left fun he => hn (he.trans ha)) hn
    · have hheld : held p.nullBlock (a :: bs) = a :: held p.nullBlock bs := by simp [held, ha]
      rw [hheld, nodup_cons] at hnd
      obtain ⟨hshape, -, hh, hhash⟩ := cacheBlock_spec h (hlt a mem_cons_self) ha
        (hnone a mem_cons_self ha) ⟨hash, groupId⟩
      obtain ⟨p', hp', hgot⟩ := ih (p := p.cacheBlock ⟨hash, groupId⟩ a) hs hh
        (fun b => by rw [hshape.isNull, hshape.nullBlock]; exact hnull b)
        (fun b hb => by rw [hshape.length]; exact hlt b (mem_cons_of_mem _ hb))
        (by rw [hshape.nullBlock]; exact hnd.2)
        (fun b hb hn => by
          have hba : b ≠ a := fun he => hnd.1 (mem_held.mpr ⟨he ▸ hb, ha⟩)
          rw [hhash, if_neg hba]
          exact hnone b (mem_cons_of_mem _ hb) hn) hlen'
      refine ⟨p', ?_, fun b hb hn => ?_⟩
      · have hproper : ¬ (p.block a).isNull = true := fun hn => ha ((hnull a).mp hn)
        unfold cacheLoop
        rw [if_neg hproper, hnone a mem_cons_self ha]
        exact hp'
      · by_cases hba : b = a
        · -- the block cached first keeps its hash
          have hsome : ((p.cacheBlock ⟨hash, groupId⟩ a).block b).blockHash ≠ none := by
            rw [hhash, if_pos hba]
            simp
          rw [(cacheLoop_keeps hp').2 b hsome]
          exact hsome
        · exact hgot b ((mem_cons.mp hb).resolve_left hba) (hshape.nullBlock ▸ hn)

/-- There is a hash for every full block if the request has the hashes of its tokens. -/
theorem hashesAt_some {size : ℕ} (hpos : 0 < size) (hsize : size % p.hashBlockSize = 0)
    (hlen : n / p.hashBlockSize ≤ hashes.length) :
    ∃ hs, p.hashesAt size hashes = some hs ∧ n / size ≤ hs.length ∧ n / size ≤ hashes.length := by
  have hdvd : p.hashBlockSize ∣ size := Nat.dvd_of_mod_eq_zero hsize
  have hle : n / size ≤ hashes.length :=
    (Nat.div_le_div_left (Nat.le_of_dvd hpos hdvd) (Nat.pos_of_dvd_of_pos hdvd hpos)).trans hlen
  unfold hashesAt
  split
  · exact ⟨hashes, rfl, hle, hle⟩
  · refine ⟨_, rfl, ?_, hle⟩
    rw [mergeBlockHashes, length_map, length_range]
    calc n / size = n / (p.hashBlockSize * (size / p.hashBlockSize)) := by
          rw [Nat.mul_div_cancel' hdvd]
      _ = n / p.hashBlockSize / (size / p.hashBlockSize) := (Nat.div_div_eq_div_mul _ _ _).symm
      _ ≤ hashes.length / (size / p.hashBlockSize) := Nat.div_le_div_right hlen

theorem baseCacheBlocks_some (h : m.Good p rest) (ht : m.Tidy p elsewhere)
    (hsize : m.blockSize % p.hashBlockSize = 0) (hlen : n / p.hashBlockSize ≤ hashes.length) :
    ∃ m' p', m.baseCacheBlocks r hashes n p = some (m', p') ∧
      (m.numCachedBlock.getD r 0 < m'.numCachedBlock.getD r 0 →
        ∀ b ∈ ((m'.table r).take (m'.numCachedBlock.getD r 0)).drop (m.numCachedBlock.getD r 0),
          b ≠ p.nullBlock → (p'.block b).blockHash ≠ none) := by
  simp only [baseCacheBlocks]
  split
  · exact ⟨m, p, rfl, fun hlt => absurd hlt (Nat.lt_irrefl _)⟩
  · rename_i hfull
    obtain ⟨hs, hat, hhs, hle⟩ := hashesAt_some m.blockSize_pos hsize hlen
    have hsub : ((m.table r).take (n / m.blockSize)).drop (m.numCachedBlock.getD r 0) ⊆
        m.openBlocks r := by
      rw [openBlocks, drop_take]
      exact take_subset _ _
    have hlist : (((m.table r).take (n / m.blockSize)).drop (m.numCachedBlock.getD r 0)).Sublist
        (m.table r) := (drop_sublist _ _).trans (take_sublist _ _)
    obtain ⟨p', hp', hgot⟩ := cacheLoop_some m.groupId
      (hs.drop (m.numCachedBlock.getD r 0)) h.hash h.ref.isNull_iff
      (fun b hb => h.ref.length ▸ TableInv.lt_getD h b (hlist.subset hb))
      ((TableInv.nodup_getD h).sublist (hlist.filter _))
      (fun b hb hn => ht.unhashed r b (hsub hb) hn)
      (by simp only [length_drop, length_take]; omega)
    rw [cacheFullBlocks, if_neg hfull, if_neg (by omega), hat]
    simp only [bind, bind_some, hp']
    refine ⟨_, p', rfl, fun _ => ?_⟩
    have hcached : (m.numCachedBlock.set r (n / m.blockSize)).getD r 0 = n / m.blockSize := by
      rw [Dict.getD, Dict.get?_set_self, getD_some]
    have htable : (m.setTable r (m.table r)).table r = m.table r := by
      rw [table_setTable, if_pos rfl]
    show ∀ b ∈ (((m.setTable r (m.table r)).table r).take
      ((m.numCachedBlock.set r (n / m.blockSize)).getD r 0)).drop (m.numCachedBlock.getD r 0), _
    rw [hcached, htable]
    exact hgot

theorem hashesOf_some (bs : List BlockId) (hnull : ∀ b, (p.block b).isNull = true ↔ b = p.nullBlock)
    (hbs : ∀ b ∈ bs, b ≠ p.nullBlock → (p.block b).blockHash ≠ none) :
    ∃ keys, hashesOf p bs = some keys := by
  induction bs with
  | nil => exact ⟨[], rfl⟩
  | cons b bs ih =>
    obtain ⟨keys, hkeys⟩ := ih fun c hc => hbs c (mem_cons_of_mem _ hc)
    unfold hashesOf
    split
    · exact ⟨keys, hkeys⟩
    · rename_i hn
      obtain ⟨key, hkey⟩ := ne_none_iff_exists'.mp
        (hbs b mem_cons_self fun he => hn ((hnull b).mpr he))
      exact ⟨key :: keys, by rw [hkey, hkeys]; rfl⟩

/-- **`cache_blocks`** does not raise: the blocks in question are open, and there are enough
hashes. -/
theorem cacheBlocks_some (r : RequestId) (hashes : List Bytes) (h : m.Good p rest)
    (ht : m.Tidy p elsewhere) (hcross : m.spec.isCross = false)
    (hsize : m.blockSize % p.hashBlockSize = 0) (hlen : n / p.hashBlockSize ≤ hashes.length) :
    ∃ m' p', m.cacheBlocks r hashes n p = some (m', p') := by
  obtain ⟨m1, p1, hbase, hgot⟩ := baseCacheBlocks_some (r := r) h ht hsize hlen
  unfold cacheBlocks
  split
  · rename_i hkind
    simp [KVCacheSpec.isCross, hkind] at hcross
  · simp only [hbase, bind, bind_some]
    split
    · rename_i hlt
      have hk := baseCacheBlocks_keeps h hbase
      obtain ⟨keys, hkeys⟩ := hashesOf_some
        (((m1.table r).take (m1.numCachedBlock.getD r 0)).drop (m.numCachedBlock.getD r 0))
        hk.good.ref.isNull_iff
        fun b hb hn => hgot hlt b hb (hk.shape.nullBlock ▸ hn)
      rw [hkeys]
      exact ⟨_, p1, rfl⟩
    · exact ⟨m1, p1, rfl⟩
  · exact ⟨m1, p1, hbase⟩

/-! ## New blocks -/

theorem not_mem_table (hocc : occurrences m.reqToBlocks b = 0) (r' : RequestId) :
    b ∉ m.table r' := by
  intro hb
  have h1 : 0 < (m.table r').count b := count_pos_iff.mpr hb
  have h2 := TableInv.count_le_occurrences m.reqToBlocks r' b
  unfold table at h1
  omega

variable (rest) in
/-- New blocks are in no table and have no hash. -/
theorem getNewBlocks_new {occ : BlockId → ℕ} (href : p.RefInv occ) (hh : p.HashInv)
    (hcaching : p.enableCaching = true) (hocc : ∀ b, occurrences m.reqToBlocks b + rest b ≤ occ b)
    (helse : ∀ b, elsewhere b → 1 ≤ rest b) (hget : p.getNewBlocks n = some (new, p')) :
    (∀ b ∈ new, (p'.block b).blockHash = none ∧ (∀ r', b ∉ m.table r') ∧ ¬ elsewhere b) ∧
      (∀ b, (p.block b).blockHash = none → (p'.block b).blockHash = none) ∧ p.SameShape p' := by
  obtain ⟨-, -, hfresh, -, -, hs, hhash⟩ := getNewBlocks_spec href hh hget
  refine ⟨fun b hb => ?_, fun b hb => ?_, hs⟩
  · have hzero := (hfresh b hb).2.2
    have hle := hocc b
    refine ⟨by rw [hhash, if_pos ⟨hcaching, hb⟩], not_mem_table (by omega), fun hels => ?_⟩
    have := helse b hels
    omega
  · rw [hhash]
    split
    · rfl
    · exact hb

/-- Open blocks once the blocks in front are marked as cached. -/
theorem openBlocks_placed (m : Manager) (r r' : RequestId) (blocks new : List BlockId) :
    (({ m with numCachedBlock := m.numCachedBlock.set r blocks.length } : Manager).setTable r
      (blocks ++ new)).openBlocks r' = if r' = r then new else m.openBlocks r' := by
  rw [openBlocks, table_setTable]
  show List.drop ((m.numCachedBlock.set r blocks.length).getD r' 0) _ = _
  by_cases hr : r' = r
  · rw [if_pos hr, if_pos hr, hr, Dict.getD, Dict.get?_set_self, getD_some,
      drop_left]
  · rw [if_neg hr, if_neg hr, Dict.getD, Dict.get?_set_of_ne _ _ hr]
    rfl

theorem addComputedBlocks_tidy {hits : List BlockId} {numLocal numExternal : ℕ}
    (h : m.Good p rest) (ht : m.Tidy p elsewhere) (hcaching : p.enableCaching = true)
    (helse : ∀ b, elsewhere b → 1 ≤ rest b) (hhits : Hits p hits)
    (hfit : 0 < numExternal → hits.length ≤ cdiv (numLocal + numExternal) m.blockSize)
    (he : m.addComputedBlocks r hits numLocal numExternal p = some (m', p')) :
    m'.Tidy p' elsewhere := by
  obtain ⟨p1, blocks, new, htouch, hblocks, rfl, hnew⟩ := addComputedBlocks_cases he
  obtain ⟨href, hs, hh⟩ := touchHits_spec h.ref (fun b hb => hhits.lt b (by
    rw [hitsInWindow_eq] at hb
    exact mem_of_mem_drop hb)) htouch
  rcases hnew with ⟨hext, hget⟩ | ⟨-, rfl, rfl⟩
  · have hlen : blocks.length ≤ cdiv (numLocal + numExternal) m.blockSize := by
      rw [hblocks, length_append, length_replicate]
      exact padded_le hfit hext
    rw [← Int.ofNat_sub hlen] at hget
    obtain ⟨hnew, hhash, hs2⟩ := getNewBlocks_new (m := m) rest href
      (h.hash.of_same hs hh) (hs.enableCaching.trans hcaching) (fun b => by omega) helse hget
    refine ht.open_new (r := r) (hs2.nullBlock.trans hs.nullBlock) _ (fun r' b hb _ => ?_) hnew
      fun b hb => hhash b ((hh.blockHash b).trans hb)
    rw [openBlocks_placed] at hb
    split at hb
    · rename_i hr
      exact .inr ⟨hr, hb⟩
    · exact .inl hb
  · refine ht.of_subset hs.nullBlock (fun r' b hb _ => ?_) fun b hb => (hh.blockHash b).trans hb
    rw [openBlocks_placed] at hb
    split at hb
    · cases hb
    · exact hb

theorem allocateNewComputedBlocks_tidy {hits : List BlockId} {numLocal numExternal : ℕ}
    (h : m.Good p rest) (ht : m.Tidy p elsewhere) (hcaching : p.enableCaching = true)
    (helse : ∀ b, elsewhere b → 1 ≤ rest b) (hhits : Hits p hits)
    (hfit : m.Fits r hits numLocal numExternal)
    (he : m.allocateNewComputedBlocks r hits numLocal numExternal p = some (m', p')) :
    m'.Tidy p' elsewhere := by
  rcases allocateNewComputedBlocks_cases he with ⟨-, -, rfl, rfl⟩ | ⟨hcross, hcached, -, he⟩
  · exact ht
  · exact addComputedBlocks_tidy h ht hcaching helse hhits (hfit hcross hcached) he

/-- Blocks behind a table are open. -/
theorem mem_openBlocks_append (hb : b ∈ (bs ++ new).drop k) : b ∈ bs.drop k ∨ b ∈ new := by
  rw [drop_append, mem_append] at hb
  exact hb.imp id mem_of_mem_drop

/-! ### The align mode -/

/-- Moving blocks from position `c` on to the end opens no block in front of it. -/
theorem moveLoop_open {k : ℤ} {c : ℕ} {i : ℤ} {bs' : List BlockId}
    (h : moveLoop null k n i bs = some bs') (hc : (c : ℤ) ≤ i) :
    ∀ b ∈ bs'.drop c, b ≠ null → b ∈ bs.drop c := by
  induction n generalizing i bs with
  | zero =>
    cases h
    exact fun _ hb _ => hb
  | succ n ih =>
    unfold moveLoop at h
    split at h
    · simp only [bind, bind_eq_some_iff] at h
      obtain ⟨j, hj, a, ha, h⟩ := h
      have hcj : c ≤ j := by
        rw [pyIndex, if_pos (by omega)] at hj
        obtain ⟨-, hj⟩ := ite_none_right_eq_some.mp hj
        cases hj
        omega
      intro b hb hn
      have hb := ih h (by omega) b hb hn
      obtain ⟨q, hq⟩ := mem_iff_getElem?.mp hb
      rw [getElem?_drop] at hq
      have hmem : ∀ l : ℕ, c ≤ l → bs[l]? = some b → b ∈ bs.drop c := by
        intro l hl hbl
        refine mem_of_getElem? (i := l - c) ?_
        rwa [getElem?_drop, Nat.add_sub_cancel' hl]
      obtain ⟨hjlt, -⟩ := List.getElem?_eq_some_iff.mp ha
      by_cases hqj : j = c + q
      · -- the old place holds the null block now
        rw [← hqj, getElem?_set_self (by simp; omega)] at hq
        exact absurd (Option.some.inj hq).symm hn
      · rw [getElem?_set_ne hqj] at hq
        rcases Nat.lt_or_ge (c + q) bs.length with hlt | hge
        · rw [getElem?_append_left hlt] at hq
          exact hmem _ (Nat.le_add_right _ _) hq
        · rw [getElem?_append_right hge] at hq
          obtain rfl : b = a := mem_singleton.mp (mem_of_getElem? hq)
          exact hmem j hcj ha
    · cases h
      exact fun _ hb _ => hb

theorem alignTable_open {required c : ℕ} {allocated : Bool} {moved : List BlockId}
    (hc : allocated = true → c + s ≤ bs.length)
    (he : alignTable null s required allocated bs = some moved) :
    ∀ b ∈ moved.drop c, b ≠ null → b ∈ bs.drop c := by
  simp only [alignTable] at he
  generalize hn : ((required : ℤ) - s - 1 - bs.length).toNat = n at he
  have hpad : ∀ b ∈ (bs ++ replicate n null).drop c, b ≠ null → b ∈ bs.drop c := by
    intro b hb hnull
    rcases mem_openBlocks_append hb with hb | hb
    · exact hb
    · exact absurd (mem_replicate.mp hb).2 hnull
  cases allocated with
  | false =>
    cases he
    exact hpad
  | true =>
    have hc := hc rfl
    intro b hb hnull
    exact hpad b (moveLoop_open he (by omega) b hb hnull) hnull

theorem AlignedAt.cached_le (h : m.AlignedAt s r) (hr : r ∈ m.allocatedBlockReqs) :
    m.numCachedBlock.getD r 0 + s ≤ (m.table r).length := by
  have halloc := h.allocated hr
  rw [Dict.getD]
  cases hget : m.numCachedBlock.get? r with
  | none =>
    rw [getD_none]
    omega
  | some n => exact h.cached n hget

theorem allocateNewBlocks_tidy (h : m.Good p rest) (ht : m.Tidy p elsewhere)
    (hcaching : p.enableCaching = true) (helse : ∀ b, elsewhere b → 1 ≤ rest b)
    (halloc : ∀ s, m.spec.kind = .mamba .align s → r ∈ m.allocatedBlockReqs →
      m.numCachedBlock.getD r 0 + s ≤ (m.table r).length)
    (he : m.allocateNewBlocks r n k p = some (new, m', p')) : m'.Tidy p' elsewhere := by
  obtain ⟨t, -, hg⟩ := allocateNewBlocks_grows he
  cases hg with
  | enough =>
    exact ht.of_subset rfl (fun r' _ hb _ => openBlocks_setTable_self m r r' ▸ hb) fun _ hb => hb
  | more idx reqs bs fresh k p' hidx hreqs hbs hk hget =>
    obtain ⟨hnew, hhash, hs⟩ := getNewBlocks_new (m := m) rest h.ref h.hash hcaching
      (fun _ => le_rfl) helse hget
    refine ht.open_new (r := r) hs.nullBlock _ (fun r' b hb hn => ?_) hnew hhash
    rw [openBlocks, table_setTable] at hb
    split at hb
    · rename_i hr
      subst hr
      rcases mem_openBlocks_append hb with hb | hb
      · rcases hbs with rfl | ⟨s, required, hkind, -, hmoved⟩
        · exact .inl hb
        · have hle := fun hdec => halloc s hkind (of_decide_eq_true hdec)
          exact .inl (alignTable_open hle hmoved b hb hn)
      · exact .inr ⟨rfl, hb⟩
    · exact .inl hb

end

end Manager

/-! ## All managers -/

namespace KVCacheManager

/-- The block is open for some request of some manager. -/
def OpenIn (ms : List Manager) (b : BlockId) : Prop := ∃ m ∈ ms, ∃ r, b ∈ m.openBlocks r

structure AllTidy (p : BlockPool) (ms : List Manager) (elsewhere : BlockId → Prop) : Prop where
  each : ∀ m ∈ ms, m.Tidy p elsewhere
  apart : ms.Pairwise fun m m' => ∀ r r' b, b ∈ m.openBlocks r → b ∈ m'.openBlocks r' →
    b = p.nullBlock
  elsewhere : ∀ b, elsewhere b → b ≠ p.nullBlock → (p.block b).blockHash = none

section

variable {m m' : Manager} {ms ms' : List Manager} {p p1 p' : BlockPool} {rest : BlockId → ℕ}
  {elsewhere : BlockId → Prop}

theorem references_pos {b : BlockId} (h : OpenIn ms b) : 1 ≤ references ms b := by
  obtain ⟨m, hm, r, hb⟩ := h
  have hocc := Manager.occurrences_pos_of_open hb
  have hsum : occurrences m.reqToBlocks b ≤ references ms b :=
    single_le_sum (by simp) _ (mem_map_of_mem hm)
  omega

theorem AllTidy.head (h : AllTidy p (m :: ms) elsewhere) :
    m.Tidy p fun b => elsewhere b ∨ OpenIn ms b := by
  have hm := h.each m mem_cons_self
  refine ⟨hm.unhashed, hm.alone, fun b hb hn => ?_⟩
  rcases hb with hb | ⟨m2, hm2, r2, hb⟩
  · exact hm.elsewhere b hb hn
  · refine ⟨(h.each m2 (mem_cons_of_mem _ hm2)).unhashed r2 b hb hn, fun r hr => hn ?_⟩
    exact (pairwise_cons.mp h.apart).1 m2 hm2 r r2 b hr hb

/-- After a method on the first manager its open blocks are elsewhere for the others. -/
theorem AllTidy.tail (h : AllTidy p (m :: ms) elsewhere) (hnull : p1.nullBlock = p.nullBlock)
    (ht : m'.Tidy p1 fun b => elsewhere b ∨ OpenIn ms b) :
    AllTidy p1 ms fun b => elsewhere b ∨ ∃ r, b ∈ m'.openBlocks r := by
  refine ⟨fun m2 hm2 => ⟨fun r b hb hn => ?_, ?_, fun b hb hn => ⟨?_, fun r hr => ?_⟩⟩, ?_,
    fun b hb hn => ?_⟩
  · exact (ht.elsewhere b (.inr ⟨m2, hm2, r, hb⟩) hn).1
  · rw [hnull]
    exact (h.each m2 (mem_cons_of_mem _ hm2)).alone
  · rcases hb with hb | ⟨r, hb⟩
    · exact (ht.elsewhere b (.inl hb) hn).1
    · exact ht.unhashed r b hb hn
  · rcases hb with hb | ⟨r', hb⟩
    · rw [hnull] at hn
      exact ((h.each m2 (mem_cons_of_mem _ hm2)).elsewhere b hb hn).2 r hr
    · exact (ht.elsewhere b (.inr ⟨m2, hm2, r, hr⟩) hn).2 r' hb
  · rw [hnull]
    exact (pairwise_cons.mp h.apart).2
  · rcases hb with hb | ⟨r, hb⟩
    · exact (ht.elsewhere b (.inl hb) hn).1
    · exact ht.unhashed r b hb hn

/-- The first manager joins the others again. -/
theorem AllTidy.cons (h : AllTidy p' ms' fun b => elsewhere b ∨ ∃ r, b ∈ m'.openBlocks r)
    (hnull : p'.nullBlock = p1.nullBlock)
    (ht : m'.Tidy p1 fun b => elsewhere b ∨ OpenIn ms b) : AllTidy p' (m' :: ms') elsewhere := by
  refine ⟨fun m2 hm2 => ?_, pairwise_cons.mpr ⟨fun m2 hm2 r r' b hb hb' => ?_, h.apart⟩,
    fun b hb hn => h.elsewhere b (.inl hb) hn⟩
  · rcases mem_cons.mp hm2 with rfl | hm2
    · refine ⟨fun r b hb hn => h.elsewhere b (.inr ⟨r, hb⟩) hn, ?_, fun b hb hn =>
        ⟨h.elsewhere b (.inl hb) hn, ?_⟩⟩
      · rw [hnull]
        exact ht.alone
      · rw [hnull] at hn
        exact (ht.elsewhere b (.inl hb) hn).2
    · have hm2 := h.each m2 hm2
      exact ⟨hm2.unhashed, hm2.alone, fun b hb hn => hm2.elsewhere b (.inl hb) hn⟩
  · by_contra hn
    exact ((h.each m2 hm2).elsewhere b (.inr ⟨r, hb⟩) hn).2 r' hb'

variable {R : Manager → BlockPool → Manager → BlockPool → Prop}

/-- **In turn.** If a method keeps each manager good and tidy, whatever is open elsewhere, then all
managers in turn stay tidy. -/
theorem InTurn.tidy (h : InTurn R ms p ms' p')
    (hR : ∀ m ∈ ms, ∀ m' p1 p2 rest, p.SameShape p1 → m.Good p1 rest → R m p1 m' p2 →
      m.Keeps m' p1 p2 rest)
    (hT : ∀ m ∈ ms, ∀ m' p1 p2 rest elsewhere, p.SameShape p1 → m.Good p1 rest →
      m.Tidy p1 elsewhere → (∀ b, elsewhere b → 1 ≤ rest b) → R m p1 m' p2 →
      m'.Tidy p2 elsewhere) (hgood : AllGood p ms rest)
    (htidy : AllTidy p ms elsewhere) (helse : ∀ b, elsewhere b → 1 ≤ rest b) :
    AllTidy p' ms' elsewhere := by
  induction h generalizing rest elsewhere with
  | nil p => exact htidy
  | @cons m m' ms ms' p p1 p' hm hms ih =>
    have hk := hR m mem_cons_self m' p p1 _ (.refl p) hgood.head hm
    have ht := hT m mem_cons_self m' p p1 _ _ (.refl p) hgood.head htidy.head
      (fun b hb => by
        rcases hb with hb | hb
        · have := helse b hb
          omega
        · have := references_pos hb
          omega) hm
    have hrest := fun m2 hm2 m2' p2 p3 rest hs =>
      hR m2 (mem_cons_of_mem _ hm2) m2' p2 p3 rest (hk.shape.trans hs)
    have hshape := (hms.keeps (S := fun _ _ => True) (fun m2 hm2 m2' p2 p3 rest hs hg h2 =>
      ⟨hrest m2 hm2 m2' p2 p3 rest hs hg h2, trivial⟩) (hgood.tail hk)).1.1
    refine (ih hrest (fun m2 hm2 m2' p2 p3 rest elsewhere hs => hT m2 (mem_cons_of_mem _ hm2)
      m2' p2 p3 rest elsewhere (hk.shape.trans hs)) (hgood.tail hk)
      (htidy.tail hk.shape.nullBlock ht) fun b hb => ?_).cons hshape.nullBlock ht
    rcases hb with hb | ⟨r, hb⟩
    · have := helse b hb
      omega
    · have := Manager.occurrences_pos_of_open hb
      omega

end

end KVCacheManager

end Nvllm.KVCache
