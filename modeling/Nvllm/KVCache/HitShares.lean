import Nvllm.KVCache.FreeQueue
import Nvllm.KVCache.HitShape

/-! # The share of each group in the free queue

`allocate_slots` hands the hits of a request to one group after the other. A group first touches
its own hits and then takes new blocks for external tokens from the front of the free queue, so it
has a claim on that queue. Here each manager's part in a call of `allocate_slots` is described for
a request that has no blocks yet: what it finds, what it claims, and what its table holds then.
-/

namespace Nvllm.KVCache

open BlockPool Nvllm.Reserve List

theorem forall₂_getElem? {α β : Type} {R : α → β → Prop} {l : List α} {l' : List β}
    (h : Forall₂ R l l') {i : ℕ} {a : α} (hi : l[i]? = some a) :
    ∃ b, l'[i]? = some b ∧ R a b := by
  induction h generalizing i with
  | nil => simp at hi
  | cons hab _ ih =>
    cases i with
    | zero =>
      cases hi
      exact ⟨_, rfl, hab⟩
    | succ i => exact ih hi

theorem forall₂_mem_right {α β : Type} {R : α → β → Prop} {l : List α} {l' : List β}
    (h : Forall₂ R l l') {b : β} (hb : b ∈ l') : ∃ a ∈ l, R a b := by
  obtain ⟨i, hi⟩ := mem_iff_getElem?.mp hb
  obtain ⟨a, ha, hab⟩ := forall₂_getElem? h.flip hi
  exact ⟨a, mem_of_getElem? ha, hab⟩

/-- A relation to a third list moves along. -/
theorem forall₂_transfer {α β γ : Type} {R : α → β → Prop} {P : α → γ → Prop} {Q : β → γ → Prop}
    {l : List α} {l' : List β} {c : List γ} (h : Forall₂ R l l') (hp : Forall₂ P l c)
    (hpq : ∀ a b x, R a b → P a x → Q b x) : Forall₂ Q l' c := by
  induction h generalizing c with
  | nil =>
    cases hp
    exact .nil
  | cons hab _ ih =>
    cases hp with
    | cons hax hp => exact .cons (hpq _ _ _ hab hax) (ih hp)

theorem forall₂_trans {α : Type} {R : α → α → Prop} (hR : ∀ a b c, R a b → R b c → R a c)
    {l l' l'' : List α} (h : Forall₂ R l l') (h' : Forall₂ R l' l'') :
    Forall₂ R l l'' := by
  induction h generalizing l'' with
  | nil => exact h'
  | cons hab _ ih =>
    cases h' with
    | cons hbc h' => exact .cons (hR _ _ _ hab hbc) (ih h')

/-! ## The hash of a hit names its group -/

namespace KVCacheManager

theorem onManagers_rel {f : Manager → BlockPool → Option (Manager × BlockPool)}
    {R : Manager → Manager → Prop} {k k' : KVCacheManager} (he : k.onManagers f = some k')
    (hf : ∀ m m' p p', f m p = some (m', p') → R m m') : Forall₂ R k.managers k'.managers := by
  obtain ⟨ms, p, rfl, hturn⟩ := onManagers_inTurn he
  exact hturn.forall₂ hf

/-- The lists that `get_computed_blocks` returns: the hash of a proper block names its group. -/
theorem getComputedBlocks_grouped {k : KVCacheManager} (h : k.pool.HashInv) {r : KVRequest} {n : ℕ}
    {hits : List (List BlockId)} (he : k.getComputedBlocks r = some (hits, n)) {i : ℕ}
    {hs : List BlockId} (hi : hits[i]? = some hs) :
    ∀ b ∈ hs, b ≠ k.pool.nullBlock → ∃ hash, (k.pool.block b).blockHash = some ⟨hash, i⟩ := by
  refine (getComputedBlocks_have (P := fun i hs => ∀ b ∈ hs, b ≠ k.pool.nullBlock →
    ∃ hash, (k.pool.block b).blockHash = some ⟨hash, i⟩) ⟨?_, ?_, ?_⟩ he).2 i hs hi
  · exact fun i b hb => absurd hb not_mem_nil
  · exact fun i hs n h b hb => h b (mem_of_mem_take hb)
  · intro ids hashes rows hrows _ n g hg b hb hnull
    obtain ⟨i, hi⟩ := mem_iff_getElem?.mp hb
    obtain ⟨hash, g', -, hg', hkey⟩ := hrows.column_hash h hi hnull
    obtain rfl : g = g' := Option.some.inj (hg.symm.trans hg')
    exact ⟨hash, hkey⟩

end KVCacheManager

/-! ## What one group takes from the free queue -/

/-- The pool has served a claim from its queue `as`. -/
structure BlockPool.Served (as : List BlockId) (c : Claim BlockId) (p p' : BlockPool) : Prop where
  queued : p'.Queued (c.rest as)
  shape : p.SameShape p'
  hash : ∀ b, b ∉ (c.share as).fresh → (p'.block b).blockHash = (p.block b).blockHash

namespace Manager

/-- Cross attention has no hits, and a request that is followed already gets no more of them. -/
def takesHits (m : Manager) (r : RequestId) : Bool :=
  !m.spec.isCross && !m.numCachedBlock.contains r

/-- The hits inside the window by name, and as many blocks as the external tokens still need. -/
def claim (m : Manager) (r : RequestId) (hits : List BlockId) (numLocal numExternal : ℕ) :
    Claim BlockId :=
  let total := numLocal + numExternal
  let named := m.hitsInWindow total hits
  if m.takesHits r then
    { named
      fresh :=
        if 0 < m.externalInWindow total numExternal then
          cdiv total m.blockSize - ((m.numSkippedBlocks total).toNat + named.length)
        else 0 }
  else ⟨[], 0⟩

/-- The mode in which the manager remembers the requests with speculative blocks. -/
def isAlign (m : Manager) : Bool :=
  match m.spec.kind with
  | .mamba mode _ => decide (mode = .align)
  | _ => false

section

variable {m m' : Manager} {p p' : BlockPool} {r : RequestId} {as hs : List BlockId}

/-- The table of `r` holds the share `s` of the group with its hits at their positions; nothing
else that matters later has changed. -/
structure Placed (null : BlockId) (r : RequestId) (hs : List BlockId) (total : ℕ)
    (s : Share BlockId) (m m' : Manager) : Prop where
  config : m.SameConfig m'
  others : ∀ r', r' ≠ r → m'.table r' = m.table r'
  allocated : m'.allocatedBlockReqs = m.allocatedBlockReqs
  position : ∀ (j : ℕ) (b : BlockId), (m.numSkippedBlocks total).toNat ≤ j → hs[j]? = some b →
    (m'.table r)[j]? = some b
  mem_named : ∀ b, b ∈ s.named ↔ ∃ j, (m.numSkippedBlocks total).toNat ≤ j ∧ hs[j]? = some b
  mem_table : ∀ b, b ≠ null → (b ∈ m'.table r ↔ b ∈ s.named ∨ b ∈ s.fresh)

variable {b null : BlockId} {total n : ℕ} {new : List BlockId}

theorem mem_hitsInWindow :
    b ∈ m.hitsInWindow total hs ↔ ∃ j, (m.numSkippedBlocks total).toNat ≤ j ∧ hs[j]? = some b := by
  rw [hitsInWindow_eq, mem_drop_iff]

theorem touchHits_queued (h : p.Queued as) (hlt : ∀ b ∈ hs, b < p.numGpuBlocks)
    (he : m.touchHits hs p = some p') :
    p'.Queued (without as hs) ∧ p.SameShape p' ∧ p.SameHashes p' := by
  unfold touchHits at he
  split at he
  · obtain ⟨hqueued, hs', hh, -⟩ := h.touch hlt he
    exact ⟨hqueued, hs', hh⟩
  · obtain ⟨rfl, he⟩ := Option.ite_none_right_eq_some.mp he
    cases he
    exact ⟨by rwa [without_nil], .refl _, .refl _⟩

/-- The padding and the hits keep every hit inside the window at its position. -/
theorem getElem?_padded {j : ℕ} (tail : List BlockId) (hle : (m.numSkippedBlocks total).toNat ≤ j)
    (hj : hs[j]? = some b) :
    (replicate (m.numSkippedBlocks total).toNat null ++ m.hitsInWindow total hs ++ tail)[j]? =
      some b := by
  rw [hitsInWindow_eq, append_assoc, getElem?_append_right (by simpa using hle),
    length_replicate]
  have hdrop : (hs.drop (m.numSkippedBlocks total).toNat)[j - (m.numSkippedBlocks total).toNat]? =
      some b := by
    rwa [getElem?_drop, Nat.add_sub_cancel' hle]
  rw [getElem?_append_left (List.getElem?_eq_some_iff.mp hdrop).1]
  exact hdrop

theorem mem_padded (tail : List BlockId) (hb : b ≠ null) :
    b ∈ replicate n null ++ m.hitsInWindow total hs ++ tail ↔
      b ∈ m.hitsInWindow total hs ∨ b ∈ tail := by
  simp [mem_replicate, hb]

theorem addComputedBlocks_placed {numLocal numExternal : ℕ} (h : p.Queued as)
    (hlt : ∀ b ∈ hs, b < p.numGpuBlocks) (htakes : m.takesHits r = true)
    (he : m.addComputedBlocks r hs numLocal numExternal p = some (m', p')) :
    m.Placed p.nullBlock r hs (numLocal + numExternal)
        ((m.claim r hs numLocal numExternal).share as) m' ∧
      BlockPool.Served as (m.claim r hs numLocal numExternal) p p' := by
  obtain ⟨p1, blocks, new, htouch, hblocks, rfl, hnew⟩ := addComputedBlocks_cases he
  obtain ⟨h1, hs1, hh1⟩ := touchHits_queued h (fun b hb => by
    obtain ⟨j, -, hj⟩ := mem_hitsInWindow.mp hb
    exact hlt b (mem_of_getElem? hj)) htouch
  have hnamed : ((m.claim r hs numLocal numExternal).share as).named =
      m.hitsInWindow (numLocal + numExternal) hs := by
    simp only [claim, htakes, if_true, Claim.share]
  obtain ⟨hfresh, hserved⟩ : new = ((m.claim r hs numLocal numExternal).share as).fresh ∧
      BlockPool.Served as (m.claim r hs numLocal numExternal) p p' := by
    simp only [claim, htakes, if_true, Claim.share]
    rcases hnew with ⟨hext, hget⟩ | ⟨hext, rfl, rfl⟩
    · rw [if_pos hext]
      obtain ⟨hnew, h2, hs2, hh2⟩ := h1.getNewBlocks hget
      simp only [hblocks, length_append, length_replicate, Int.toNat_sub] at hnew h2
      exact ⟨hnew, h2, hs1.trans hs2, fun b hb => by rw [hh2 b (hnew ▸ hb), hh1.blockHash]⟩
    · rw [if_neg hext]
      exact ⟨rfl, h1, hs1, fun b _ => hh1.blockHash b⟩
  refine ⟨⟨⟨rfl, rfl, rfl, rfl⟩, fun r' hr' => ?_, rfl, fun j b hle hj => ?_,
    fun b => hnamed ▸ mem_hitsInWindow, fun b hb => ?_⟩, hserved⟩
  · rw [table_setTable, if_neg hr']
    rfl
  · rw [table_setTable, if_pos rfl, hblocks]
    exact getElem?_padded new hle hj
  · rw [table_setTable, if_pos rfl, hblocks, hs1.nullBlock, mem_padded new hb, hnamed, hfresh]

/-- **One group.** A request without table gets the share that its claim has in the queue. -/
theorem allocateNewComputedBlocks_placed {numLocal numExternal : ℕ} (h : p.Queued as)
    (hlt : ∀ b ∈ hs, b < p.numGpuBlocks) (hempty : m.table r = [])
    (he : m.allocateNewComputedBlocks r hs numLocal numExternal p = some (m', p')) :
    m.Placed p.nullBlock r hs (numLocal + numExternal)
        ((m.claim r hs numLocal numExternal).share as) m' ∧
      BlockPool.Served as (m.claim r hs numLocal numExternal) p p' := by
  rcases allocateNewComputedBlocks_cases he with ⟨rfl, hnot, rfl, rfl⟩ | ⟨hcross, hcached, -, he⟩
  · have htakes : m'.takesHits r = false := by
      rcases hnot with hnot | hnot <;> simp [takesHits, hnot]
    have hclaim : m'.claim r [] numLocal numExternal = ⟨[], 0⟩ := by simp [claim, htakes]
    rw [hclaim]
    refine ⟨⟨.refl _, fun _ _ => rfl, rfl, fun j b _ hj => by simp at hj, fun b => ?_,
      fun b _ => ?_⟩, ?_, .refl _, fun _ _ => rfl⟩
    · simp [Claim.share]
    · simp [Claim.share, hempty]
    · simpa [Claim.rest, without_nil] using h
  · exact addComputedBlocks_placed h hlt (by simp [takesHits, hcross, hcached]) he

/-! ### New blocks and hashes -/

/-- The table of `r` got longer by null blocks and blocks of the queue `as`. -/
structure Extended (null : BlockId) (as : List BlockId) (r : RequestId) (m m' : Manager) :
    Prop where
  others : ∀ r', r' ≠ r → m'.table r' = m.table r'
  table : ∃ ext, m'.table r = m.table r ++ ext ∧ ∀ b ∈ ext, b = null ∨ b ∈ as

/-- The pool has handed out nothing but blocks of its queue `as`. -/
structure Popped (as : List BlockId) (p p' : BlockPool) : Prop where
  queued : ∃ as', p'.Queued as' ∧ as' ⊆ as
  shape : p.SameShape p'
  hash : ∀ b, b ∉ as → (p'.block b).blockHash = (p.block b).blockHash

theorem getNewBlocks_popped {n : ℤ} (h : p.Queued as)
    (he : p.getNewBlocks n = some (new, p')) : new ⊆ as ∧ Popped as p p' := by
  obtain ⟨rfl, hqueued, hs, hh⟩ := h.getNewBlocks he
  have hsub : as.take n.toNat ⊆ as := take_subset _ _
  exact ⟨hsub, ⟨_, hqueued, drop_subset _ _⟩, hs, fun b hb => hh b fun hmem => hb (hsub hmem)⟩

theorem extended_setTable {ext : List BlockId} (hm : ∀ r', m'.table r' = m.table r')
    (hext : ∀ b ∈ ext, b = null ∨ b ∈ as) :
    m.Extended null as r (m'.setTable r (m.table r ++ ext)) := by
  constructor
  · intro r' hr'
    rw [table_setTable, if_neg hr', hm]
  · exact ⟨ext, by rw [table_setTable, if_pos rfl], hext⟩

theorem extended_self (h : p.Queued as) :
    m.Extended p.nullBlock as r (m.setTable r (m.table r)) ∧ Popped as p p := by
  refine ⟨?_, ⟨as, h, Subset.refl _⟩, .refl _, fun _ _ => rfl⟩
  simpa using extended_setTable (m := m) (r := r) (fun _ => rfl)
    (fun b (hb : b ∈ ([] : List BlockId)) => absurd hb not_mem_nil)

/-- **New blocks** go behind the computed ones. -/
theorem allocateNewBlocks_extended {k : ℕ} (h : p.Queued as)
    (hnot : m.isAlign = true → r ∉ m.allocatedBlockReqs)
    (he : m.allocateNewBlocks r n k p = some (new, m', p')) :
    m.Extended p.nullBlock as r m' ∧ Popped as p p' := by
  obtain ⟨t, -, hg⟩ := allocateNewBlocks_grows he
  cases hg with
  | enough => exact extended_self h
  | more idx reqs bs fresh k p' hidx hreqs hbs hk hget =>
    obtain ⟨hsub, hpopped⟩ := getNewBlocks_popped h hget
    -- without speculative blocks of an earlier step the table is only padded
    obtain ⟨j, rfl⟩ : ∃ j, bs = m.table r ++ replicate j p.nullBlock := by
      rcases hbs with rfl | ⟨s, required, hkind, -, hmoved⟩
      · exact ⟨0, by simp⟩
      · simp only [alignTable, hnot (by simp [isAlign, hkind]), decide_false,
          Bool.false_eq_true, if_false, Option.some.injEq] at hmoved
        exact ⟨_, hmoved.symm⟩
    refine ⟨?_, hpopped⟩
    rw [append_assoc]
    refine extended_setTable (fun _ => rfl) fun b hb => ?_
    rcases mem_append.mp hb with hb | hb
    · exact .inl (mem_replicate.mp hb).2
    · exact .inr (hsub hb)

/-- **Caching** changes no table, and a block that has a hash keeps it. -/
theorem cacheBlocks_tables {hashes : List Bytes} (he : m.cacheBlocks r hashes n p = some (m', p')) :
    (∀ r', m'.table r' = m.table r') ∧ ∀ c, (p.block c).blockHash ≠ none →
      (p'.block c).blockHash = (p.block c).blockHash := by
  obtain ⟨m1, keys, hbase, rfl⟩ := cacheBlocks_base he
  rcases baseCacheBlocks_cases hbase with ⟨rfl, rfl, -⟩ | ⟨-, rfl, hcache⟩
  · exact ⟨fun _ => rfl, fun _ _ => rfl⟩
  · exact ⟨table_setTable_of_eq rfl, (cacheFullBlocks_keeps hcache).2⟩

/-! ### Skipped blocks of a request without blocks -/

/-- Nothing that `allocate_new_computed_blocks` reads has changed. -/
structure Kept (m m' : Manager) : Prop where
  config : m.SameConfig m'
  tables : ∀ r, m'.table r = m.table r
  numCachedBlock : m'.numCachedBlock = m.numCachedBlock
  allocated : m'.allocatedBlockReqs = m.allocatedBlockReqs

theorem Kept.refl (m : Manager) : m.Kept m := ⟨.refl m, fun _ => rfl, rfl, rfl⟩

theorem Drops.kept (hd : Drops r m p m' p') (hempty : m.table r = []) : m.Kept m' ∧ p' = p := by
  cases hd with
  | none => exact ⟨.refl m, rfl⟩
  | some removed bs p' hperm hmem hlen hfree =>
    rw [hempty, length_nil, length_eq_zero_iff] at hlen
    subst hlen
    rw [hempty] at hperm
    obtain rfl : removed = [] := (append_eq_nil_iff.mp hperm.nil_eq.symm).1
    cases hfree
    exact ⟨⟨⟨rfl, rfl, rfl, rfl⟩, table_setTable_of_eq hempty.symm, rfl, rfl⟩, rfl⟩

theorem removeSkippedBlocks_of_empty (hempty : m.table r = [])
    (he : m.removeSkippedBlocks r n p = some (m', p')) : m.Kept m' ∧ p' = p := by
  obtain ⟨m1, p1, hd, hd'⟩ := removeSkippedBlocks_drops he
  obtain ⟨hkept, rfl⟩ := hd.kept hempty
  obtain ⟨hkept', rfl⟩ := hd'.kept ((hkept.tables r).trans hempty)
  exact ⟨⟨hkept.config.trans hkept'.config, fun r => (hkept'.tables r).trans (hkept.tables r),
    hkept'.numCachedBlock.trans hkept.numCachedBlock, hkept'.allocated.trans hkept.allocated⟩, rfl⟩

end

end Manager

end Nvllm.KVCache
