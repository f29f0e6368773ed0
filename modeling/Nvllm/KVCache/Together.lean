import Nvllm.KVCache.Accounting
import Nvllm.KVCache.HitShares

/-! # Blocks in all groups or in none

A request is given blocks in all groups by the same call, and `free` takes them all back. So a
request without blocks in one group has none in any other, as long as every call of
`allocate_slots` asks for at least one token. Cross attention is the exception: it has blocks only
for encoder tokens.
-/

namespace Nvllm.KVCache

open BlockPool Nvllm.Run List Option

namespace Manager

section

variable {m m' : Manager} {p p' : BlockPool} {r : RequestId} {rest : BlockId → ℕ}

/-- Tables change in no way but that blocks are replaced. -/
structure SameLengths (m m' : Manager) : Prop where
  spec : m'.spec = m.spec
  length : ∀ r, (m'.table r).length = (m.table r).length
  allocated : m'.allocatedBlockReqs = m.allocatedBlockReqs

theorem SameLengths.refl (m : Manager) : m.SameLengths m := ⟨rfl, fun _ => rfl, rfl⟩

theorem SameLengths.trans {m1 m2 m3 : Manager} (h : m1.SameLengths m2) (h' : m2.SameLengths m3) :
    m1.SameLengths m3 :=
  ⟨h'.1.trans h.1, fun r => (h'.2 r).trans (h.2 r), h'.3.trans h.3⟩

theorem sameLengths_setTable {bs : List BlockId} (h : bs.length = (m.table r).length) :
    m.SameLengths (m.setTable r bs) := by
  refine ⟨rfl, fun r' => ?_, rfl⟩
  rw [table_setTable]
  split
  · rename_i hr
    rw [hr, h]
  · rfl

variable {n : ℕ} {new : List BlockId}

theorem Drops.lengths (h : Drops r m p m' p') : m.SameLengths m' := by
  cases h with
  | none => exact .refl m
  | some removed bs p' hperm hmem hlen hfree => exact sameLengths_setTable hlen

theorem removeSkippedBlocks_lengths (he : m.removeSkippedBlocks r n p = some (m', p')) :
    m.SameLengths m' := by
  obtain ⟨m1, p1, hd, hd'⟩ := removeSkippedBlocks_drops he
  exact hd.lengths.trans hd'.lengths

theorem cacheBlocks_lengths {hashes : List Bytes}
    (he : m.cacheBlocks r hashes n p = some (m', p')) : m.SameLengths m' := by
  obtain ⟨m1, keys, hbase, rfl⟩ := cacheBlocks_base he
  rcases baseCacheBlocks_cases hbase with ⟨rfl, -, -⟩ | ⟨-, rfl, -⟩
  · exact ⟨rfl, fun _ => rfl, rfl⟩
  · exact ⟨rfl, (sameLengths_setTable rfl).length, rfl⟩

theorem free_tables (he : m.free r p = some (m', p')) :
    (∀ r', m'.table r' = if r' = r then [] else m.table r') ∧ m'.spec = m.spec ∧
      ∀ r', r' ∈ m'.allocatedBlockReqs →
        r' ∈ m.allocatedBlockReqs ∧ (m.isAlign = true → r' ≠ r) := by
  have herase : ∀ r', (m.reqToBlocks.erase r).getD r' [] =
      if r' = r then [] else m.table r' := by
    intro r'
    rw [Dict.getD, Dict.get?_erase]
    split <;> rfl
  simp only [free, bind, bind_eq_some_iff] at he
  obtain ⟨p1, -, he⟩ := he
  cases he
  unfold isAlign
  split
  · refine ⟨herase, rfl, fun r' hr' => ?_⟩
    have := mem_filter.mp hr'
    exact ⟨this.1, fun _ => by simpa using this.2⟩
  · rename_i hkind
    refine ⟨herase, rfl, fun r' hr' => ⟨hr', fun halign => ?_⟩⟩
    split at halign
    · rename_i mode s hmode
      obtain rfl : mode = .align := by simpa using halign
      exact absurd hmode (hkind s)
    · cases halign

/-- New blocks for at least one token leave a table that is not empty. -/
theorem allocateNewBlocks_ne_nil {l : ℕ} (h : m.Good p rest)
    (he : m.allocateNewBlocks r n l p = some (new, m', p')) (hn : 0 < n) (hl : 0 < l) :
    m'.table r ≠ [] := by
  obtain ⟨t, ht, hg⟩ := allocateNewBlocks_grows he
  cases hg with
  | enough hne =>
    rw [table_setTable, if_pos rfl]
    exact hne (ht hn hl)
  | more idx reqs bs fresh k p' hidx hreqs hbs hk hget =>
    intro hnil
    have hlen := (getNewBlocks_spec h.ref h.hash hget).1
    rw [table_setTable, if_pos rfl] at hnil
    rw [(append_eq_nil_iff.mp hnil).2, length_nil] at hlen
    omega

end

end Manager

namespace KVCacheManager

/-- Request `r` has blocks in all groups or in none, cross attention apart, and a manager that
remembers speculative blocks of `r` has a table for it. -/
structure TogetherAt (ms : List Manager) (r : RequestId) : Prop where
  tables : ∀ m ∈ ms, ∀ m' ∈ ms, m'.spec.isCross = false → m'.table r = [] → m.table r = []
  allocated : ∀ m ∈ ms, m.isAlign = true → r ∈ m.allocatedBlockReqs → m.table r ≠ []

def Together (k : KVCacheManager) : Prop := ∀ r, TogetherAt k.managers r

section

variable {ms ms' : List Manager} {r r' : RequestId}

theorem TogetherAt.of_rel (h : TogetherAt ms r)
    (hall : Forall₂ (fun m m' => Manager.spec m' = m.spec ∧
      (m'.table r).length = (m.table r).length ∧
      (r ∈ m'.allocatedBlockReqs ↔ r ∈ m.allocatedBlockReqs)) ms ms') : TogetherAt ms' r := by
  -- each manager afterwards comes from one before
  have hback : ∀ m' ∈ ms', ∃ m ∈ ms, m'.spec = m.spec ∧ (m'.table r = [] ↔ m.table r = []) ∧
      (r ∈ m'.allocatedBlockReqs ↔ r ∈ m.allocatedBlockReqs) := by
    intro m' hm'
    obtain ⟨i, hi⟩ := mem_iff_getElem?.mp hm'
    obtain ⟨m, hm, hspec, hlen, halloc⟩ := forall₂_getElem? hall.flip hi
    refine ⟨m, mem_of_getElem? hm, hspec, ?_, halloc⟩
    rw [← length_eq_zero_iff, ← length_eq_zero_iff, hlen]
  constructor
  · intro m1 hm1 m2 hm2 hcross hnil
    obtain ⟨m1', hm1', -, htable1, -⟩ := hback m1 hm1
    obtain ⟨m2', hm2', hspec2, htable2, -⟩ := hback m2 hm2
    exact htable1.mpr (h.tables m1' hm1' m2' hm2' (hspec2 ▸ hcross) (htable2.mp hnil))
  · intro m hm halign hmem hnil
    obtain ⟨m', hm', hspec, htable, halloc⟩ := hback m hm
    refine h.allocated m' hm' ?_ (halloc.mp hmem) (htable.mp hnil)
    rw [Manager.isAlign, ← hspec]
    exact halign

theorem TogetherAt.of_lengths (h : TogetherAt ms r)
    (hall : Forall₂ Manager.SameLengths ms ms') : TogetherAt ms' r :=
  h.of_rel (hall.imp fun _ _ hm => ⟨hm.spec, hm.length r, by rw [hm.allocated]⟩)

theorem TogetherAt.of_only (h : TogetherAt ms r') (hr : r' ≠ r)
    (hall : Forall₂ (Manager.Only r) ms ms') : TogetherAt ms' r' :=
  h.of_rel (hall.imp fun _ _ hm =>
    ⟨hm.config.spec, by rw [hm.table r' hr], hm.allocated r' hr⟩)

/-- A request with blocks in all groups. -/
theorem togetherAt_of_tables (h : ∀ m ∈ ms, m.spec.isCross = false → m.table r ≠ []) :
    TogetherAt ms r := by
  refine ⟨fun m _ m' hm' hcross hnil => absurd hnil (h m' hm' hcross), fun m hm halign _ => ?_⟩
  apply h m hm
  unfold Manager.isAlign at halign
  unfold KVCacheSpec.isCross
  split at halign
  · rename_i hkind
    rw [hkind]
  · cases halign

end

/-! ## The methods -/

variable {k k' : KVCacheManager}

variable {n : ℕ} {r : RequestId} {hits : List (List BlockId)}

theorem removeSkippedBlocks_lengths (he : k.removeSkippedBlocks r n = some k') :
    Forall₂ Manager.SameLengths k.managers k'.managers :=
  onManagers_rel he fun _ _ _ _ hm => Manager.removeSkippedBlocks_lengths hm

theorem commitBlocks_lengths {r : KVRequest} (he : k.commitBlocks r n = some k') :
    Forall₂ Manager.SameLengths k.managers k'.managers :=
  onManagers_rel he fun _ _ _ _ hm => Manager.cacheBlocks_lengths hm

theorem free_together (h : k.Together) (he : k.free r = some k') : k'.Together := by
  have hall := onManagers_rel he fun _ _ _ _ hm => Manager.free_tables hm
  intro r'
  constructor
  · intro m1 hm1 m2 hm2 hcross hnil
    obtain ⟨m1', hm1', htable1, -, -⟩ := forall₂_mem_right hall hm1
    obtain ⟨m2', hm2', htable2, hspec2, -⟩ := forall₂_mem_right hall hm2
    rw [htable1]
    rw [htable2] at hnil
    split
    · rfl
    · rename_i hr
      rw [if_neg hr] at hnil
      exact (h r').tables m1' hm1' m2' hm2' (hspec2 ▸ hcross) hnil
  · intro m' hm' halign hmem
    obtain ⟨m, hm, htable, hspec, halloc⟩ := forall₂_mem_right hall hm'
    have halign' : m.isAlign = true := by
      rw [Manager.isAlign, ← hspec]
      exact halign
    obtain ⟨hmem', hne⟩ := halloc r' hmem
    rw [htable, if_neg (hne halign')]
    exact (h r').allocated m hm halign' hmem'

theorem addComputed_only {numLocal numExternal : ℕ}
    (he : k.addComputed r hits numLocal numExternal = some k') :
    Forall₂ (Manager.Only r) k.managers k'.managers := by
  unfold addComputed at he
  split at he
  · simp only [allocateNewComputedBlocks, bind, bind_eq_some_iff] at he
    obtain ⟨⟨ms, p⟩, hms, he⟩ := he
    cases he
    exact (forManagersHits_inTurn (R := fun m _ m' _ => m.Only r m') hms fun _ _ _ _ _ _ hm =>
      Manager.allocateNewComputedBlocks_only hm).forall₂ fun _ _ _ _ hm => hm
  · cases he
    exact forall₂_same.mpr fun m _ => .refl m

theorem allocateLoop_only {l e : ℕ} {ms ms' : List Manager} {news : List (List BlockId)}
    {p p' : BlockPool} {rest : BlockId → ℕ} (h : AllGood p ms rest)
    (he : allocateLoop r n l e ms p = some (news, ms', p')) :
    Forall₂ (fun m m' => Manager.Only r m m' ∧
      (m.spec.isCross = false → 0 < n → 0 < l → m'.table r ≠ [])) ms ms' := by
  refine ((allocateLoop_inTurn he).keeps (fun m _ m' p1 p2 rest _ hgood hR => ?_) h).2
  obtain ⟨new, hm⟩ := hR
  obtain ⟨t, -, hg⟩ := Manager.allocateNewBlocks_grows hm
  refine ⟨Manager.allocateNewBlocks_keeps hgood hm, hg.only, fun hcross hn hl =>
    Manager.allocateNewBlocks_ne_nil hgood hm ?_ hl⟩
  rw [if_neg (by simp [hcross])]
  exact hn

/-- The counts of a call of `allocate_slots` are not negative. -/
structure Proper (k : KVCacheManager) (r : KVRequest) (a : SlotArgs) : Prop where
  maxModelLen : 0 < k.maxModelLen
  numComputedTokens : 0 ≤ r.numComputedTokens
  numNewTokens : 0 ≤ a.numNewTokens

theorem onManagers_maxModelLen {f : Manager → BlockPool → Option (Manager × BlockPool)}
    (he : k.onManagers f = some k') : k'.maxModelLen = k.maxModelLen := by
  obtain ⟨ms, p, rfl, -⟩ := onManagers_inTurn he
  rfl

theorem grow_together {r : KVRequest} {news : List (List BlockId)} {a : SlotArgs} (h : k.Inv)
    (hhits : ∀ hs ∈ hits, Manager.Hits k.pool hs)
    (hfit : k.HitsFit r.requestId hits (r.numComputedTokens + n).toNat
      a.numExternalComputedTokens) (hproper : k.Proper r a)
    (hask : ¬ (a.numNewTokens = 0 ∧ a.numExternalComputedTokens = 0))
    (hother : ∀ r', r' ≠ r.requestId → TogetherAt k.managers r')
    (he : k.grow r n hits a = some (news, k')) : k'.Together := by
  obtain ⟨k1, k2, _, _, _, hk1, hk2, rfl, rfl, he⟩ := grow_cases he
  have htouch1 := addComputed_only hk1
  simp only [allocateNewBlocks, bind, bind_eq_some_iff] at hk2
  obtain ⟨⟨news2, ms2, p2⟩, hms2, hk2⟩ := hk2
  cases hk2
  have htouch2 := allocateLoop_only (addComputed_inv h hhits hfit hk1) hms2
  -- a call asks for at least one token, so that every group needs a block
  obtain ⟨hmax, hcomp, hnew⟩ := hproper
  have htables : ∀ m ∈ ms2, m.spec.isCross = false → m.table r.requestId ≠ [] := by
    intro m2 hm2 hcross
    obtain ⟨m1, -, htouch, hpos⟩ := forall₂_mem_right htouch2 hm2
    exact hpos (htouch.config.spec ▸ hcross) (by omega) (by omega)
  have htogether : ∀ r', TogetherAt ms2 r' := by
    intro r'
    by_cases hr : r' = r.requestId
    · exact hr ▸ togetherAt_of_tables htables
    · exact ((hother r' hr).of_only hr htouch1).of_only hr (htouch2.imp fun _ _ hm => hm.1)
  rcases he with rfl | hk3
  · exact htogether
  · exact fun r' => (htogether r').of_lengths (commitBlocks_lengths hk3)

theorem allocateSlots_together {r : KVRequest} {a : SlotArgs} {res : Option (List (List BlockId))}
    (h : k.Inv) (ht : k.Together) (hhits : ∀ hs ∈ hits, Manager.Hits k.pool hs)
    (hfit : k.HitsFit r.requestId hits (r.numComputedTokens + n).toNat
      a.numExternalComputedTokens) (hproper : k.Proper r a)
    (he : k.allocateSlots r n hits a = some (res, k')) : k'.Together := by
  obtain ⟨hask, k1, total, hk1, he⟩ := allocateSlots_cases he
  obtain ⟨h1, hs, hsame⟩ := removeSkippedBlocks_inv h hk1
  have ht1 : k1.Together := fun r' => (ht r').of_lengths (removeSkippedBlocks_lengths hk1)
  rcases he with ⟨-, rfl⟩ | ⟨news, -, hk2⟩
  · exact ht1
  · refine grow_together h1 (fun hs' hmem => (hhits hs' hmem).of_shape hs)
      (fits_of_same hsame hfit) ?_ hask (fun r' _ => ht1 r') hk2
    exact ⟨(onManagers_maxModelLen hk1).symm ▸ hproper.1, hproper.2, hproper.3⟩

/-! ## Runs -/

/-- The hits of the call fit and its counts are not negative. -/
def CallProper (k : KVCacheManager) (c : Call) : Prop :=
  k.CallFits c ∧ ∀ r withHits a, c = .allocateSlots r withHits a → k.Proper r a

theorem step_together {c : Call} (h : k.Inv) (ht : k.Together) (hc : k.CallProper c)
    (he : k.step c = some k') : k'.Together := by
  obtain ⟨hfits, hproper⟩ := hc
  cases c with
  | allocateSlots r withHits a =>
    simp only [step, bind, bind_eq_some_iff] at he
    obtain ⟨⟨hits, n⟩, hhits, ⟨res, k1⟩, hslots, he⟩ := he
    cases he
    exact allocateSlots_together h ht (hitsFor_ok h hhits) (hfits hits n hhits)
      (hproper r withHits a rfl) hslots
  | free r => exact free_together ht he
  | cacheBlocks r n =>
    change k.cacheBlocks r n = some k' at he
    unfold cacheBlocks at he
    split at he
    · exact fun r' => (ht r').of_lengths (commitBlocks_lengths he)
    · cases he
      exact ht
  | removeSkippedBlocks r n =>
    exact fun r' => (ht r').of_lengths (removeSkippedBlocks_lengths he)
  | evictBlocks bs =>
    change k.evictBlocks bs = some k' at he
    simp only [evictBlocks, bind, bind_eq_some_iff] at he
    obtain ⟨p, -, he⟩ := he
    cases he
    exact ht
  | resetPrefixCache =>
    cases he
    exact ht
  | newStepStarts =>
    cases he
    refine fun r' => (ht r').of_lengths ?_
    show Forall₂ Manager.SameLengths k.managers (k.managers.map Manager.newStepStarts)
    rw [List.forall₂_map_right_iff]
    exact forall₂_same.mpr fun m _ => ⟨rfl, fun _ => rfl, rfl⟩

theorem init_together {c : KVCacheConfig} (h : init c = some k) : k.Together := by
  unfold init at h
  split at h
  · simp only [bind, bind_eq_some_iff] at h
    obtain ⟨p, -, h⟩ := h
    cases h
    intro r
    constructor
    · intro m hm _ _ _ _
      obtain ⟨i, -, rfl⟩ := mem_mapIdx.mp hm
      rfl
    · intro m hm _ hmem
      have hnone : m.allocatedBlockReqs = [] := by
        obtain ⟨i, -, rfl⟩ := mem_mapIdx.mp hm
        rfl
      rw [hnone] at hmem
      cases hmem
  · cases h

/-- **Over runs** the accounting is right and every request has blocks in all groups or in none. -/
theorem sound_of_run {c : KVCacheConfig} {k0 : KVCacheManager} (h0 : init c = some k0)
    (h : Reach step CallProper k0 k) : k.Inv ∧ k.Together :=
  h.invariant (fun k => k.Inv ∧ k.Together) ⟨init_inv h0, init_together h0⟩
    fun _ _ _ hi hc he => ⟨step_inv hi.1 hc.1 he, step_together hi.1 hi.2 hc he⟩

end KVCacheManager

end Nvllm.KVCache
