import Nvllm.Offload.CpuManager

/-! # Who owns the blocks of CPU memory

Over every run of permitted calls, a block id is in the free list or held by the policy, and in one
place only; the counter of a block is the number of its pending loads, or `-1` while its store is
pending; and the blocks of pending transfers keep their hash and their id. So no call raises:
`ownership_of_permitted`.

The invariant is `Owned`. Each loop of the manager changes one block at a time, so that the cases
of `assign`, `insert` and `remove` are proved for one block and the loops follow by induction.
-/

namespace Nvllm.Offload

open Nvllm.Run Option

variable {H : Type} [DecidableEq H]

/-- What is not taken out is found as before. -/
theorem CachePolicy.Ok.get_kept {p q : CachePolicy H} {es : List (H × BlockStatus)} {k : H}
    (hq : q.Ok) (hes : q.entries.Perm (es ++ p.entries)) (hk : k ∉ es.map Prod.fst) :
    p.get k = q.get k := by
  rw [hq.get_eq hes, Dict.lookup_append, Dict.lookup_eq_none hk, none_or, get_eq_lookup]

namespace Tracked

/-! ## Pending transfers -/

/-- The block ids of the transfers of a hash. -/
def idsOf (pending : List (H × ℕ)) (h : H) : List ℕ :=
  (pending.filter fun j => j.1 = h).map Prod.snd

section

variable {h k : H} {pending : List (H × ℕ)} {hs : List H}

theorem length_idsOf : (idsOf pending h).length = pendingCount pending h := by
  rw [idsOf, List.length_map, pendingCount, List.countP_eq_length_filter]

theorem mem_idsOf {i : ℕ} : i ∈ idsOf pending h ↔ (h, i) ∈ pending := by
  simp [idsOf]

theorem idsOf_cons (j : H × ℕ) :
    idsOf (j :: pending) k = if j.1 = k then j.2 :: idsOf pending k else idsOf pending k := by
  by_cases hj : j.1 = k <;> simp [idsOf, hj]

theorem idsOf_append (as bs : List (H × ℕ)) : idsOf (as ++ bs) k = idsOf as k ++ idsOf bs k := by
  rw [idsOf, List.filter_append, List.map_append]
  rfl

theorem idsOf_snoc (j : H × ℕ) :
    idsOf (pending ++ [j]) k = idsOf pending k ++ if j.1 = k then [j.2] else [] := by
  rw [idsOf_append, idsOf_cons]
  rfl

theorem idsOf_eraseP : idsOf (pending.eraseP fun j => j.1 = h) k =
    if k = h then (idsOf pending k).tail else idsOf pending k := by
  induction pending with
  | nil => exact (ite_self _).symm
  | cons j js ih =>
    by_cases hj : j.1 = h
    · rw [List.eraseP_cons_of_pos (by simpa using hj), idsOf_cons, hj]
      by_cases hk : k = h
      · rw [if_pos hk, if_pos hk.symm, List.tail_cons]
      · rw [if_neg hk, if_neg (Ne.symm hk)]
    · rw [List.eraseP_cons_of_neg (by simpa using hj), idsOf_cons, ih, idsOf_cons]
      by_cases hk : k = h
      · rw [if_pos hk, if_pos hk, hk, if_neg hj, if_neg hj]
      · rw [if_neg hk, if_neg hk]

/-- New transfers of distinct hashes. -/
theorem idsOf_map {es : List (H × BlockStatus)} (hnd : (es.map Prod.fst).Nodup) :
    idsOf (es.map fun e => (e.1, e.2.blockId)) k =
      ((Dict.lookup k es).map BlockStatus.blockId).toList := by
  induction es with
  | nil => rfl
  | cons e es ih =>
    rw [List.map_cons, List.nodup_cons] at hnd
    rw [List.map_cons, idsOf_cons, ih hnd.2, Dict.lookup]
    by_cases he : e.1 = k
    · rw [if_pos he, if_pos he, Dict.lookup_eq_none (he ▸ hnd.1)]
      rfl
    · rw [if_neg he, if_neg he]

/-- The first of several completions matches a transfer, and the others match the rest. -/
theorem match_cons (hmatch : ∀ k ∈ h :: hs, (h :: hs).count k ≤ pendingCount pending k) :
    idsOf pending h ≠ [] ∧
      ∀ k ∈ hs, hs.count k ≤ pendingCount (pending.eraseP fun j => j.1 = h) k := by
  constructor
  · intro hnil
    have hpos := hmatch h List.mem_cons_self
    rw [List.count_cons_self, ← length_idsOf, hnil] at hpos
    exact absurd hpos (Nat.not_succ_le_zero _)
  · intro k hk
    have hk1 := hmatch k (List.mem_cons_of_mem _ hk)
    rw [← length_idsOf] at hk1 ⊢
    rw [idsOf_eraseP]
    by_cases hkh : k = h
    · rw [if_pos hkh, List.length_tail]
      rw [hkh, List.count_cons_self] at hk1
      rw [hkh]
      omega
    · rw [if_neg hkh]
      rwa [List.count_cons_of_ne (Ne.symm hkh)] at hk1

end

/-! ## The transfers of one hash -/

/-- The pending transfers of a hash fit its block. They were told its id; the counter is the number
of its loads, or `-1` while its store, which then is the only transfer, is pending. -/
structure Fits (block : Option BlockStatus) (loads stores : List ℕ) : Prop where
  counted : ∀ b, block = some b → b.refCnt = if stores = [] then (loads.length : ℤ) else -1
  held : ∀ i, i ∈ loads ∨ i ∈ stores → block.map BlockStatus.blockId = some i
  apart : stores = [] ∨ (loads = [] ∧ ∃ i, stores = [i])
  bounded : loads.length < 2 ^ 31

section

variable {b : BlockStatus} {loads stores : List ℕ}

theorem Fits.none : Fits none [] [] where
  counted _ hb := by cases hb
  held i hi := by simp at hi
  apart := .inl rfl
  bounded := by decide

theorem Fits.eq_nil (hf : Fits Option.none loads stores) : loads = [] ∧ stores = [] := by
  constructor <;> refine List.eq_nil_iff_forall_not_mem.mpr fun i hi => ?_
  · cases hf.held i (.inl hi)
  · cases hf.held i (.inr hi)

theorem Fits.stores_nil (hf : Fits (some b) loads stores) (hl : loads ≠ []) : stores = [] :=
  hf.apart.resolve_right fun h => hl h.1

/-- A block is ready if and only if its store is not pending. -/
theorem Fits.isReady_iff (hf : Fits (some b) loads stores) : b.isReady = true ↔ stores = [] := by
  rw [BlockStatus.isReady, decide_eq_true_eq, hf.counted b rfl]
  by_cases hs : stores = [] <;> simp [hs]

/-- The block of a hash whose store is not pending counts its loads. -/
theorem Fits.refCnt_eq (hf : Fits (some b) loads []) : b.refCnt = loads.length :=
  hf.counted b rfl

/-- One more load of a block. -/
theorem Fits.addLoad (hf : Fits (some b) loads []) (hlt : loads.length + 1 < 2 ^ 31) :
    Fits (some (b.setRefCnt (b.refCnt + 1))) (loads ++ [b.blockId]) [] := by
  have hcnt := hf.refCnt_eq
  refine ⟨?_, fun i hi => ?_, .inl rfl, by rwa [List.length_append, List.length_singleton]⟩
  · rintro _ ⟨⟩
    rw [if_pos rfl, BlockStatus.refCnt_setRefCnt _ (by omega) (by omega), hcnt, List.length_append]
    rfl
  · rcases hi with hi | hi
    · rcases List.mem_append.mp hi with hi | hi
      · exact hf.held i (.inl hi)
      · rw [List.mem_singleton.mp hi]
        rfl
    · exact hf.held i (.inr hi)

/-- One load of a block is done. -/
theorem Fits.endLoad (hf : Fits (some b) loads []) (hl : loads ≠ []) :
    Fits (some (b.setRefCnt (b.refCnt - 1))) loads.tail [] := by
  have hcnt := hf.refCnt_eq
  have hlt := hf.bounded
  have hpos := List.length_pos_iff.mpr hl
  refine ⟨?_, fun i hi => hf.held i (hi.imp_left List.mem_of_mem_tail), .inl rfl, ?_⟩
  · rintro _ ⟨⟩
    rw [if_pos rfl, BlockStatus.refCnt_setRefCnt _ (by omega) (by omega), List.length_tail]
    omega
  · rw [List.length_tail]
    omega

theorem Fits.storing (hf : Fits (some b) loads stores) (hs : stores ≠ []) :
    loads = [] ∧ stores.tail = [] := by
  obtain ⟨rfl, i, rfl⟩ := hf.apart.resolve_left hs
  exact ⟨rfl, rfl⟩

/-- A store succeeded. -/
theorem Fits.endStore (b : BlockStatus) : Fits (some (b.setRefCnt 0)) [] [] where
  counted := by
    rintro _ ⟨⟩
    exact BlockStatus.refCnt_setRefCnt b (le_refl _) (by decide)
  held i hi := by simp at hi
  apart := .inl rfl
  bounded := by decide

/-- A block that nobody reads has no transfers. -/
theorem Fits.idle (hf : Fits (some b) loads stores) (h0 : b.refCnt = 0) :
    loads = [] ∧ stores = [] := by
  have hcnt := hf.counted b rfl
  rw [h0] at hcnt
  split at hcnt
  · exact ⟨List.eq_nil_of_length_eq_zero (by omega), ‹_›⟩
  · cases hcnt

/-- A new block waits for its store. -/
theorem Fits.new (hb : b.refCnt = -1) : Fits (some b) [] [b.blockId] where
  counted := by
    rintro _ ⟨⟩
    exact hb
  held i hi := by simpa [eq_comm] using hi
  apart := .inr ⟨rfl, _, rfl⟩
  bounded := by decide

end

variable {h : H} {hs : List H} {b : BlockStatus} {t : Tracked H} {es : List (H × BlockStatus)}
  {p : CachePolicy H} {m : CPUOffloadingManager H}

/-! ## The invariant -/

/-- **The invariant of the manager with its pending transfers.** -/
structure Owned (t : Tracked H) : Prop where
  ok : t.m.policy.Ok
  /-- every id below the counter is in one place -/
  ids : (t.m.freeList ++ t.m.policy.entries.map fun e => e.2.blockId).Perm
    (List.range t.m.numAllocatedBlocks)
  allocated : t.m.numAllocatedBlocks ≤ t.m.numBlocks
  fits : ∀ h, Fits (t.m.policy.get h) (idsOf t.loads h) (idsOf t.stores h)

theorem Owned.fits_some (ho : t.Owned) (hb : t.m.policy.get h = some b) :
    Fits (some b) (idsOf t.loads h) (idsOf t.stores h) := hb ▸ ho.fits h

theorem Owned.exists_block (ho : t.Owned) (hp : idsOf t.loads h ≠ [] ∨ idsOf t.stores h ≠ []) :
    ∃ b, t.m.policy.get h = some b := by
  have hf := ho.fits h
  cases hg : t.m.policy.get h with
  | none =>
    rw [hg] at hf
    exact absurd hf.eq_nil (not_and_or.mpr hp)
  | some b => exact ⟨b, rfl⟩

theorem owned_init (name : PolicyName) (numBlocks : ℕ) :
    (init name numBlocks : Tracked H).Owned := by
  have hentries : (init name numBlocks : Tracked H).m.policy.entries = [] := by
    cases name <;> rfl
  refine ⟨?_, ?_, Nat.zero_le _, fun h => ?_⟩
  · rw [CachePolicy.Ok, hentries]
    exact List.nodup_nil
  · rw [hentries]
    exact .refl _
  · rw [CachePolicy.get_eq_lookup, hentries]
    exact .none

/-- One block gets another counter, and its transfers change. -/
theorem Owned.assign (ho : t.Owned) {b' : BlockStatus} (hb : t.m.policy.get h = some b)
    (hid : b'.blockId = b.blockId) {loads stores : List (H × ℕ)}
    (hothers : ∀ k, k ≠ h → idsOf loads k = idsOf t.loads k ∧ idsOf stores k = idsOf t.stores k)
    (hfits : Fits (some b') (idsOf loads h) (idsOf stores h)) :
    Owned ⟨{ t.m with policy := t.m.policy.assign h b' }, loads, stores⟩ := by
  refine ⟨ho.ok.assign hb b', ?_, ho.allocated, fun k => ?_⟩
  · -- the ids are the same, in the order of the policy
    obtain ⟨es, hes, hes'⟩ := CachePolicy.perm_assign hb b'
    refine List.Perm.trans (List.Perm.append_left _ ?_) ho.ids
    have hsame := (hes'.map fun e => e.2.blockId).trans
      (List.Perm.of_eq (by rw [List.map_cons, List.map_cons, hid]) |>.trans
        (hes.map fun e => e.2.blockId).symm)
    exact hsame
  · rw [ho.ok.get_assign hb]
    by_cases hk : k = h
    · rw [if_pos hk, hk]
      exact hfits
    · rw [if_neg hk, (hothers k hk).1, (hothers k hk).2]
      exact ho.fits k

/-! ## Loads -/

theorem prepareLoad_owned (ho : t.Owned)
    (hready : ∀ h ∈ hs, (t.m.policy.get h).isSome ∧ idsOf t.stores h = [])
    (hbound : ∀ h ∈ hs, pendingCount t.loads h + hs.count h < 2 ^ 31) :
    ∃ ids m, CPUOffloadingManager.prepareLoad hs t.m = some (ids, m) ∧
      Owned ⟨m, t.loads ++ hs.zip ids, t.stores⟩ := by
  induction hs generalizing t with
  | nil =>
    refine ⟨[], t.m, rfl, ?_⟩
    rw [List.zip_nil_left, List.append_nil]
    exact ho
  | cons h hs ih =>
    obtain ⟨hsome, hns⟩ := hready h List.mem_cons_self
    obtain ⟨b, hb⟩ := isSome_iff_exists.mp hsome
    have hfits := ho.fits_some hb
    have hr : b.isReady = true := hfits.isReady_iff.mpr hns
    rw [hns] at hfits
    have ho' : Owned ⟨{ t.m with policy := t.m.policy.assign h (b.setRefCnt (b.refCnt + 1)) },
        t.loads ++ [(h, b.blockId)], t.stores⟩ := by
      refine ho.assign hb (b.blockId_setRefCnt _) (fun k hk => ⟨?_, rfl⟩) ?_
      · rw [idsOf_snoc, if_neg (Ne.symm hk), List.append_nil]
      · rw [idsOf_snoc, if_pos rfl, hns]
        refine hfits.addLoad ?_
        have hb1 := hbound h List.mem_cons_self
        rw [List.count_cons_self] at hb1
        rw [length_idsOf]
        omega
    have hready' : ∀ k ∈ hs, ((t.m.policy.assign h (b.setRefCnt (b.refCnt + 1))).get k).isSome ∧
        idsOf t.stores k = [] := by
      intro k hk
      obtain ⟨hk1, hk2⟩ := hready k (List.mem_cons_of_mem _ hk)
      refine ⟨?_, hk2⟩
      rw [ho.ok.get_assign hb]
      split
      · rfl
      · exact hk1
    have hbound' : ∀ k ∈ hs,
        pendingCount (t.loads ++ [(h, b.blockId)]) k + hs.count k < 2 ^ 31 := by
      intro k hk
      have hk1 := hbound k (List.mem_cons_of_mem _ hk)
      rw [← length_idsOf] at hk1 ⊢
      rw [idsOf_snoc, List.length_append]
      by_cases hhk : h = k
      · rw [hhk, List.count_cons_self] at hk1
        rw [if_pos hhk, List.length_singleton]
        omega
      · rw [List.count_cons_of_ne hhk] at hk1
        rwa [if_neg hhk]
    obtain ⟨ids, m, hm, hown⟩ := ih ho' hready' hbound'
    refine ⟨b.blockId :: ids, m, ?_, ?_⟩
    · simp only [CPUOffloadingManager.prepareLoad, hb, bind_eq_bind, bind_some,
        hr, if_true]
      rw [hm]
      rfl
    · rw [List.append_assoc, List.singleton_append] at hown
      exact hown

theorem completeLoad_owned (ho : t.Owned) (hmatch : ∀ h ∈ hs, hs.count h ≤ pendingCount t.loads h) :
    ∃ m, CPUOffloadingManager.completeLoad hs t.m = some m ∧
      Owned ⟨m, settle t.loads hs, t.stores⟩ := by
  induction hs generalizing t with
  | nil => exact ⟨t.m, rfl, ho⟩
  | cons h hs ih =>
    obtain ⟨hne, hmatch'⟩ := match_cons hmatch
    obtain ⟨b, hb⟩ := ho.exists_block (.inl hne)
    have hfits := ho.fits_some hb
    have hns := hfits.stores_nil hne
    rw [hns] at hfits
    have ho' : Owned ⟨{ t.m with policy := t.m.policy.assign h (b.setRefCnt (b.refCnt - 1)) },
        t.loads.eraseP fun j => j.1 = h, t.stores⟩ := by
      refine ho.assign hb (b.blockId_setRefCnt _) (fun k hk => ⟨?_, rfl⟩) ?_
      · rw [idsOf_eraseP, if_neg hk]
      · rw [idsOf_eraseP, if_pos rfl, hns]
        exact hfits.endLoad hne
    obtain ⟨m, hm, hown⟩ := ih ho' hmatch'
    refine ⟨m, ?_, hown⟩
    have hr : 0 < b.refCnt := by
      have hpos := List.length_pos_iff.mpr hne
      rw [hfits.refCnt_eq]
      omega
    simp only [CPUOffloadingManager.completeLoad, hb, bind_eq_bind, bind_some,
      if_pos hr]
    exact hm

/-! ## Completed stores -/

/-- Blocks that no transfer uses go to the free list. -/
theorem Owned.release (ho : t.Owned) (hes : t.m.policy.entries.Perm (es ++ p.entries))
    {stores : List (H × ℕ)}
    (hkept : ∀ k, k ∉ es.map Prod.fst → idsOf stores k = idsOf t.stores k)
    (hfree : ∀ e ∈ es, idsOf t.loads e.1 = [] ∧ idsOf stores e.1 = []) :
    Owned ⟨{ t.m with policy := p, freeList := t.m.freeList ++ es.map fun e => e.2.blockId },
      t.loads, stores⟩ := by
  have hkeys := (hes.map Prod.fst).nodup_iff.mp ho.ok
  rw [List.map_append] at hkeys
  refine ⟨hkeys.of_append_right, ?_, ho.allocated, fun k => ?_⟩
  · rw [List.append_assoc, ← List.map_append]
    exact ((hes.symm.map _).append_left _).trans ho.ids
  · by_cases hk : k ∈ es.map Prod.fst
    · have hnone : p.get k = none :=
        CachePolicy.get_eq_none_iff.mpr fun hk' => List.disjoint_of_nodup_append hkeys hk hk'
      obtain ⟨e, he, rfl⟩ := List.mem_map.mp hk
      rw [hnone, (hfree e he).1, (hfree e he).2]
      exact .none
    · rw [ho.ok.get_kept hes hk, hkept k hk]
      exact ho.fits k

theorem completeOne_owned (ho : t.Owned) (hs : idsOf t.stores h ≠ []) (success : Bool) :
    ∃ m, t.m.completeOne h success = some m ∧
      Owned ⟨m, t.loads, t.stores.eraseP fun j => j.1 = h⟩ := by
  obtain ⟨b, hb⟩ := ho.exists_block (.inr hs)
  have hfits := ho.fits_some hb
  obtain ⟨hloads, htail⟩ := hfits.storing hs
  have hnil : idsOf (t.stores.eraseP fun j => j.1 = h) h = [] := by
    rw [idsOf_eraseP, if_pos rfl, htail]
  have hr : ¬ b.isReady = true := fun hr => hs (hfits.isReady_iff.mp hr)
  rw [CPUOffloadingManager.completeOne, hb]
  dsimp only
  rw [if_neg hr]
  cases success with
  | true =>
    refine ⟨_, rfl, ho.assign hb (b.blockId_setRefCnt _) (fun k hk => ⟨rfl, ?_⟩) ?_⟩
    · rw [idsOf_eraseP, if_neg hk]
    · rw [hloads, hnil]
      exact .endStore b
  | false =>
    obtain ⟨p, hp, hperm⟩ := CachePolicy.remove_eq hb
    have hes : t.m.policy.entries.Perm ([(h, b)] ++ p.entries) := hperm
    refine ⟨_, ?_, ho.release hes (fun k hk => ?_) fun e he => ?_⟩
    · rw [if_neg Bool.false_ne_true, hp]
      rfl
    · have hne : k ≠ h := by simpa using hk
      rw [idsOf_eraseP, if_neg hne]
    · rw [List.mem_singleton.mp he]
      exact ⟨hloads, hnil⟩

theorem completeStore_owned (ho : t.Owned) (hmatch : ∀ h ∈ hs, hs.count h ≤ pendingCount t.stores h)
    (success : Bool) :
    ∃ m, CPUOffloadingManager.completeStore success hs t.m = some m ∧
      Owned ⟨m, t.loads, settle t.stores hs⟩ := by
  induction hs generalizing t with
  | nil => exact ⟨t.m, rfl, ho⟩
  | cons h hs ih =>
    obtain ⟨hne, hmatch'⟩ := match_cons hmatch
    obtain ⟨m1, hm1, ho'⟩ := completeOne_owned ho hne success
    obtain ⟨m, hm, hown⟩ := ih ho' hmatch'
    refine ⟨m, ?_, hown⟩
    rw [CPUOffloadingManager.completeStore, hm1]
    exact hm

/-! ## New stores -/

open CPUOffloadingManager

omit [DecidableEq H] in
/-- Allocation takes `numFresh` new ids and the others from the free list. -/
theorem allocateBlocks_spec (hs : List H) (hle : m.numAllocatedBlocks ≤ m.numBlocks)
    (hroom : (hs.length : ℤ) ≤ m.getNumFreeBlocks) :
    ∃ (blocks : List BlockStatus) (m' : CPUOffloadingManager H) (numFresh : ℕ),
      m.allocateBlocks hs = some (blocks, m') ∧ blocks.length = hs.length ∧
      (∀ b ∈ blocks, b.refCnt = -1) ∧ m'.policy = m.policy ∧
      m'.numAllocatedBlocks = m.numAllocatedBlocks + numFresh ∧
      m'.numAllocatedBlocks ≤ m'.numBlocks ∧
      (blocks.map BlockStatus.blockId ++ m'.freeList).Perm
        (List.range' m.numAllocatedBlocks numFresh ++ m.freeList) := by
  rw [getNumFreeBlocks] at hroom
  let numFresh := min hs.length (m.numBlocks - m.numAllocatedBlocks)
  have hreused : hs.length - numFresh ≤ m.freeList.length := by omega
  refine ⟨_, _, numFresh, if_pos hreused, ?_, ?_, rfl, rfl, ?_, ?_⟩
  · rw [List.length_map, List.length_append, List.length_range', List.length_take,
      List.length_reverse]
    omega
  · intro b hb
    obtain ⟨i, -, rfl⟩ := List.mem_map.mp hb
    rfl
  · show m.numAllocatedBlocks + numFresh ≤ m.numBlocks
    omega
  · -- the reused ids and the rest are the free list
    have hfree : (m.freeList.reverse.take (hs.length - numFresh) ++
        (m.freeList.reverse.drop (hs.length - numFresh)).reverse).Perm m.freeList := by
      refine ((List.reverse_perm _).append_left _).trans ?_
      rw [List.take_append_drop]
      exact List.reverse_perm _
    rw [List.map_map]
    show (List.map id _ ++ _).Perm _
    rw [List.map_id, List.append_assoc]
    exact hfree.append_left _

theorem perm_insertAll (hp : p.Ok) (hnd : (es.map Prod.fst).Nodup)
    (hnew : ∀ h ∈ es.map Prod.fst, p.get h = none) :
    (insertAll es p).entries.Perm (es ++ p.entries) ∧ (insertAll es p).Ok := by
  induction es generalizing p with
  | nil => exact ⟨.refl _, hp⟩
  | cons e es ih =>
    rw [List.map_cons, List.nodup_cons] at hnd
    have hperm := CachePolicy.perm_insert (hnew e.1 List.mem_cons_self) e.2
    have hok := hp.insert (hnew e.1 List.mem_cons_self) e.2
    have hnew' : ∀ h ∈ es.map Prod.fst, (p.insert e.1 e.2).get h = none := by
      intro h hh
      have hne : e.1 ≠ h := fun heq => hnd.1 (heq ▸ hh)
      rw [hok.get_eq hperm, Dict.lookup, if_neg hne, ← CachePolicy.get_eq_lookup]
      exact hnew h (List.mem_cons_of_mem _ hh)
    obtain ⟨hall, hok'⟩ := ih hok hnd.2 hnew'
    exact ⟨hall.trans ((hperm.append_left es).trans List.perm_middle), hok'⟩

/-- Blocks for hashes that are not stored enter the policy, and their stores are pending. -/
theorem Owned.insertAll (ho : t.Owned) (hpol : m.policy = t.m.policy)
    (hnd : (es.map Prod.fst).Nodup) (hnew : ∀ h ∈ es.map Prod.fst, t.m.policy.get h = none)
    (hinit : ∀ e ∈ es, e.2.refCnt = -1) (hle : m.numAllocatedBlocks ≤ m.numBlocks)
    (hids : ((es.map fun e => e.2.blockId) ++
      (m.freeList ++ t.m.policy.entries.map fun e => e.2.blockId)).Perm
      (List.range m.numAllocatedBlocks)) :
    Owned ⟨{ m with policy := CPUOffloadingManager.insertAll es m.policy }, t.loads,
      t.stores ++ es.map fun e => (e.1, e.2.blockId)⟩ := by
  rw [hpol]
  obtain ⟨hperm, hok⟩ := perm_insertAll ho.ok hnd hnew
  have hget (k : H) : (CPUOffloadingManager.insertAll es t.m.policy).get k =
      (Dict.lookup k es).or (t.m.policy.get k) := by
    rw [hok.get_eq hperm, Dict.lookup_append, CachePolicy.get_eq_lookup]
  refine ⟨hok, ?_, hle, fun k => ?_⟩
  · refine ((hperm.map _).append_left _).trans ?_
    rw [List.map_append, ← List.append_assoc]
    refine (List.perm_append_comm.append_right _).trans ?_
    rw [List.append_assoc]
    exact hids
  · rw [hget, idsOf_append, idsOf_map hnd]
    cases hl : Dict.lookup k es with
    | none => simpa using ho.fits k
    | some b =>
      have hmem : (k, b) ∈ es := Dict.mem_of_get? (d := ⟨es, hnd⟩) hl
      have hfits := ho.fits k
      rw [hnew k (List.mem_map_of_mem hmem)] at hfits
      rw [hfits.eq_nil.1, hfits.eq_nil.2]
      exact .new (hinit _ hmem)

theorem storeBlocks_owned (ho : t.Owned) (hnd : hs.Nodup) (hnew : ∀ h ∈ hs, t.m.policy.get h = none)
    (hroom : (hs.length : ℤ) ≤ t.m.getNumFreeBlocks) (evicted : List H) :
    ∃ out m, t.m.storeBlocks hs evicted = some (out, m) ∧
      Owned ⟨m, t.loads, t.stores ++ out.blockHashesToStore.zip out.storeSpec⟩ ∧
      ∀ k, k ∈ hs ∨ (t.m.policy.get k).isSome → (m.policy.get k).isSome := by
  obtain ⟨blocks, m, numFresh, hm, hlen, hinit, hpol, halloc, hle, hids⟩ :=
    allocateBlocks_spec hs ho.allocated hroom
  have hkeys : (hs.zip blocks).map Prod.fst = hs := List.map_fst_zip hlen.ge
  have hvals : (hs.zip blocks).map (fun e => e.2.blockId) = blocks.map BlockStatus.blockId := by
    have hsnd : (hs.zip blocks).map Prod.snd = blocks := List.map_snd_zip hlen.le
    rw [← congrArg (List.map BlockStatus.blockId) hsnd, List.map_map]
    rfl
  have hspec : hs.zip (blocks.map BlockStatus.blockId) =
      (hs.zip blocks).map fun e => (e.1, e.2.blockId) := by
    rw [List.zip_map_right]
    rfl
  have hall : ((hs.zip blocks).map (fun e => e.2.blockId) ++
      (m.freeList ++ t.m.policy.entries.map fun e => e.2.blockId)).Perm
      (List.range m.numAllocatedBlocks) := by
    rw [hvals, ← List.append_assoc]
    refine (hids.append_right _).trans ?_
    rw [List.append_assoc]
    refine (ho.ids.append_left _).trans (List.perm_append_comm.trans (List.Perm.of_eq ?_))
    rw [halloc, List.range_eq_range', List.range_eq_range', ← List.range'_append_1, Nat.zero_add]
  have hown := ho.insertAll hpol (hkeys.symm ▸ hnd) (fun h hh => hnew h (hkeys ▸ hh))
    (fun e he => hinit e.2 (List.of_mem_zip he).2) hle hall
  refine ⟨⟨hs, blocks.map BlockStatus.blockId, evicted⟩,
    { m with policy := CPUOffloadingManager.insertAll (hs.zip blocks) m.policy }, ?_, ?_, ?_⟩
  · rw [storeBlocks, hm]
    simp only [bind_eq_bind, bind_some, if_pos hlen]
    rfl
  · rw [hspec]
    exact hown
  · intro k hk
    rw [hpol]
    obtain ⟨hperm, hok⟩ := perm_insertAll ho.ok (hkeys.symm ▸ hnd)
      (fun h hh => hnew h (hkeys ▸ hh))
    have hmem : k ∈ (hs.zip blocks ++ t.m.policy.entries).map Prod.fst := by
      rw [List.map_append, hkeys, List.mem_append]
      refine hk.imp id fun hs => ?_
      obtain ⟨b, hb⟩ := isSome_iff_exists.mp hs
      exact List.mem_map_of_mem (CachePolicy.mem_of_get hb)
    rw [← ne_none_iff_isSome]
    intro hn
    exact CachePolicy.get_eq_none_iff.mp hn ((hperm.map Prod.fst).mem_iff.mpr hmem)

/-- The blocks of pending transfers are not evicted. -/
theorem Owned.evict (ho : t.Owned) {n : ℕ} {excluded : List H} {evicted : List (H × BlockStatus)}
    (he : t.m.policy.evict n excluded = some (evicted, p)) :
    Owned ⟨{ t.m with policy := p, freeList := t.m.freeList ++ evicted.map fun e => e.2.blockId },
      t.loads, t.stores⟩ := by
  obtain ⟨hperm, -, hidle⟩ := CachePolicy.evict_spec he
  refine ho.release hperm (fun _ _ => rfl) fun e hmem => ?_
  have hb := ho.ok.get_of_mem (hperm.mem_iff.mpr (List.mem_append_left _ hmem))
  exact (ho.fits_some hb).idle (hidle e hmem).1

/-- **`prepare_store`** does not raise; without a result it changes nothing, and with one all its
hashes are stored. -/
theorem prepareStore_owned (ho : t.Owned) (hnd : hs.Nodup) :
    ∃ out m, t.m.prepareStore hs = some (out, m) ∧
      Owned ⟨m, t.loads, t.stores ++ (out.elim [] fun o => o.blockHashesToStore.zip o.storeSpec)⟩ ∧
      (out = none → m = t.m) ∧ (out.isSome → ∀ h ∈ hs, (m.policy.get h).isSome) := by
  rw [prepareStore]
  set toStore := hs.filter fun h => (t.m.policy.get h).isNone with hto
  have hnd' : toStore.Nodup := hnd.filter _
  have hnew : ∀ h ∈ toStore, t.m.policy.get h = none := by
    intro h hh
    simpa using (List.mem_filter.mp hh).2
  have hrest : ∀ h ∈ hs, h ∈ toStore ∨ (t.m.policy.get h).isSome := by
    intro h hh
    cases hg : t.m.policy.get h with
    | none => exact .inl (List.mem_filter.mpr ⟨hh, by rw [hg]; rfl⟩)
    | some b => exact .inr rfl
  have hsame : Owned ⟨t.m, t.loads, t.stores ++ []⟩ := by
    rw [List.append_nil]
    exact ho
  by_cases hnil : toStore = []
  · exact ⟨_, _, if_pos hnil, hsame, fun _ => rfl,
      fun _ h hh => (hrest h hh).resolve_left (hnil ▸ List.not_mem_nil)⟩
  · rw [if_neg hnil]
    by_cases hpos : 0 < (toStore.length : ℤ) - t.m.getNumFreeBlocks
    · rw [if_pos hpos]
      cases he : t.m.policy.evict ((toStore.length : ℤ) - t.m.getNumFreeBlocks).toNat hs with
      | none => exact ⟨_, _, rfl, hsame, fun _ => rfl, fun h => by cases h⟩
      | some r =>
        obtain ⟨evicted, p⟩ := r
        obtain ⟨hperm, hlen, hidle⟩ := CachePolicy.evict_spec he
        have ho' := ho.evict he
        -- stored hashes of the request stay, the others are still new
        have hget (k : H) (hk : k ∈ hs) : p.get k = t.m.policy.get k := by
          have hnot : k ∉ evicted.map Prod.fst := by
            intro hmem
            obtain ⟨e, hemem, rfl⟩ := List.mem_map.mp hmem
            exact (hidle e hemem).2 hk
          exact ho.ok.get_kept hperm hnot
        obtain ⟨out, m, hm, hown, hall⟩ := storeBlocks_owned ho' hnd'
          (fun h hh => (hget h (List.mem_of_mem_filter hh)).trans (hnew h hh))
          (by
            simp only [getNumFreeBlocks, List.length_append, List.length_map] at hlen hpos ⊢
            omega)
          (evicted.map Prod.fst)
        refine ⟨some out, m, ?_, hown, fun h => (by cases h), fun _ h hh => ?_⟩
        · show ((CPUOffloadingManager.storeBlocks _ _ _).bind _) = _
          rw [hm]
          rfl
        · refine hall h ((hrest h hh).imp id fun hs' => ?_)
          rw [hget h hh]
          exact hs'
    · rw [if_neg hpos]
      obtain ⟨out, m, hm, hown, hall⟩ := storeBlocks_owned ho hnd' hnew (by omega) []
      refine ⟨some out, m, ?_, hown, fun h => (by cases h), fun _ h hh => hall h (hrest h hh)⟩
      rw [hm]
      rfl

/-! ## Runs -/

variable {R : Rounding}

theorem Owned.touch (ho : t.Owned) (hs : List H) : Owned { t with m := t.m.touch R hs } := by
  have hperm : t.m.policy.entries.Perm ([] ++ (t.m.policy.touch R hs).entries) :=
    (ho.ok.perm_touch R hs).symm
  have hown := ho.release hperm (fun _ _ => rfl)
    fun _ he => absurd he List.not_mem_nil
  rw [List.map_nil, List.append_nil] at hown
  exact hown

/-- `lookup` counts a hash if its block is there and its store is not pending. -/
theorem Owned.of_lookup (ho : t.Owned) (hl : t.m.lookup [h] = 1) :
    (t.m.policy.get h).isSome ∧ idsOf t.stores h = [] := by
  rw [lookup] at hl
  split at hl
  · rename_i b hb
    split at hl
    · rename_i hr
      exact ⟨by rw [hb]; rfl, (ho.fits_some hb).isReady_iff.mp hr⟩
    · cases hl
  · cases hl

/-- **No permitted call raises**, and each keeps the invariant. -/
theorem step_owned (ho : t.Owned) {c : Call H} (hc : t.Permitted c) :
    ∃ t', t.step R c = some t' ∧ t'.Owned := by
  cases c with
  | lookup hs => exact ⟨t, rfl, ho⟩
  | touch hs => exact ⟨_, rfl, ho.touch hs⟩
  | prepareLoad hs =>
    obtain ⟨ids, m, hm, hown⟩ := prepareLoad_owned ho (fun h hh => ho.of_lookup (hc.2.1 h hh))
      hc.2.2
    exact ⟨_, by rw [step, hm]; rfl, hown⟩
  | completeLoad hs =>
    obtain ⟨m, hm, hown⟩ := completeLoad_owned ho hc.1
    exact ⟨_, by rw [step, hm]; rfl, hown⟩
  | prepareStore hs =>
    obtain ⟨out, m, hm, hown, -⟩ := prepareStore_owned ho hc.1
    exact ⟨_, by rw [step, hm]; rfl, hown⟩
  | completeStore hs success =>
    obtain ⟨m, hm, hown⟩ := completeStore_owned ho hc.1 success
    exact ⟨_, by rw [step, hm]; rfl, hown⟩

theorem owned_of_reach {name : PolicyName} {numBlocks : ℕ}
    (ht : Reach (step R) Permitted (init name numBlocks) t) : t.Owned := by
  refine ht.invariant Owned (owned_init name numBlocks) ?_
  intro t c t' ho hc hstep
  obtain ⟨t'', ht'', hown⟩ := step_owned ho hc
  rw [ht''] at hstep
  cases hstep
  exact hown

/-- Every id is in one place, and the blocks of pending transfers, which are those with a positive
counter and those that are not ready, keep the hash and the id that the workers were told. -/
structure OwnsBlocks (t : Tracked H) : Prop where
  ids : (t.m.freeList ++ t.m.policy.entries.map fun e => e.2.blockId).Perm
    (List.range t.m.numAllocatedBlocks)
  loading : ∀ j ∈ t.loads, ∃ b, t.m.policy.get j.1 = some b ∧ b.blockId = j.2 ∧ 0 < b.refCnt
  storing : ∀ j ∈ t.stores, ∃ b, t.m.policy.get j.1 = some b ∧ b.blockId = j.2 ∧ b.isReady = false
  loaded : ∀ h b, t.m.policy.get h = some b → 0 < b.refCnt → h ∈ t.loads.map Prod.fst
  stored : ∀ h b, t.m.policy.get h = some b → b.isReady = false → h ∈ t.stores.map Prod.fst

theorem Owned.ownsBlocks (ho : t.Owned) : t.OwnsBlocks := by
  refine ⟨ho.ids, fun j hj => ?_, fun j hj => ?_, fun h b hb hpos => ?_, fun h b hb hr => ?_⟩
  · have hmem : j.2 ∈ idsOf t.loads j.1 := mem_idsOf.mpr hj
    obtain ⟨b, hb, hid⟩ := map_eq_some_iff.mp ((ho.fits j.1).held j.2 (.inl hmem))
    have hfits := ho.fits_some hb
    refine ⟨b, hb, hid, ?_⟩
    rw [hfits.stores_nil (List.ne_nil_of_mem hmem)] at hfits
    have hpos := List.length_pos_of_mem hmem
    rw [hfits.refCnt_eq]
    omega
  · have hmem : j.2 ∈ idsOf t.stores j.1 := mem_idsOf.mpr hj
    obtain ⟨b, hb, hid⟩ := map_eq_some_iff.mp ((ho.fits j.1).held j.2 (.inr hmem))
    refine ⟨b, hb, hid, ?_⟩
    rw [← Bool.not_eq_true, (ho.fits_some hb).isReady_iff]
    exact List.ne_nil_of_mem hmem
  · have hcnt := (ho.fits_some hb).counted b rfl
    have hne : idsOf t.loads h ≠ [] := by
      intro hnil
      split at hcnt <;> simp_all
    obtain ⟨i, hi⟩ := List.exists_mem_of_ne_nil _ hne
    exact List.mem_map_of_mem (mem_idsOf.mp hi)
  · have hne : idsOf t.stores h ≠ [] := fun hnil => by
      rw [(ho.fits_some hb).isReady_iff.mpr hnil] at hr
      cases hr
    obtain ⟨i, hi⟩ := List.exists_mem_of_ne_nil _ hne
    exact List.mem_map_of_mem (mem_idsOf.mp hi)

/-- **Ownership of the CPU blocks.** In every run of permitted calls, with either policy: the
blocks have their owners, no permitted call raises, and `prepare_store` either returns nothing and
changes nothing, or leaves all its hashes stored. -/
theorem ownership_of_permitted (R : Rounding) (name : PolicyName) (numBlocks : ℕ) {t : Tracked H}
    (ht : Reach (step R) Permitted (init name numBlocks) t) :
    t.OwnsBlocks ∧ (∀ c, t.Permitted c → (t.step R c).isSome) ∧
      ∀ hs : List H, hs.Nodup → ∃ out m, t.m.prepareStore hs = some (out, m) ∧
        (out = none → m = t.m) ∧ (out.isSome → ∀ h ∈ hs, (m.policy.get h).isSome) := by
  have ho := owned_of_reach ht
  refine ⟨ho.ownsBlocks, fun c hc => ?_, fun hs hnd => ?_⟩
  · obtain ⟨t', ht', -⟩ := step_owned (R := R) ho hc
    rw [ht']
    rfl
  · obtain ⟨out, m, hm, -, hsame, hall⟩ := prepareStore_owned ho hnd
    exact ⟨out, m, hm, hsame, hall⟩

/-- Two blocks are stored, one is being loaded, and a store needs a block: the other one is
evicted. -/
theorem loaded_block_is_kept :
    ∃ t : Tracked ℕ, Reach (step .exact) Permitted (init .arc 2) t ∧ t.loads = [(1, 0)] ∧
      t.stores = [(3, 1)] ∧ t.OwnsBlocks := by
  obtain ⟨t, ht, hloads, hstores⟩ : ∃ t ∈ run (guarded Permitted (step .exact))
      (init .arc 2 : Tracked ℕ) [.prepareStore [1, 2], .completeStore [1, 2] true, .prepareLoad [1],
        .touch [1, 2], .prepareStore [3]], t.loads = [(1, 0)] ∧ t.stores = [(3, 1)] := by
    decide +kernel
  have hreach := Reach.of_guarded_run .init ht
  exact ⟨t, hreach, hloads, hstores, (ownership_of_permitted .exact .arc 2 hreach).1⟩

/-! ## Calls that are not permitted -/

/-- The counter wraps around after 2^31 loads of one block. -/
theorem prepareLoad_replicate (hok : m.policy.Ok) {c : ℤ} {id n : ℕ}
    (hb : m.policy.get h = some ⟨c, id⟩) (hc : 0 ≤ c) (hlt : c < 2 ^ 31) (hn : c + n ≤ 2 ^ 31) :
    ∃ m', prepareLoad (List.replicate n h) m = some (List.replicate n id, m') ∧
      m'.policy.get h = some ⟨(c + n).bmod (2 ^ 32), id⟩ := by
  induction n generalizing m c with
  | zero =>
    refine ⟨m, rfl, ?_⟩
    rw [hb, Nat.cast_zero, add_zero]
    exact congrArg some (congrArg (BlockStatus.mk · id)
      (BlockStatus.refCnt_setRefCnt ⟨c, id⟩ hc hlt).symm)
  | succ n ih =>
    have hr : (BlockStatus.mk c id).isReady = true := decide_eq_true hc
    have hget := hok.get_assign hb ((BlockStatus.mk c id).setRefCnt (c + 1)) h
    rw [if_pos rfl] at hget
    have hok' := hok.assign hb ((BlockStatus.mk c id).setRefCnt (c + 1))
    have hstep : prepareLoad (List.replicate (n + 1) h) m =
        (prepareLoad (List.replicate n h)
          { m with policy := m.policy.assign h ((BlockStatus.mk c id).setRefCnt (c + 1)) }).bind
          fun r => some (id :: r.1, r.2) := by
      rw [List.replicate_succ, prepareLoad, hb]
      simp only [bind_eq_bind, bind_some, hr, if_true]
      rfl
    by_cases hlast : c + 1 < 2 ^ 31
    · have hone : (BlockStatus.mk c id).setRefCnt (c + 1) = ⟨c + 1, id⟩ :=
        congrArg (BlockStatus.mk · id)
          (BlockStatus.refCnt_setRefCnt ⟨c, id⟩ (by omega) hlast)
      rw [hone] at hget hok' hstep
      obtain ⟨m', hm', hget'⟩ := ih (m := { m with policy := m.policy.assign h ⟨c + 1, id⟩ })
        hok' hget (by omega) hlast (by push_cast at hn; omega)
      refine ⟨m', by rw [hstep, hm']; rfl, ?_⟩
      rw [hget']
      push_cast
      rw [add_assoc, add_comm (1 : ℤ)]
    · -- the last load is the one that wraps
      have hn0 : n = 0 := by push_cast at hn; omega
      subst hn0
      refine ⟨_, hstep, ?_⟩
      exact hget

/-- **A load of an unknown block raises**, and so does the completion of one of 2^31 loads of the
same block. -/
theorem unknown_block_raises :
    (Matched (init .lru 1 : Tracked ℕ) (.prepareLoad [0]) ∧
      (init .lru 1 : Tracked ℕ).step .exact (.prepareLoad [0]) = none) ∧
    ∃ t : Tracked ℕ, Reach (step .exact) Matched (init .lru 1) t ∧
      Matched t (.completeLoad [0]) ∧ t.step .exact (.completeLoad [0]) = none := by
  refine ⟨⟨trivial, rfl⟩, ?_⟩
  obtain ⟨t, ht, hget, hloads⟩ : ∃ t ∈ run (guarded Permitted (step .exact))
      (init .lru 1 : Tracked ℕ) [.prepareStore [0], .completeStore [0] true],
      t.m.policy.get 0 = some ⟨0, 0⟩ ∧ t.loads = [] := by
    decide +kernel
  have hreach := Reach.of_guarded_run .init ht
  obtain ⟨m, hm, hget'⟩ := prepareLoad_replicate (owned_of_reach hreach).ok hget (n := 2 ^ 31)
    (le_refl _) (by decide) (by decide)
  refine ⟨⟨m, t.loads ++ (List.replicate (2 ^ 31) 0).zip (List.replicate (2 ^ 31) 0), t.stores⟩,
    (hreach.imp fun _ _ h => h.1).next (a := .prepareLoad (List.replicate (2 ^ 31) 0)) trivial ?_,
    ?_, ?_⟩
  · rw [step, hm]
    rfl
  · intro h hh
    rw [List.mem_singleton.mp hh, hloads, List.nil_append, List.zip_replicate', pendingCount,
      List.countP_replicate]
    decide
  · have hneg : ¬ 0 < (((0 : ℤ) + ((2 ^ 31 : ℕ) : ℤ)).bmod (2 ^ 32)) := by decide
    rw [step, completeLoad, hget']
    rfl

end Tracked

end Nvllm.Offload
