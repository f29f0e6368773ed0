import Nvllm.Offload.CpuManager

/-! # The lists of ARC

In every run of the manager, whatever its calls and however the arithmetic of `target_t1_size`
rounds, a hash is in at most one of the four lists of `ARCCachePolicy`, and the lists keep to the
capacity; so does the target size if the capacity is a float: `arc_arranged`.

`evict` takes blocks of `t1` only while `t1` is not below its target, and then asks `t2` alone. So
it gives up although there are blocks that could be evicted; `evictsIfPossible_iff_targetAllows`
says when.
-/

namespace Nvllm.Offload

open Nvllm.Run List Option

variable {H : Type} [DecidableEq H]

namespace ARCCachePolicy

variable {p : ARCCachePolicy H} {h : H} {b : BlockStatus}

/-- No hash is in two of the lists. -/
def Apart (p : ARCCachePolicy H) : Prop :=
  ∀ h, (h ∈ p.t1.keys → h ∉ p.t2.keys ∧ h ∉ p.b1.keys ∧ h ∉ p.b2.keys) ∧
    (h ∈ p.t2.keys → h ∉ p.b1.keys ∧ h ∉ p.b2.keys) ∧ (h ∈ p.b1.keys → h ∉ p.b2.keys)

/-- The lists are apart; the evicted hashes and the target keep to the capacity. -/
structure Arranged (R : Rounding) (capacity : ℕ) (p : ARCCachePolicy H) : Prop where
  cacheCapacity : p.cacheCapacity = capacity
  apart : p.Apart
  b1 : p.b1.entries.length ≤ capacity
  b2 : p.b2.entries.length ≤ capacity
  target_nonneg : 0 ≤ p.targetT1Size
  target_le : R.round capacity = capacity → p.targetT1Size ≤ capacity

theorem get?_moveToEnd {ν : Type} (d : Dict H ν) (k k' : H) :
    (d.moveToEnd k).get? k' = d.get? k' :=
  Dict.lookup_perm (Dict.perm_moveToEnd d k) (d.moveToEnd k).nodup k'

variable {R : Rounding} {capacity : ℕ}

theorem Arranged.touchOne (hp : p.Arranged R capacity) (h : H) :
    (p.touchOne R h).Arranged R capacity := by
  have hmove {ν : Type} (d : Dict H ν) : (d.moveToEnd h).entries.length = d.entries.length :=
    (Dict.perm_moveToEnd d h).length_eq
  have hdelta (x : ℚ) : 0 ≤ max 1 x := zero_le_one.trans (le_max_left _ _)
  unfold ARCCachePolicy.touchOne
  split
  · split
    all_goals
      refine { hp with apart := fun k => ?_ }
      have := hp.apart k
      grind
  · split
    · refine { hp with apart := fun k => ?_ }
      have := hp.apart k
      grind [get?_moveToEnd]
    · split
      · refine { hp with
          apart := fun k => ?_
          b1 := (hmove _).trans_le hp.b1
          target_nonneg := ?_
          target_le := ?_ }
        · have := hp.apart k
          grind [get?_moveToEnd]
        · refine le_min ?_ (Nat.cast_nonneg _)
          rw [← R.zero]
          exact R.mono (add_nonneg hp.target_nonneg (hdelta _))
        · rw [← hp.cacheCapacity]
          exact fun _ => min_le_right _ _
      · split
        · refine { hp with
            apart := fun k => ?_
            b2 := (hmove _).trans_le hp.b2
            target_nonneg := ?_
            target_le := ?_ }
          · have := hp.apart k
            grind [get?_moveToEnd]
          · exact le_max_right _ _
          · intro hcap
            refine max_le ?_ (Nat.cast_nonneg _)
            rw [← hcap]
            exact R.mono ((sub_le_self _ (hdelta _)).trans (hp.target_le hcap))
        · exact hp

theorem Arranged.touchLoop (hs : List H) (hp : p.Arranged R capacity) :
    (touchLoop R hs p).Arranged R capacity := by
  induction hs generalizing p with
  | nil => exact hp
  | cons h hs ih => exact ih (hp.touchOne h)

theorem Arranged.insert (hp : p.Arranged R capacity) (hh : h ∉ p.t2.keys) (b : BlockStatus) :
    (p.insert h b).Arranged R capacity := by
  refine { hp with
    apart := fun k => ?_
    b1 := (length_filter_le _ _).trans hp.b1
    b2 := (length_filter_le _ _).trans hp.b2 }
  have := hp.apart k
  unfold ARCCachePolicy.insert
  by_cases hk : k = h
  · grind
  · grind

theorem Arranged.remove (hp : p.Arranged R capacity) (h : H) :
    (p.remove h).Arranged R capacity := by
  unfold ARCCachePolicy.remove
  split
  all_goals
    refine { hp with apart := fun k => ?_ }
    have := hp.apart k
    grind

/-- What `evict` does before it trims the lists of evicted hashes. -/
theorem Apart.evictLoop {cs : List ((H × BlockStatus) × Bool)} (hp : p.Apart)
    (hst : ∀ c ∈ cs, c.1.1 ∈ (if c.2 then p.t1 else p.t2).keys)
    (hnd : (cs.map fun c => c.1.1).Nodup) :
    (evictLoop cs p).Apart ∧ (evictLoop cs p).cacheCapacity = p.cacheCapacity ∧
      (evictLoop cs p).targetT1Size = p.targetT1Size := by
  induction cs generalizing p with
  | nil => exact ⟨hp, rfl, rfl⟩
  | cons c cs ih =>
    obtain ⟨⟨h, b⟩, fromT1⟩ := c
    rw [map_cons, nodup_cons] at hnd
    have hmem := hst _ mem_cons_self
    have hrest : ∀ c ∈ cs, c.1.1 ∈ (if c.2 then p.t1 else p.t2).keys ∧ c.1.1 ≠ h := fun c hc =>
      ⟨hst c (mem_cons_of_mem _ hc), fun heq => hnd.1 (mem_map.mpr ⟨c, hc, heq⟩)⟩
    cases fromT1 with
    | true =>
      refine ih (p := { p with t1 := p.t1.erase h, b1 := p.b1.set h () }) (fun k => ?_) ?_ hnd.2
      · have := hp k
        grind
      · intro c hc
        grind
    | false =>
      refine ih (p := { p with t2 := p.t2.erase h, b2 := p.b2.set h () }) (fun k => ?_) ?_ hnd.2
      · have := hp k
        grind
      · intro c hc
        grind

theorem Arranged.evict {p' : ARCCachePolicy H} {n : ℕ} {excluded : List H}
    {evicted : List (H × BlockStatus)} (hp : p.Arranged R capacity)
    (he : p.evict n excluded = some (evicted, p')) : p'.Arranged R capacity := by
  rw [ARCCachePolicy.evict] at he
  split at he
  · cases he
    exact hp
  · obtain ⟨cs, hcs, he⟩ := bind_eq_some_iff.mp he
    cases he
    obtain ⟨hc, -⟩ := CachePolicy.collect_collected hcs
      ⟨fun c hc => absurd hc not_mem_nil, fun c hc => absurd hc not_mem_nil,
        nodup_nil⟩
    obtain ⟨hapart, hcap, htarget⟩ := hp.apart.evictLoop
      (fun c hc' => mem_map_of_mem (hc.stored c hc')) hc.nodup
    set q := evictLoop cs p
    have hdrop (d : Dict H Unit) : (d.dropFirst (d.entries.length - q.cacheCapacity)).keys ⊆
        d.keys ∧ (d.dropFirst (d.entries.length - q.cacheCapacity)).entries.length ≤ capacity := by
      refine ⟨((drop_sublist _ _).map Prod.fst).subset, ?_⟩
      show (d.entries.drop _).length ≤ capacity
      rw [length_drop, hcap, hp.cacheCapacity]
      omega
    refine ⟨hcap.trans hp.cacheCapacity, fun k => ?_, (hdrop q.b1).2, (hdrop q.b2).2, ?_, ?_⟩
    · have := hapart k
      have h1 := @(hdrop q.b1).1 k
      have h2 := @(hdrop q.b2).1 k
      exact ⟨by tauto, by tauto, by tauto⟩
    · exact htarget ▸ hp.target_nonneg
    · exact htarget ▸ hp.target_le

end ARCCachePolicy

/-! ## Runs -/

namespace CachePolicy

variable {R : Rounding} {name : PolicyName} {capacity n : ℕ} {excluded : List H}
  {p p' : CachePolicy H} {h : H} {b : BlockStatus}

def Arranged (R : Rounding) (name : PolicyName) (capacity : ℕ) : CachePolicy H → Prop
  | lru _ => name = .lru
  | arc p => p.Arranged R capacity

omit [DecidableEq H] in
theorem Arranged.ok (hp : p.Arranged R name capacity) : p.Ok := by
  cases p with
  | lru p => exact p.blocks.nodup
  | arc p =>
    rw [Ok, entries, map_append, nodup_append']
    exact ⟨p.t1.nodup, p.t2.nodup, fun k h1 h2 => ((hp.apart k).1 h1).1 h2⟩

theorem Arranged.touch (hp : p.Arranged R name capacity) (hs : List H) :
    (p.touch R hs).Arranged R name capacity := by
  cases p with
  | lru p => exact hp
  | arc p => exact ARCCachePolicy.Arranged.touchLoop _ hp

theorem Arranged.assign (hp : p.Arranged R name capacity) (hb : p.get h = some b)
    (b' : BlockStatus) : (p.assign h b').Arranged R name capacity ∧
      (p.assign h b').entries.length = p.entries.length := by
  constructor
  · cases p with
    | lru p => exact hp
    | arc p =>
      rw [assign]
      rcases get_arc hb with ⟨hc, hb⟩ | ⟨hc, hb⟩
      all_goals
        simp only [hc, if_true, if_false, Bool.false_eq_true]
        refine ARCCachePolicy.Arranged.mk hp.cacheCapacity (fun k => ?_) hp.b1 hp.b2
          hp.target_nonneg hp.target_le
        simpa only [Dict.keys_set_of_known b' hb] using hp.apart k
  · obtain ⟨es, hes, hes'⟩ := perm_assign hb b'
    rw [hes.length_eq, hes'.length_eq]
    rfl

theorem Arranged.remove (hp : p.Arranged R name capacity) (he : p.remove h = some p') :
    p'.Arranged R name capacity := by
  cases p with
  | lru p =>
    obtain ⟨-, he⟩ := ite_none_right_eq_some.mp he
    cases he
    exact hp
  | arc p =>
    cases he
    exact ARCCachePolicy.Arranged.remove hp h

theorem Arranged.evict {evicted : List (H × BlockStatus)} (hp : p.Arranged R name capacity)
    (he : p.evict n excluded = some (evicted, p')) : p'.Arranged R name capacity := by
  cases p with
  | lru p =>
    obtain ⟨q, -, he⟩ := map_eq_some_iff.mp he
    cases he
    exact hp
  | arc p =>
    obtain ⟨q, hq, he⟩ := map_eq_some_iff.mp he
    cases he
    exact ARCCachePolicy.Arranged.evict hp hq

/-- The hash may be inserted. -/
def Insertable (h : H) : CachePolicy H → Prop
  | lru _ => True
  | arc p => h ∉ p.t2.keys

theorem insertable_of_get (hb : p.get h = none) : p.Insertable h := by
  cases p with
  | lru p => trivial
  | arc p => exact Dict.not_mem_keys_of_get? (or_eq_none_iff.mp hb).2

theorem length_set_le {ν : Type} (d : Dict H ν) (k : H) (v : ν) :
    (d.set k v).entries.length ≤ d.entries.length + 1 := by
  rw [(Dict.perm_set v).length_eq, length_cons]
  exact Nat.add_le_add_right (length_filter_le _ _) 1

/-- A list may name a hash twice, so that a hash may be there already. -/
theorem Arranged.insertAll {es : List (H × BlockStatus)} (hp : p.Arranged R name capacity)
    (hes : ∀ e ∈ es, p.Insertable e.1) :
    (CPUOffloadingManager.insertAll es p).Arranged R name capacity ∧
      (CPUOffloadingManager.insertAll es p).entries.length ≤ p.entries.length + es.length := by
  induction es generalizing p with
  | nil => exact ⟨hp, le_rfl⟩
  | cons e es ih =>
    have hone : (p.insert e.1 e.2).Arranged R name capacity ∧
        (p.insert e.1 e.2).entries.length ≤ p.entries.length + 1 := by
      cases p with
      | lru p => exact ⟨hp, length_set_le _ _ _⟩
      | arc p =>
        refine ⟨ARCCachePolicy.Arranged.insert hp (hes e mem_cons_self) e.2, ?_⟩
        show ((p.t1.set e.1 e.2).entries ++ p.t2.entries).length ≤
          (p.t1.entries ++ p.t2.entries).length + 1
        have := length_set_le p.t1 e.1 e.2
        rw [length_append, length_append]
        omega
    have hrest : ∀ e' ∈ es, (p.insert e.1 e.2).Insertable e'.1 := by
      intro e' he'
      have := hes e' (mem_cons_of_mem _ he')
      cases p <;> exact this
    obtain ⟨hall, hlen⟩ := ih hone.1 hrest
    refine ⟨hall, hlen.trans ?_⟩
    rw [length_cons]
    omega

end CachePolicy

namespace CPUOffloadingManager

variable {m m' : CPUOffloadingManager H} {hs : List H} {h : H}

/-- No block id is held twice, so there are no more blocks than ids. -/
structure Arranged (R : Rounding) (name : PolicyName) (capacity : ℕ) (m : CPUOffloadingManager H) :
    Prop where
  numBlocks : m.numBlocks = capacity
  policy : m.policy.Arranged R name capacity
  held : m.freeList.length + m.policy.entries.length ≤ m.numAllocatedBlocks
  allocated : m.numAllocatedBlocks ≤ capacity

variable {R : Rounding} {name : PolicyName} {capacity : ℕ}

theorem Arranged.assign (hm : m.Arranged R name capacity) {b : BlockStatus}
    (hb : m.policy.get h = some b) (b' : BlockStatus) :
    Arranged R name capacity { m with policy := m.policy.assign h b' } := by
  obtain ⟨hp, hlen⟩ := hm.policy.assign hb b'
  refine { hm with policy := hp, held := ?_ }
  rw [hlen]
  exact hm.held

theorem Arranged.prepareLoad {ids : List ℕ} (hm : m.Arranged R name capacity)
    (he : prepareLoad hs m = some (ids, m')) : m'.Arranged R name capacity := by
  induction hs generalizing m ids with
  | nil =>
    cases he
    exact hm
  | cons h hs ih =>
    obtain ⟨b, hb, he⟩ := bind_eq_some_iff.mp he
    obtain ⟨-, he⟩ := ite_none_right_eq_some.mp he
    obtain ⟨⟨ids', m1⟩, hrest, he⟩ := bind_eq_some_iff.mp he
    cases he
    exact ih (hm.assign hb _) hrest

theorem Arranged.completeLoad (hm : m.Arranged R name capacity) (he : completeLoad hs m = some m') :
    m'.Arranged R name capacity := by
  induction hs generalizing m with
  | nil =>
    cases he
    exact hm
  | cons h hs ih =>
    obtain ⟨b, hb, he⟩ := bind_eq_some_iff.mp he
    obtain ⟨-, he⟩ := ite_none_right_eq_some.mp he
    exact ih (hm.assign hb _) he

theorem Arranged.completeOne {success : Bool} (hm : m.Arranged R name capacity)
    (he : m.completeOne h success = some m') : m'.Arranged R name capacity := by
  unfold CPUOffloadingManager.completeOne at he
  split at he
  · cases he
    exact hm
  · rename_i b hb
    split at he
    · cases he
      exact hm
    · split at he
      · cases he
        exact hm.assign hb _
      · obtain ⟨p, hp, he⟩ := bind_eq_some_iff.mp he
        cases he
        obtain ⟨p', hp', hperm⟩ := CachePolicy.remove_eq hb
        rw [hp] at hp'
        cases hp'
        have hlen := hperm.length_eq
        have hheld := hm.held
        refine { hm with policy := hm.policy.remove hp, held := ?_ }
        rw [length_cons] at hlen
        simp only [length_append, length_singleton]
        omega

theorem Arranged.completeStore {success : Bool} (hm : m.Arranged R name capacity)
    (he : completeStore success hs m = some m') : m'.Arranged R name capacity := by
  induction hs generalizing m with
  | nil =>
    cases he
    exact hm
  | cons h hs ih =>
    obtain ⟨m1, hone, he⟩ := bind_eq_some_iff.mp he
    exact ih (hm.completeOne hone) he

theorem Arranged.storeBlocks {evicted : List H} {out : PrepareStoreOutput H}
    (hm : m.Arranged R name capacity) (hnew : ∀ h ∈ hs, m.policy.Insertable h)
    (he : m.storeBlocks hs evicted = some (out, m')) : m'.Arranged R name capacity := by
  simp only [CPUOffloadingManager.storeBlocks, bind, bind_eq_some_iff] at he
  obtain ⟨⟨blocks, m1⟩, halloc, he⟩ := he
  obtain ⟨hblocks, he⟩ := ite_none_right_eq_some.mp he
  have hzip : ∀ e ∈ hs.zip blocks, m.policy.Insertable e.1 := fun e he =>
    hnew e.1 (of_mem_zip he).1
  obtain ⟨hp, hlen⟩ := hm.policy.insertAll hzip
  rw [length_zip, hblocks, Nat.min_self] at hlen
  obtain ⟨hle, halloc⟩ := ite_none_right_eq_some.mp halloc
  cases halloc
  cases he
  have hheld := hm.held
  have hall := hm.allocated
  have hnum := hm.numBlocks
  refine ⟨hnum, hp, ?_, ?_⟩
  · simp only [length_reverse, length_drop]
    omega
  · dsimp only
    omega

theorem Arranged.prepareStore {out : Option (PrepareStoreOutput H)}
    (hm : m.Arranged R name capacity) (he : m.prepareStore hs = some (out, m')) :
    m'.Arranged R name capacity := by
  have hnew : ∀ h ∈ hs.filter fun h => (m.policy.get h).isNone, m.policy.get h = none :=
    fun h hh => by simpa using (mem_filter.mp hh).2
  unfold CPUOffloadingManager.prepareStore at he
  dsimp only at he
  split at he
  · cases he
    exact hm
  · split at he
    · split at he
      · cases he
        exact hm
      · rename_i evicted p hev
        obtain ⟨⟨out', m1⟩, hstore, he⟩ := bind_eq_some_iff.mp he
        cases he
        obtain ⟨hperm, -, -⟩ := CachePolicy.evict_spec hev
        have hlen := hperm.length_eq
        have hheld := hm.held
        refine Arranged.storeBlocks (m := { m with policy := p, freeList := _ })
          ⟨hm.numBlocks, hm.policy.evict hev, ?_, hm.allocated⟩
          (fun h hh => CachePolicy.insertable_of_get (CachePolicy.get_eq_none_iff.mpr ?_)) hstore
        · rw [length_append] at hlen
          simp only [length_append, length_map]
          omega
        · -- what was not there before the eviction is not there afterwards
          have hnone := CachePolicy.get_eq_none_iff.mp (hnew h hh)
          exact fun hmem => hnone ((hperm.map Prod.fst).mem_iff.mpr (by simp [hmem]))
    · obtain ⟨⟨out', m1⟩, hstore, he⟩ := bind_eq_some_iff.mp he
      cases he
      exact hm.storeBlocks (fun h hh => CachePolicy.insertable_of_get (hnew h hh)) hstore

end CPUOffloadingManager

namespace Tracked

variable {R : Rounding} {name : PolicyName} {capacity : ℕ} {t : Tracked H}

theorem arranged_of_reach (ht : Reach (step R) always (init name capacity) t) :
    t.m.Arranged R name capacity := by
  refine ht.invariant (fun t => t.m.Arranged R name capacity) ?_ fun t c t' hm _ he => ?_
  · refine ⟨rfl, ?_, ?_, Nat.zero_le _⟩
    · cases name with
      | lru => rfl
      | arc =>
        refine ARCCachePolicy.Arranged.mk rfl (fun k => ?_) (Nat.zero_le _) (Nat.zero_le _) le_rfl
          (fun _ => Nat.cast_nonneg _)
        exact ⟨fun hk => absurd hk not_mem_nil, fun hk => absurd hk not_mem_nil,
          fun hk => absurd hk not_mem_nil⟩
    · cases name <;> exact le_rfl
  · cases c with
    | lookup hs =>
      cases he
      exact hm
    | touch hs =>
      cases he
      refine { hm with policy := hm.policy.touch hs, held := ?_ }
      have hlen := (hm.policy.ok.perm_touch R hs).length_eq
      exact hlen ▸ hm.held
    | prepareLoad hs =>
      obtain ⟨⟨ids, m⟩, hload, he⟩ := bind_eq_some_iff.mp he
      cases he
      exact hm.prepareLoad hload
    | completeLoad hs =>
      obtain ⟨m, hload, he⟩ := bind_eq_some_iff.mp he
      cases he
      exact hm.completeLoad hload
    | prepareStore hs =>
      obtain ⟨⟨out, m⟩, hstore, he⟩ := bind_eq_some_iff.mp he
      cases he
      exact hm.prepareStore hstore
    | completeStore hs success =>
      obtain ⟨m, hstore, he⟩ := bind_eq_some_iff.mp he
      cases he
      exact hm.completeStore hstore

/-- **The structure of ARC.** In every run the four lists are apart, the blocks and each list of
evicted hashes keep to the capacity, and the target size is between 0 and the capacity. -/
theorem arc_arranged (R : Rounding) (capacity : ℕ) (hcap : R.round capacity = capacity)
    {t : Tracked H} (ht : Reach (step R) always (init .arc capacity) t) :
    ∃ p, t.m.policy = .arc p ∧ p.Apart ∧ p.t1.entries.length + p.t2.entries.length ≤ capacity ∧
      p.b1.entries.length ≤ capacity ∧ p.b2.entries.length ≤ capacity ∧
      0 ≤ p.targetT1Size ∧ p.targetT1Size ≤ capacity := by
  have hm := arranged_of_reach ht
  cases hp : t.m.policy with
  | lru p =>
    have := hm.policy
    rw [hp] at this
    cases this
  | arc p =>
    have harr : p.Arranged R capacity := by
      have := hm.policy
      rwa [hp] at this
    have hheld := hm.held
    have hall := hm.allocated
    rw [hp, CachePolicy.entries, length_append] at hheld
    exact ⟨p, rfl, harr.apart, by omega, harr.b1, harr.b2, harr.target_nonneg,
      harr.target_le hcap⟩

/-- Two blocks are stored, one of them is replaced and then asked for twice. -/
def replacedBlock : List (Call ℕ) :=
  [.prepareStore [1, 2], .completeStore [1, 2] true, .prepareStore [3], .completeStore [3] true,
    .touch [1], .touch [1]]

theorem replacedBlock_arranged : ∃ t ∈ run (step .exact) (init .arc 2) replacedBlock,
    ∃ p, t.m.policy = .arc p ∧ p.Apart ∧ p.t1.entries.length + p.t2.entries.length ≤ 2 ∧
      p.b1.entries.length ≤ 2 ∧ p.b2.entries.length ≤ 2 ∧
      0 ≤ p.targetT1Size ∧ p.targetT1Size ≤ (2 : ℕ) := by
  have hrun : (run (step .exact) (init .arc 2) replacedBlock).isSome = true := by decide +kernel
  obtain ⟨t, ht⟩ := isSome_iff_exists.mp hrun
  exact ⟨t, ht, arc_arranged .exact 2 rfl (Reach.of_run .init ht)⟩

end Tracked

/-! ## Eviction -/

namespace ARCCachePolicy

variable {excluded : List H} {e : H × BlockStatus} {d : Dict H BlockStatus}

/-- The number of blocks that may be evicted. -/
def numEvictable (excluded : List H) (d : Dict H BlockStatus) : ℕ :=
  d.entries.countP (isCandidate excluded)

/-- One of them is taken. -/
theorem numEvictable_of_mem (he : e ∈ d.entries) (hc : isCandidate excluded e = true) :
    numEvictable (excluded ++ [e.1]) d + 1 = numEvictable excluded d := by
  have hperm := Dict.perm_erase (Dict.get?_of_mem he)
  have hsame : (d.erase e.1).entries.countP (isCandidate (excluded ++ [e.1])) =
      (d.erase e.1).entries.countP (isCandidate excluded) := by
    refine countP_congr fun e' he' => ?_
    have hne : e'.1 ≠ e.1 := by simpa using (mem_filter.mp he').2
    simp [isCandidate, hne]
  rw [numEvictable, numEvictable, hperm.countP_eq, hperm.countP_eq, countP_cons_of_pos hc,
    countP_cons_of_neg (by simp [isCandidate]), hsame]

/-- A block of the other list is taken. -/
theorem numEvictable_of_not_mem (excluded : List H) {k : H} (hk : k ∉ d.keys) :
    numEvictable (excluded ++ [k]) d = numEvictable excluded d := by
  refine countP_congr fun e he => ?_
  have hne : e.1 ≠ k := fun heq => hk (heq ▸ mem_map_of_mem he)
  simp [isCandidate, hne]

theorem numEvictable_eq_zero (h : d.entries.find? (isCandidate excluded) = none) :
    numEvictable excluded d = 0 :=
  countP_eq_zero.mpr (find?_eq_none.mp h)

/-- The loop finds `n` blocks: all from `t2` but those that `t1` has and may lose. -/
theorem collect_isSome_iff {p : ARCCachePolicy H} (hp : p.Apart) (n : ℕ) (v : ℤ)
    (cs : List ((H × BlockStatus) × Bool)) {taken : List H}
    (htaken : excluded ++ cs.map (fun c => c.1.1) = taken) :
    (p.collect excluded n v cs).isSome ↔
      (n : ℤ) ≤ min (numEvictable taken p.t1 : ℤ) (max 0 (v + 1 - ⌊p.targetT1Size⌋)) +
        numEvictable taken p.t2 := by
  induction n generalizing v cs taken with
  | zero =>
    simp only [collect, isSome_some, true_iff]
    omega
  | succ n ih =>
    have hsnoc (e : H × BlockStatus) (fromT1 : Bool) :
        excluded ++ (cs ++ [(e, fromT1)]).map (fun c => c.1.1) = taken ++ [e.1] := by
      rw [map_append, ← append_assoc, htaken, map_singleton]
    simp only [collect, htaken]
    split
    · rename_i e he
      obtain ⟨hv, he⟩ := ite_none_right_eq_some.mp he
      have hmem := mem_of_find?_eq_some he
      have h1 := numEvictable_of_mem hmem (find?_some he)
      have h2 := numEvictable_of_not_mem taken
        ((hp e.1).1 (mem_map_of_mem hmem)).1
      rw [ih _ _ (hsnoc e true)]
      omega
    · rename_i hnone
      have hzero : min (numEvictable taken p.t1 : ℤ) (max 0 (v + 1 - ⌊p.targetT1Size⌋)) = 0 := by
        by_cases hv : ⌊p.targetT1Size⌋ ≤ v
        · rw [if_pos hv] at hnone
          rw [numEvictable_eq_zero hnone]
          omega
        · omega
      split
      · rename_i e he
        have hmem := mem_of_find?_eq_some he
        have h2 := numEvictable_of_mem hmem (find?_some he)
        have h1 := numEvictable_of_not_mem taken fun hk =>
          ((hp e.1).1 hk).1 (mem_map_of_mem hmem)
        rw [ih _ _ (hsnoc e false), h1, hzero]
        omega
      · rename_i he
        rw [hzero, numEvictable_eq_zero he]
        simp only [isSome_none, Bool.false_eq_true, false_iff]
        omega

end ARCCachePolicy

namespace CachePolicy

variable {p p' : CachePolicy H} {n : ℕ} {excluded : List H}

/-- What `evict` is to do: it gives up only if there are fewer than `n` blocks that nobody reads and
that are not protected, and otherwise takes `n` of them. -/
structure EvictsIfPossible (p : CachePolicy H) (n : ℕ) (excluded : List H) : Prop where
  none_iff : p.evict n excluded = none ↔
    p.entries.countP (fun e => e.2.refCnt = 0 ∧ e.1 ∉ excluded) < n
  evicts : ∀ evicted p', p.evict n excluded = some (evicted, p') → evicted.length = n ∧
    (evicted.map Prod.fst).Nodup ∧ ∀ e ∈ evicted, e ∈ p.entries ∧ e.2.refCnt = 0 ∧
      e.1 ∉ excluded ∧ p'.get e.1 = none

open ARCCachePolicy in
/-- `t1` may lose all its blocks that can be evicted, or those it may lose and those of `t2` are
enough, or there are too few anyway. -/
def TargetAllows (n : ℕ) (excluded : List H) : CachePolicy H → Prop
  | lru _ => True
  | arc p =>
    let spare : ℤ := p.t1.entries.length + 1 - ⌊p.targetT1Size⌋
    numEvictable excluded p.t1 ≤ spare ∨ n ≤ max 0 spare + numEvictable excluded p.t2 ∨
      numEvictable excluded p.t1 + numEvictable excluded p.t2 < n

instance : Decidable (p.TargetAllows n excluded) :=
  match p with
  | lru _ => inferInstanceAs (Decidable True)
  | arc _ => inferInstanceAs (Decidable (_ ∨ _ ∨ _))

theorem Ok.evicts (hp : p.Ok) {evicted : List (H × BlockStatus)}
    (he : p.evict n excluded = some (evicted, p')) : evicted.length = n ∧
      (evicted.map Prod.fst).Nodup ∧ ∀ e ∈ evicted, e ∈ p.entries ∧ e.2.refCnt = 0 ∧
        e.1 ∉ excluded ∧ p'.get e.1 = none := by
  obtain ⟨hperm, hlen, hall⟩ := evict_spec he
  have hnd := (hperm.map Prod.fst).nodup_iff.mp hp
  rw [map_append, nodup_append'] at hnd
  refine ⟨hlen, hnd.1, fun e hev => ⟨hperm.mem_iff.mpr (mem_append_left _ hev),
    (hall e hev).1, (hall e hev).2, get_eq_none_iff.mpr fun hk => ?_⟩⟩
  exact hnd.2.2 (mem_map_of_mem hev) hk

theorem countP_candidates (es : List (H × BlockStatus)) :
    es.countP (fun e => e.2.refCnt = 0 ∧ e.1 ∉ excluded) = es.countP (isCandidate excluded) :=
  countP_congr fun e _ => by simp [isCandidate]

theorem evict_lru_eq_none_iff (p : LRUCachePolicy H) :
    (lru p).evict n excluded = none ↔ p.blocks.entries.countP (isCandidate excluded) < n := by
  rw [evict, map_eq_none_iff, LRUCachePolicy.evict]
  simp only [ite_eq_left_iff, reduceCtorEq, imp_false, not_not, length_take,
    countP_eq_length_filter]
  omega

theorem evict_arc_eq_none_iff {p : ARCCachePolicy H} (hp : p.Apart) :
    (arc p).evict n excluded = none ↔ (min (p.t1.entries.countP (isCandidate excluded) : ℤ)
        (max 0 (p.t1.entries.length + 1 - ⌊p.targetT1Size⌋)) +
      p.t2.entries.countP (isCandidate excluded) : ℤ) < n := by
  have hcollect := p.collect_isSome_iff hp n p.t1.entries.length [] (append_nil excluded)
  have hnone : (arc p).evict n excluded = none ↔
      ¬ (p.collect excluded n p.t1.entries.length []).isSome = true := by
    rw [evict, map_eq_none_iff, ARCCachePolicy.evict]
    split
    · rename_i hn
      simp [hn, ARCCachePolicy.collect]
    · cases p.collect excluded n p.t1.entries.length [] <;> simp
  rw [hnone, hcollect, not_le]
  rfl

end CachePolicy

namespace Tracked

/-- **When eviction succeeds whenever it can.** LRU does; ARC does if and only if `t1` may lose
enough blocks, whatever the rounding has made of the target. -/
theorem evictsIfPossible_iff_targetAllows (R : Rounding) (name : PolicyName) (capacity : ℕ)
    {t : Tracked H} (ht : Reach (step R) always (init name capacity) t) (n : ℕ)
    (excluded : List H) :
    t.m.policy.EvictsIfPossible n excluded ↔ t.m.policy.TargetAllows n excluded := by
  have hp := (arranged_of_reach ht).policy
  generalize t.m.policy = p at hp
  have hiff : p.EvictsIfPossible n excluded ↔ (p.evict n excluded = none ↔
      p.entries.countP (isCandidate excluded) < n) := by
    rw [← CachePolicy.countP_candidates]
    exact ⟨fun h => h.none_iff, fun h => ⟨h, fun _ _ he => hp.ok.evicts he⟩⟩
  rw [hiff]
  cases p with
  | lru p => exact iff_true_intro (CachePolicy.evict_lru_eq_none_iff p)
  | arc p =>
    rw [CachePolicy.evict_arc_eq_none_iff hp.apart]
    simp only [CachePolicy.entries, countP_append, CachePolicy.TargetAllows,
      ARCCachePolicy.numEvictable]
    omega

theorem replacedBlock_evicts : ∃ t ∈ run (step .exact) (init .arc 2) replacedBlock,
    t.m.policy.EvictsIfPossible 1 [] := by
  obtain ⟨t, ht, hallows⟩ : ∃ t ∈ run (step .exact) (init .arc 2) replacedBlock,
      t.m.policy.TargetAllows 1 [] := by
    decide +kernel
  exact ⟨t, ht, (evictsIfPossible_iff_targetAllows .exact .arc 2 (Reach.of_run .init ht) 1 []).mpr
    hallows⟩

/-- The target of `t1` is 2 and both blocks are in `t1`; `evict` finds one of them only. -/
theorem evict_gives_up : ∃ t ∈ run (step .exact) (init .arc 2) replacedBlock,
    (t.m.policy.evict 2 []).isNone ∧
      t.m.policy.entries.countP (fun e => e.2.refCnt = 0 ∧ e.1 ∉ ([] : List ℕ)) = 2 ∧
        ¬ t.m.policy.EvictsIfPossible 2 [] := by
  obtain ⟨t, ht, hnone, hcount⟩ : ∃ t ∈ run (step .exact) (init .arc 2) replacedBlock,
      (t.m.policy.evict 2 []).isNone ∧
        t.m.policy.entries.countP (fun e => e.2.refCnt = 0 ∧ e.1 ∉ ([] : List ℕ)) = 2 := by
    decide +kernel
  refine ⟨t, ht, hnone, hcount, fun h => ?_⟩
  have hlt := h.none_iff.mp (isNone_iff_eq_none.mp hnone)
  omega

end Tracked

end Nvllm.Offload
