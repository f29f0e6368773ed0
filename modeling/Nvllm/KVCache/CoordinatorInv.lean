import Nvllm.KVCache.Coordinator

/-! # What the KV cache manager preserves

The invariant of the managers is carried through the methods that run on all of them, and the hits
that `get_computed_blocks` returns are shown to fit into the tables.
-/

namespace Nvllm.KVCache

open BlockPool List

/-! ## All managers -/

/-- References to a block from the tables of the given managers. -/
def references (ms : List Manager) (b : BlockId) : ℕ :=
  (ms.map fun m => occurrences m.reqToBlocks b).sum

/-- The pool agrees with the tables of the managers and `rest` references from elsewhere. -/
structure AllGood (p : BlockPool) (ms : List Manager) (rest : BlockId → ℕ) : Prop where
  ref : p.RefInv fun b => references ms b + rest b
  hash : p.HashInv
  lt : ∀ m ∈ ms, ∀ r bs, m.reqToBlocks.get? r = some bs → ∀ b ∈ bs, b < p.numGpuBlocks
  nodup : ∀ m ∈ ms, ∀ r bs, m.reqToBlocks.get? r = some bs → (held p.nullBlock bs).Nodup

namespace AllGood

variable {p p' : BlockPool} {m m' : Manager} {ms : List Manager} {rest : BlockId → ℕ}

theorem head (h : AllGood p (m :: ms) rest) : m.Good p fun b => references ms b + rest b where
  ref := h.ref.congr fun b _ => by
    simp only [references, map_cons, sum_cons]
    omega
  hash := h.hash
  lt := h.lt m mem_cons_self
  nodup := h.nodup m mem_cons_self

/-- After a method on the first manager the others are good with its references elsewhere. -/
theorem tail (h : AllGood p (m :: ms) rest)
    (hk : m.Keeps m' p p' fun b => references ms b + rest b) :
    AllGood p' ms fun b => occurrences m'.reqToBlocks b + rest b where
  ref := hk.good.ref.congr fun b _ => by omega
  hash := hk.good.hash
  lt m1 hm1 r bs hr b hb := by
    rw [hk.shape.numGpuBlocks]
    exact h.lt m1 (mem_cons_of_mem _ hm1) r bs hr b hb
  nodup m1 hm1 r bs hr := by
    rw [hk.shape.nullBlock]
    exact h.nodup m1 (mem_cons_of_mem _ hm1) r bs hr

/-- The first manager joins the others again. -/
theorem cons (h : AllGood p' ms fun b => occurrences m'.reqToBlocks b + rest b)
    (hlt : ∀ r bs, m'.reqToBlocks.get? r = some bs → ∀ b ∈ bs, b < p'.numGpuBlocks)
    (hnd : ∀ r bs, m'.reqToBlocks.get? r = some bs → (held p'.nullBlock bs).Nodup) :
    AllGood p' (m' :: ms) rest where
  ref := h.ref.congr fun b _ => by
    simp only [references, map_cons, sum_cons]
    omega
  hash := h.hash
  lt m1 hm1 := by
    rcases mem_cons.mp hm1 with rfl | hm1
    · exact hlt
    · exact h.lt m1 hm1
  nodup m1 hm1 := by
    rcases mem_cons.mp hm1 with rfl | hm1
    · exact hnd
    · exact h.nodup m1 hm1

/-- One manager after the other: if the method keeps the first and what follows keeps the rest,
then all are kept. -/
theorem cons_keeps {p1 : BlockPool} {ms' : List Manager} (h : AllGood p (m :: ms) rest)
    (hk : m.Keeps m' p p1 fun b => references ms b + rest b)
    (htail : AllGood p1 ms (fun b => occurrences m'.reqToBlocks b + rest b) →
      p1.SameShape p' ∧ AllGood p' ms' fun b => occurrences m'.reqToBlocks b + rest b) :
    p.SameShape p' ∧ AllGood p' (m' :: ms') rest := by
  obtain ⟨hs, hgood⟩ := htail (h.tail hk)
  refine ⟨hk.shape.trans hs, hgood.cons (fun r bs hr b hb => ?_) fun r bs hr => ?_⟩
  · rw [hs.numGpuBlocks]
    exact hk.good.lt r bs hr b hb
  · rw [hs.nullBlock]
    exact hk.good.nodup r bs hr

/-- A pool with the same counts, if the hashes are still sound. -/
theorem of_refs (h : AllGood p ms rest) (hs : p.SameShape p') (hr : p.SameRefs p')
    (hh : p'.HashInv) : AllGood p' ms rest where
  ref := h.ref.of_same hs hr
  hash := hh
  lt m hm r bs hbs b hb := by rw [hs.numGpuBlocks]; exact h.lt m hm r bs hbs b hb
  nodup m hm r bs hbs := by rw [hs.nullBlock]; exact h.nodup m hm r bs hbs

end AllGood

namespace KVCacheManager

/-! ## Loops over the managers -/

variable {ms ms' : List Manager} {p p' : BlockPool} {rest : BlockId → ℕ}
  {n numExternal numLocal : ℕ} {news hits : List (List BlockId)} {r : RequestId}
  {k k' : KVCacheManager} {gs : List ℕ}

/-- The managers one after the other, each with the pool that the one before has left. -/
inductive InTurn (R : Manager → BlockPool → Manager → BlockPool → Prop) :
    List Manager → BlockPool → List Manager → BlockPool → Prop
  | nil (p : BlockPool) : InTurn R [] p [] p
  | cons {m m' : Manager} {ms ms' : List Manager} {p p1 p' : BlockPool} :
      R m p m' p1 → InTurn R ms p1 ms' p' → InTurn R (m :: ms) p (m' :: ms') p'

section

variable {R : Manager → BlockPool → Manager → BlockPool → Prop} {S : Manager → Manager → Prop}

/-- If the method keeps each manager good and relates it to its successor by `S`, then all managers
stay good and are related. -/
theorem InTurn.keeps (h : InTurn R ms p ms' p')
    (hR : ∀ m ∈ ms, ∀ m' p1 p2 rest, p.SameShape p1 → m.Good p1 rest → R m p1 m' p2 →
      m.Keeps m' p1 p2 rest ∧ S m m') (hgood : AllGood p ms rest) :
    (p.SameShape p' ∧ AllGood p' ms' rest) ∧ Forall₂ S ms ms' := by
  induction h generalizing rest with
  | nil p => exact ⟨⟨.refl p, hgood⟩, .nil⟩
  | @cons m m' ms ms' p p1 p' hm hms ih =>
    obtain ⟨hk, hS⟩ := hR m mem_cons_self m' p p1 _ (.refl p) hgood.head hm
    have hrest := fun m2 hm2 m2' p2 p3 rest hs =>
      hR m2 (mem_cons_of_mem _ hm2) m2' p2 p3 rest (hk.shape.trans hs)
    exact ⟨hgood.cons_keeps hk fun htail => (ih hrest htail).1,
      .cons hS (ih hrest (hgood.tail hk)).2⟩

/-- Relations of the managers and of the pools that need no accounting. -/
theorem InTurn.rel {T : BlockPool → BlockPool → Prop} (h : InTurn R ms p ms' p')
    (hrefl : ∀ p, T p p) (htrans : ∀ p p1 p2, T p p1 → T p1 p2 → T p p2)
    (hR : ∀ m ∈ ms, ∀ m' p p', R m p m' p' → S m m' ∧ T p p') :
    Forall₂ S ms ms' ∧ T p p' := by
  induction h with
  | nil p => exact ⟨.nil, hrefl p⟩
  | @cons m m' ms ms' p p1 p' hm hms ih =>
    obtain ⟨hS, hT⟩ := hR m mem_cons_self _ _ _ hm
    obtain ⟨hall, hT'⟩ := ih fun m' hm' => hR m' (mem_cons_of_mem _ hm')
    exact ⟨.cons hS hall, htrans _ _ _ hT hT'⟩

theorem InTurn.forall₂ (h : InTurn R ms p ms' p') (hR : ∀ m m' p p', R m p m' p' → S m m') :
    Forall₂ S ms ms' :=
  (h.rel (T := fun _ _ => True) (fun _ => trivial) (fun _ _ _ _ _ => trivial)
    fun m _ m' p p' hm => ⟨hR m m' p p' hm, trivial⟩).1

theorem forManagers_inTurn {f : Manager → BlockPool → Option (Manager × BlockPool)}
    (he : forManagers f ms p = some (ms', p')) :
    InTurn (fun m p m' p' => f m p = some (m', p')) ms p ms' p' := by
  induction ms generalizing p ms' with
  | nil =>
    cases he
    exact .nil _
  | cons m ms ih =>
    simp only [forManagers, bind, Option.bind_eq_some_iff] at he
    obtain ⟨⟨m1, p1⟩, hm, ⟨ms1, p2⟩, hms, he⟩ := he
    cases he
    exact .cons hm (ih hms)

theorem onManagers_inTurn {f : Manager → BlockPool → Option (Manager × BlockPool)}
    (he : k.onManagers f = some k') : ∃ ms p, k' = { k with managers := ms, pool := p } ∧
      InTurn (fun m p m' p' => f m p = some (m', p')) k.managers k.pool ms p := by
  simp only [onManagers, bind, Option.bind_eq_some_iff] at he
  obtain ⟨⟨ms, p⟩, hms, he⟩ := he
  cases he
  exact ⟨ms, p, rfl, forManagers_inTurn hms⟩

theorem forManagersHits_inTurn
    {f : Manager → List BlockId → BlockPool → Option (Manager × BlockPool)}
    (he : forManagersHits f ms hits p = some (ms', p'))
    (hf : ∀ m hs, (m, hs) ∈ ms.zip hits → ∀ m' p p', f m hs p = some (m', p') → R m p m' p') :
    InTurn R ms p ms' p' := by
  induction ms generalizing hits p ms' with
  | nil =>
    cases he
    exact .nil _
  | cons m ms ih =>
    cases hits with
    | nil => cases he
    | cons hs hits =>
      simp only [forManagersHits, bind, Option.bind_eq_some_iff] at he
      obtain ⟨⟨m1, p1⟩, hm, ⟨ms1, p2⟩, hms, he⟩ := he
      cases he
      exact .cons (hf m hs mem_cons_self _ _ _ hm)
        (ih hms fun m' hs' hmem => hf m' hs' (mem_cons_of_mem _ hmem))

theorem allocateLoop_inTurn {l e : ℕ}
    (he : allocateLoop r n l e ms p = some (news, ms', p')) :
    InTurn (fun m p m' p' => ∃ new, m.allocateNewBlocks r (if m.spec.isCross then e else n) l p =
      some (new, m', p')) ms p ms' p' := by
  induction ms generalizing p ms' news with
  | nil =>
    cases he
    exact .nil _
  | cons m ms ih =>
    simp only [allocateLoop, bind, Option.bind_eq_some_iff] at he
    obtain ⟨⟨new, m1, p1⟩, hm, ⟨news', ms1, p2⟩, hms, he⟩ := he
    cases he
    exact .cons ⟨new, hm⟩ (ih hms)

end

/-! ## The invariant -/

/-- **Block accounting.** Reference counts, free queue and hashes agree with the block tables. -/
def Inv (k : KVCacheManager) : Prop := AllGood k.pool k.managers fun _ => 0

theorem onManagers_inv {f : Manager → BlockPool → Option (Manager × BlockPool)}
    {R : Manager → Manager → Prop}
    (hf : ∀ m m' p p' rest, m.Good p rest → f m p = some (m', p') → m.Keeps m' p p' rest ∧ R m m')
    (h : k.Inv) (he : k.onManagers f = some k') :
    k'.Inv ∧ k.pool.SameShape k'.pool ∧ Forall₂ R k.managers k'.managers := by
  obtain ⟨ms, p, rfl, hturn⟩ := onManagers_inTurn he
  obtain ⟨⟨hs, hgood⟩, hR⟩ := hturn.keeps (fun m _ m' p p' rest _ => hf m m' p p' rest) h
  exact ⟨hgood, hs, hR⟩

theorem removeSkippedBlocks_inv (h : k.Inv) (he : k.removeSkippedBlocks r n = some k') :
    k'.Inv ∧ k.pool.SameShape k'.pool ∧ Forall₂
      (fun m m' => m.SameConfig m' ∧ m'.numCachedBlock = m.numCachedBlock) k.managers k'.managers :=
  onManagers_inv (fun _ _ _ _ _ hm he =>
    let ⟨hk, hc⟩ := Manager.removeSkippedBlocks_keeps hm he
    ⟨hk, hk.config, hc⟩) h he

theorem free_inv (h : k.Inv) (he : k.free r = some k') : k'.Inv :=
  (onManagers_inv (R := fun _ _ => True)
    (fun _ _ _ _ _ hm he => ⟨Manager.free_keeps hm he, trivial⟩) h he).1

theorem commitBlocks_inv {r : KVRequest} (h : k.Inv) (he : k.commitBlocks r n = some k') : k'.Inv :=
  (onManagers_inv (R := fun _ _ => True)
    (fun _ _ _ _ _ hm he => ⟨Manager.cacheBlocks_keeps hm he, trivial⟩) h he).1

theorem cacheBlocks_inv {r : KVRequest} (h : k.Inv)
    (he : k.cacheBlocks r n = some k') : k'.Inv := by
  unfold cacheBlocks at he
  split at he
  · exact commitBlocks_inv h he
  · cases he
    exact h

theorem evictBlocks_inv {bs : List BlockId} (h : k.Inv)
    (he : k.evictBlocks bs = some k') : k'.Inv := by
  simp only [evictBlocks, bind, Option.bind_eq_some_iff] at he
  obtain ⟨p, hp, he⟩ := he
  cases he
  obtain ⟨hs, hr, hh, -⟩ := evictBlocks_spec h.hash hp
  exact AllGood.of_refs h hs hr hh

theorem resetPrefixCache_inv (h : k.Inv) : k.resetPrefixCache.2.Inv := by
  obtain ⟨hs, hr, hh, -⟩ := resetPrefixCache_spec h.hash
  exact AllGood.of_refs h hs hr hh

theorem newStepStarts_inv (h : k.Inv) : k.newStepStarts.Inv where
  ref := h.ref.congr fun b _ => by
    simp only [newStepStarts, references, map_map]
    rfl
  hash := h.hash
  lt m hm := by
    obtain ⟨m0, hm0, rfl⟩ := mem_map.mp hm
    exact h.lt m0 hm0
  nodup m hm := by
    obtain ⟨m0, hm0, rfl⟩ := mem_map.mp hm
    exact h.nodup m0 hm0

/-- A new manager has no tables, so that every block but the null block is free. -/
theorem init_inv {c : KVCacheConfig} (h : init c = some k) : k.Inv := by
  unfold init at h
  split at h
  · simp only [bind, Option.bind_eq_some_iff] at h
    obtain ⟨p, hp, h⟩ := h
    cases h
    obtain ⟨href, hh, -⟩ := init_spec hp
    have hempty : ∀ m ∈ c.specs.mapIdx
        (fun i spec => Manager.init spec c.worldSize c.enableCaching i), m.reqToBlocks = ∅ := by
      intro m hm
      obtain ⟨i, -, rfl⟩ := mem_mapIdx.mp hm
      rfl
    refine ⟨href.congr fun b _ => ?_, hh, fun m hm r bs hr => ?_, fun m hm r bs hr => ?_⟩
    · have hzero : ∀ ms : List Manager, (∀ m ∈ ms, m.reqToBlocks = ∅) → references ms b = 0 := by
        intro ms hms
        induction ms with
        | nil => rfl
        | cons m ms ih =>
          have hm := hms m mem_cons_self
          have ih := ih fun m' hm' => hms m' (mem_cons_of_mem _ hm')
          simp only [references, map_cons, sum_cons, hm] at ih ⊢
          rw [ih]
          rfl
      rw [hzero _ hempty]
    · rw [hempty m hm] at hr
      cases hr
    · rw [hempty m hm] at hr
      cases hr
  · cases h

/-! ## Hits fit into the tables -/

theorem hits_take {hs : List BlockId} (h : Manager.Hits p hs) (n : ℕ) :
    Manager.Hits p (hs.take n) :=
  ⟨fun b hb => h.lt b (mem_of_mem_take hb),
    h.nodup.sublist ((take_sublist n hs).filter _)⟩

theorem hits_nil (p : BlockPool) : Manager.Hits p [] := ⟨by simp, by simp [held]⟩

/-- The list found for each group has the property `P` of that group. -/
def HitsHave (P : ℕ → List BlockId → Prop) (hits : HitsByGroup) : Prop :=
  ∀ i hs, hits[i]? = some (some hs) → P i hs

/-- A property that the lists have which a lookup finds, and that shorter lists keep. -/
structure HitProperty (p : BlockPool) (P : ℕ → List BlockId → Prop) : Prop where
  nil : ∀ i, P i []
  take : ∀ i hs n, P i hs → P i (hs.take n)
  found : ∀ ids hashes rows, RowsCached p ids hashes rows →
    (∀ (i j : ℕ) (hash : Bytes), hashes[i]? = some hash → hashes[j]? = some hash → i = j) →
    ∀ (n g : ℕ), ids[n]? = some g → P g (column p.nullBlock n rows)

variable {P : ℕ → List BlockId → Prop}

theorem setColumns_have {null : BlockId} {rows : List Row} {j : ℕ} {ids : List ℕ}
    {hits : HitsByGroup} (h : HitsHave P hits)
    (hcol : ∀ (n g : ℕ), ids[n]? = some g → P g (column null (j + n) rows)) :
    HitsHave P (setColumns null rows j ids hits) := by
  induction ids generalizing j hits with
  | nil => exact h
  | cons g ids ih =>
    refine ih (fun i hs hi => ?_) fun n g' hn => ?_
    · rw [getElem?_set] at hi
      split at hi
      · rename_i hg
        subst hg
        split at hi
        · cases hi
          exact hcol 0 g rfl
        · cases hi
      · exact h i hs hi
    · rw [Nat.add_right_comm]
      exact hcol (n + 1) g' (by simpa using hn)

theorem length_setColumns {null : BlockId} {rows : List Row} {j : ℕ}
    {hits : HitsByGroup} : (setColumns null rows j gs hits).length = hits.length := by
  induction gs generalizing j hits with
  | nil => rfl
  | cons g gs ih => exact ih.trans length_set

theorem length_truncate {hits : HitsByGroup} : (truncate n gs hits).length = hits.length := by
  induction gs generalizing hits with
  | nil => rfl
  | cons g gs ih => exact ih.trans (length_modify _ _ _)

theorem truncate_have {hits : HitsByGroup} (hP : HitProperty p P) (h : HitsHave P hits) :
    HitsHave P (truncate n gs hits) := by
  induction gs generalizing hits with
  | nil => exact h
  | cons g gs ih =>
    refine ih fun i hs hi => ?_
    rw [getElem?_modify] at hi
    obtain ⟨o, ho, hcut⟩ := Option.map_eq_some_iff.mp hi
    split at hcut
    · obtain ⟨hs0, rfl, rfl⟩ := Option.map_eq_some_iff.mp hcut
      exact hP.take i hs0 n (h i hs0 ho)
    · exact h i hs (hcut ▸ ho)

section

variable {k : KVCacheManager} {lcm : ℕ} {bh : BlockHashes}

variable {gs : List AttentionGroup} {hits hits' : HitsByGroup} {n n' : ℕ} {simple : Bool}

theorem hybridPass_have (hP : HitProperty k.pool P) {curr curr' : ℕ} (h : HitsHave P hits)
    (he : k.hybridPass lcm bh.hashes gs curr hits = some (curr', hits')) :
    HitsHave P hits' ∧ hits'.length = hits.length := by
  induction gs generalizing curr hits with
  | nil =>
    cases he
    exact ⟨h, rfl⟩
  | cons g gs ih =>
    unfold hybridPass at he
    split at he
    · exact ih h he
    · simp only [bind, Option.bind_eq_some_iff] at he
      obtain ⟨hashes, hat, rows, hrows, he⟩ := he
      have hcol := hP.found _ _ _ (findLongestCacheHit_spec hrows)
        fun i j hash hi hj => bh.inj_of_hashesAt g.spec.blockSize_pos hat hi hj
      obtain ⟨h', hlen⟩ := ih (setColumns_have h fun n g' hn => by
        rw [Nat.zero_add]
        exact hcol n g' hn) he
      exact ⟨h', hlen.trans length_setColumns⟩

/-- The loop makes one pass, and then it is left or goes on from a shorter length. -/
theorem hybridLoop_eq {hashes : List Bytes} (fuel : ℕ) :
    k.hybridLoop gs lcm simple hashes fuel n hits =
      (k.hybridPass lcm hashes gs n hits).bind fun q =>
        if n ≤ q.1 then some (n, q.2) else if simple = true then some q else
          match fuel with
          | 0 => some q
          | f + 1 => k.hybridLoop gs lcm simple hashes f q.1 q.2 := by
  cases hpass : k.hybridPass lcm hashes gs n hits with
  | none => cases fuel <;> simp [hybridLoop, hybridStep, hpass]
  | some q =>
    by_cases hle : n ≤ q.1
    · cases fuel <;> simp [hybridLoop, hybridStep, hpass, hle]
    · cases fuel <;> cases simple <;> simp [hybridLoop, hybridStep, hpass, hle]

theorem hybridLoop_cases {hashes : List Bytes} {fuel : ℕ} {q : ℕ × HitsByGroup}
    (he : k.hybridLoop gs lcm simple hashes fuel n hits = some q) :
    ∃ q', k.hybridPass lcm hashes gs n hits = some q' ∧
      ((n ≤ q'.1 ∧ q = (n, q'.2)) ∨ (q'.1 < n ∧ (fuel = 0 ∨ simple = true) ∧ q = q') ∨
        ∃ f, fuel = f + 1 ∧ simple = false ∧ q'.1 < n ∧
          k.hybridLoop gs lcm false hashes f q'.1 q'.2 = some q) := by
  rw [hybridLoop_eq] at he
  obtain ⟨q', hpass, he⟩ := Option.bind_eq_some_iff.mp he
  refine ⟨q', hpass, ?_⟩
  split at he
  · rename_i hle
    cases he
    exact .inl ⟨hle, rfl⟩
  · rename_i hle
    have hlt := Nat.lt_of_not_le hle
    cases simple with
    | true =>
      cases he
      exact .inr (.inl ⟨hlt, .inr rfl, rfl⟩)
    | false =>
      cases fuel with
      | zero =>
        cases he
        exact .inr (.inl ⟨hlt, .inl rfl, rfl⟩)
      | succ f => exact .inr (.inr ⟨f, rfl, rfl, hlt, he⟩)

theorem hybridLoop_have (hP : HitProperty k.pool P) {fuel : ℕ} (h : HitsHave P hits)
    (he : k.hybridLoop gs lcm simple bh.hashes fuel n hits = some (n', hits')) :
    HitsHave P hits' ∧ hits'.length = hits.length := by
  induction n using Nat.strong_induction_on generalizing fuel hits simple with
  | _ n ih =>
    obtain ⟨q', hpass, hcases⟩ := hybridLoop_cases he
    obtain ⟨h1, hlen⟩ := hybridPass_have hP h hpass
    rcases hcases with ⟨-, heq⟩ | ⟨-, -, heq⟩ | ⟨f, -, -, hlt, he⟩
    · cases heq
      exact ⟨h1, hlen⟩
    · cases heq
      exact ⟨h1, hlen⟩
    · obtain ⟨h', hlen'⟩ := ih q'.1 hlt h1 he
      exact ⟨h', hlen'.trans hlen⟩

/-- More fuel than the length changes nothing: the loop has been left by then. -/
theorem hybridLoop_succ {hashes : List Bytes} {fuel : ℕ} (hfuel : n ≤ fuel) :
    k.hybridLoop gs lcm simple hashes (fuel + 1) n hits =
      k.hybridLoop gs lcm simple hashes fuel n hits := by
  induction fuel generalizing n hits with
  | zero =>
    rw [hybridLoop_eq, hybridLoop_eq 0]
    congr 1
    funext q
    rw [if_pos (hfuel.trans q.1.zero_le), if_pos (hfuel.trans q.1.zero_le)]
  | succ fuel ih =>
    rw [hybridLoop_eq, hybridLoop_eq (fuel + 1)]
    congr 1
    funext q
    split
    · rfl
    · split
      · rfl
      · exact ih (by omega)

def attentionGroups (k : KVCacheManager) : List AttentionGroup :=
  AttentionGroup.ofSpecs (k.managers.map (·.spec))

def lcmBlockSize (k : KVCacheManager) : ℕ :=
  (k.attentionGroups.map (·.spec.blockSize)).foldl Nat.lcm 1

/-- Two attention groups, the first of full attention: one pass is enough. -/
def isSimpleHybrid (k : KVCacheManager) : Bool :=
  decide (k.attentionGroups.length = 2) && (k.attentionGroups.head?.map (·.spec.isFull)).getD false

/-- The `while` loop of `find_longest_cache_hit` with `fuel` passes after the first. -/
def search (k : KVCacheManager) (hashes : List Bytes) (maxCacheHitLength fuel : ℕ) :
    Option (ℕ × HitsByGroup) :=
  k.hybridLoop k.attentionGroups k.lcmBlockSize k.isSimpleHybrid hashes fuel maxCacheHitLength
    (replicate k.managers.length none)

/-- The cut of the first group at the end. -/
def cutFirst (gs : List AttentionGroup) (hitLength : ℕ) (hits : HitsByGroup) : HitsByGroup :=
  match gs with
  | g :: _ =>
    if g.spec.isFull then truncate (hitLength / g.spec.blockSize) g.groupIds hits else hits
  | [] => hits

theorem hybridHits_eq (k : KVCacheManager) (hashes : List Bytes) (maxCacheHitLength : ℕ) :
    k.hybridHits hashes maxCacheHitLength =
      (k.search hashes maxCacheHitLength maxCacheHitLength).map fun q =>
        ((cutFirst k.attentionGroups q.1 q.2).map (·.getD []), q.1) := by
  show ((k.search hashes maxCacheHitLength maxCacheHitLength).bind fun q =>
    some ((cutFirst k.attentionGroups q.1 q.2).map (·.getD []), q.1)) = _
  cases k.search hashes maxCacheHitLength maxCacheHitLength <;> rfl

theorem length_cutFirst : (cutFirst gs n hits).length = hits.length := by
  unfold cutFirst
  split
  · split
    · exact length_truncate
    · rfl
  · rfl

theorem cutFirst_have (hP : HitProperty k.pool P) (h : HitsHave P hits) :
    HitsHave P (cutFirst gs n hits) := by
  unfold cutFirst
  split
  · split
    · exact truncate_have hP h
    · exact h
  · exact h

theorem hybridHits_have (hP : HitProperty k.pool P) {hits : List (List BlockId)}
    (he : k.hybridHits bh.hashes n = some (hits, n')) :
    hits.length = k.managers.length ∧ ∀ i hs, hits[i]? = some hs → P i hs := by
  rw [hybridHits_eq] at he
  obtain ⟨⟨len, found⟩, hloop, he⟩ := Option.map_eq_some_iff.mp he
  cases he
  have hnone : HitsHave P (replicate k.managers.length none) := by
    intro i hs hi
    rw [getElem?_replicate] at hi
    split at hi <;> cases hi
  obtain ⟨h, hlen⟩ := hybridLoop_have hP hnone hloop
  refine ⟨?_, fun i hs hi => ?_⟩
  · rw [length_map, length_cutFirst, hlen, length_replicate]
  · rw [getElem?_map] at hi
    obtain ⟨o, ho, rfl⟩ := Option.map_eq_some_iff.mp hi
    cases o with
    | none => exact hP.nil i
    | some hs => exact cutFirst_have hP h i hs ho

/-- `get_computed_blocks` returns one list for each manager, with the property of its group. -/
theorem getComputedBlocks_have (hP : HitProperty k.pool P) {r : KVRequest}
    {hits : List (List BlockId)} (he : k.getComputedBlocks r = some (hits, n)) :
    hits.length = k.managers.length ∧ ∀ i hs, hits[i]? = some hs → P i hs := by
  unfold getComputedBlocks at he
  split at he
  · cases he
    refine ⟨by simp [emptyHits], fun i hs hi => ?_⟩
    rw [emptyHits, getElem?_map] at hi
    obtain ⟨m, -, rfl⟩ := Option.map_eq_some_iff.mp hi
    exact hP.nil i
  · unfold findLongestHits at he
    split at he
    · rename_i m hm
      simp only [unitaryHits, bind, Option.bind_eq_some_iff] at he
      obtain ⟨rows, hrows, he⟩ := he
      cases he
      have hcol := hP.found _ _ _ (findLongestCacheHit_spec hrows)
        (fun i j hash hi hj => (getElem?_inj (List.getElem?_eq_some_iff.mp hi).1
          r.blockHashes.nodup).mp (hi.trans hj.symm)) 0 0 rfl
      refine ⟨by simp [hm], fun i hs hi => ?_⟩
      obtain ⟨rfl, rfl⟩ : i = 0 ∧ column k.pool.nullBlock 0 rows = hs := by
        cases i with
        | zero => simpa using hi
        | succ i => simp at hi
      exact hcol
    · exact hybridHits_have hP he

/-- **Hits fit.** `get_computed_blocks` returns one list for each manager, and each of them can be
put into a table. -/
theorem getComputedBlocks_ok (h : k.Inv) {r : KVRequest} {hits : List (List BlockId)}
    (he : k.getComputedBlocks r = some (hits, n)) :
    hits.length = k.managers.length ∧ ∀ hs ∈ hits, Manager.Hits k.pool hs := by
  obtain ⟨hlen, hok⟩ := getComputedBlocks_have (P := fun _ hs => Manager.Hits k.pool hs)
    ⟨fun _ => hits_nil _, fun _ _ n h => hits_take h n,
      fun _ _ _ hrows hinj n _ _ => hrows.column_hits h.ref h.hash hinj n⟩ he
  refine ⟨hlen, fun hs hmem => ?_⟩
  obtain ⟨i, hi⟩ := mem_iff_getElem?.mp hmem
  exact hok i hs hi

end

/-! ## Allocating slots -/

/-- The hits fit next to the external tokens: no manager that does not follow the request yet gets
more of them than the computed tokens have blocks. -/
def HitsFit (k : KVCacheManager) (r : RequestId) (hits : List (List BlockId))
    (numLocal numExternal : ℕ) : Prop :=
  Forall₂ (fun m hs => m.Fits r hs numLocal numExternal) k.managers hits

/-- A manager adds hits of the pool `p0` that fit. -/
def AddsHits (p0 : BlockPool) (r : RequestId) (numLocal numExternal : ℕ) (m : Manager)
    (p : BlockPool) (m' : Manager) (p' : BlockPool) : Prop :=
  ∃ hs, Manager.Hits p0 hs ∧ m.Fits r hs numLocal numExternal ∧
    m.allocateNewComputedBlocks r hs numLocal numExternal p = some (m', p')

theorem AddsHits.keeps {p0 : BlockPool} {m m' : Manager}
    (h : AddsHits p0 r numLocal numExternal m p m' p') (hs : p0.SameShape p)
    (hgood : m.Good p rest) : m.Keeps m' p p' rest := by
  obtain ⟨_, hhits, hfit, hm⟩ := h
  exact Manager.allocateNewComputedBlocks_keeps hgood (hhits.of_shape hs) hfit hm

/-- Nothing is added, or the managers add computed blocks in turn. -/
theorem addComputed_inTurn (hhits : ∀ hs ∈ hits, Manager.Hits k.pool hs)
    (hfit : k.HitsFit r hits numLocal numExternal)
    (he : k.addComputed r hits numLocal numExternal = some k') : k' = k ∨
      ∃ ms p, k' = { k with managers := ms, pool := p } ∧
        InTurn (AddsHits k.pool r numLocal numExternal) k.managers k.pool ms p := by
  unfold addComputed at he
  split at he
  · simp only [allocateNewComputedBlocks, bind, Option.bind_eq_some_iff] at he
    obtain ⟨⟨ms, p⟩, hms, he⟩ := he
    cases he
    exact .inr ⟨ms, p, rfl, forManagersHits_inTurn hms fun m hs hmem m' p p' hm =>
      ⟨hs, hhits hs (of_mem_zip hmem).2, (forall₂_iff_zip.mp hfit).2 hmem, hm⟩⟩
  · cases he
    exact .inl rfl

theorem allocateNewBlocks_inv {m e : ℕ} (h : k.Inv)
    (he : k.allocateNewBlocks r n m e = some (news, k')) : k'.Inv := by
  simp only [allocateNewBlocks, bind, Option.bind_eq_some_iff] at he
  obtain ⟨⟨news', ms, p⟩, hms, he⟩ := he
  cases he
  refine ((allocateLoop_inTurn hms).keeps (S := fun _ _ => True)
    (fun m _ m' p1 p2 rest _ hgood hR => ?_) h).1.2
  obtain ⟨new, hm⟩ := hR
  exact ⟨Manager.allocateNewBlocks_keeps hgood hm, trivial⟩

theorem addComputed_inv (h : k.Inv) (hhits : ∀ hs ∈ hits, Manager.Hits k.pool hs)
    (hfit : k.HitsFit r hits numLocal numExternal)
    (he : k.addComputed r hits numLocal numExternal = some k') : k'.Inv := by
  rcases addComputed_inTurn hhits hfit he with rfl | ⟨ms, p, rfl, hturn⟩
  · exact h
  · exact (hturn.keeps (S := fun _ _ => True)
      (fun m _ m' p1 p2 rest hs hgood hR => ⟨hR.keeps hs hgood, trivial⟩) h).1.2

/-- The parts of `grow`. -/
theorem grow_cases {r : KVRequest} {a : SlotArgs} (he : k.grow r n hits a = some (news, k')) :
    ∃ k1 k2 slots main cached, k.addComputed r.requestId hits (r.numComputedTokens + n).toNat
        a.numExternalComputedTokens = some k1 ∧
      k1.allocateNewBlocks r.requestId slots main a.numEncoderTokens = some (news, k2) ∧
      main = (min (r.numComputedTokens + n + a.numExternalComputedTokens) k.maxModelLen +
        a.numNewTokens).toNat ∧
      slots = (min (min (r.numComputedTokens + n + a.numExternalComputedTokens) k.maxModelLen +
        a.numNewTokens + a.numLookaheadTokens) k.maxModelLen).toNat ∧
      (k' = k2 ∨ k2.commitBlocks r cached = some k') := by
  obtain ⟨k1, hk1, he⟩ := Option.bind_eq_some_iff.mp he
  obtain ⟨⟨news', k2⟩, hk2, he⟩ := Option.bind_eq_some_iff.mp he
  dsimp only at he
  split at he
  · cases he
    exact ⟨k1, _, _, _, 0, hk1, hk2, rfl, rfl, .inl rfl⟩
  · obtain ⟨k3, hk3, he⟩ := Option.bind_eq_some_iff.mp he
    cases he
    exact ⟨k1, k2, _, _, _, hk1, hk2, rfl, rfl, .inr hk3⟩

theorem grow_inv {r : KVRequest} {a : SlotArgs} (h : k.Inv)
    (hhits : ∀ hs ∈ hits, Manager.Hits k.pool hs)
    (hfit : k.HitsFit r.requestId hits (r.numComputedTokens + n).toNat
      a.numExternalComputedTokens) (he : k.grow r n hits a = some (news, k')) : k'.Inv := by
  obtain ⟨k1, k2, _, _, _, hk1, hk2, -, -, he⟩ := grow_cases he
  have h2 := allocateNewBlocks_inv (addComputed_inv h hhits hfit hk1) hk2
  rcases he with rfl | hk3
  · exact h2
  · exact commitBlocks_inv h2 hk3

/-- The condition reads nothing that removing skipped blocks changes. -/
theorem fits_of_same
    (hsame : Forall₂ (fun m m' => m.SameConfig m' ∧ m'.numCachedBlock = m.numCachedBlock)
      ms ms') (hfit : Forall₂ (fun m hs => m.Fits r hs numLocal numExternal) ms hits) :
    Forall₂ (fun m hs => m.Fits r hs numLocal numExternal) ms' hits := by
  induction hsame generalizing hits with
  | nil => exact hfit
  | cons hm _ ih =>
    cases hfit with
    | cons hf hfit =>
      refine .cons ?_ (ih hfit)
      unfold Manager.Fits at hf ⊢
      rw [hm.1.spec, hm.1.blockSize, hm.2]
      exact hf

/-- Skipped blocks are removed; then there are too few blocks, or the tables grow. -/
theorem allocateSlots_cases {r : KVRequest} {a : SlotArgs} {res : Option (List (List BlockId))}
    (he : k.allocateSlots r n hits a = some (res, k')) :
    ¬ (a.numNewTokens = 0 ∧ a.numExternalComputedTokens = 0) ∧ ∃ k1 total,
      k.removeSkippedBlocks r.requestId total = some k1 ∧
      (res = none ∧ k' = k1 ∨ ∃ news, res = some news ∧ k1.grow r n hits a = some (news, k')) := by
  unfold allocateSlots at he
  split at he
  · cases he
  · rename_i hask
    obtain ⟨k1, hk1, he⟩ := Option.bind_eq_some_iff.mp he
    obtain ⟨m, -, he⟩ := Option.bind_eq_some_iff.mp he
    refine ⟨hask, k1, _, hk1, ?_⟩
    split at he
    · cases he
      exact .inl ⟨rfl, rfl⟩
    · obtain ⟨⟨news, k2⟩, hk2, he⟩ := Option.bind_eq_some_iff.mp he
      cases he
      exact .inr ⟨news, rfl, hk2⟩

theorem allocateSlots_inv {r : KVRequest} {a : SlotArgs} {res : Option (List (List BlockId))}
    (h : k.Inv) (hhits : ∀ hs ∈ hits, Manager.Hits k.pool hs)
    (hfit : k.HitsFit r.requestId hits (r.numComputedTokens + n).toNat
      a.numExternalComputedTokens) (he : k.allocateSlots r n hits a = some (res, k')) : k'.Inv := by
  obtain ⟨-, k1, total, hk1, he⟩ := allocateSlots_cases he
  obtain ⟨h1, hs, hsame⟩ := removeSkippedBlocks_inv h hk1
  rcases he with ⟨-, rfl⟩ | ⟨news, -, hk2⟩
  · exact h1
  · exact grow_inv h1 (fun hs' hmem => (hhits hs' hmem).of_shape hs) (fits_of_same hsame hfit) hk2

end KVCacheManager

end Nvllm.KVCache
