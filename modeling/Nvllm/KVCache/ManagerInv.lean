import Nvllm.KVCache.Manager
import Nvllm.KVCache.PoolInv

/-! # What the managers preserve

The references to a block are its occurrences in the block tables of all managers. The invariant of
one manager is stated for arbitrary numbers `rest` of references from elsewhere, so that a method
that runs on one manager after the other keeps the invariant of all of them.

A table holds repeated null blocks; what is counted are the blocks it *holds*, the others. Every
change to a table is described by a permutation of the held blocks.
-/

namespace Nvllm.KVCache

open BlockPool List Option

/-! ## Held blocks -/

/-- The blocks of a table other than the null block. -/
def held (null : BlockId) (bs : List BlockId) : List BlockId := bs.filter (· ≠ null)

section held

variable {null b c : BlockId} {bs bs' : List BlockId}

theorem mem_held : b ∈ held null bs ↔ b ∈ bs ∧ b ≠ null := by simp [held]

theorem held_append : held null (bs ++ bs') = held null bs ++ held null bs' := by simp [held]

theorem held_replicate (n : ℕ) : held null (replicate n null) = [] := by simp [held]

theorem held_of_notMem (h : null ∉ bs) : held null bs = bs := by
  apply filter_eq_self.mpr
  intro b hb
  simpa using fun he : b = null => h (he ▸ hb)

theorem count_held (bs : List BlockId) (hc : c ≠ null) : (held null bs).count c = bs.count c := by
  rw [held, count_filter (by simpa using hc)]

theorem held_reverse : held null bs.reverse = (held null bs).reverse := by
  simp [held, filter_reverse]

/-- Replacing a proper block by the null block removes it from the held ones. -/
theorem held_set_perm {j : ℕ} (hj : bs[j]? = some b) (hb : b ≠ null) :
    (held null bs).Perm (b :: held null (bs.set j null)) := by
  induction bs generalizing j with
  | nil => simp at hj
  | cons a bs ih =>
    cases j with
    | zero =>
      obtain rfl : a = b := by simpa using hj
      simp [held, hb]
    | succ j =>
      have ih := ih (j := j) (by simpa using hj)
      by_cases ha : a = null
      · simpa [held, ha] using ih
      · have hcons : held null (a :: bs) = a :: held null bs := by simp [held, ha]
        have hset : held null ((a :: bs).set (j + 1) null) = a :: held null (bs.set j null) := by
          simp [held, ha]
        rw [hcons, hset]
        exact (ih.cons a).trans (List.Perm.swap _ _ _)

theorem set_null_eq {j : ℕ} (hj : bs[j]? = some null) : bs.set j null = bs := by
  obtain ⟨hlt, heq⟩ := List.getElem?_eq_some_iff.mp hj
  rw [← heq, set_getElem_self]

/-- A table in which no proper block stands at two positions holds each block once. -/
theorem held_nodup_of_inj
    (h : ∀ (i j : ℕ) (b : BlockId), bs[i]? = some b → bs[j]? = some b → b ≠ null → i = j) :
    (held null bs).Nodup := by
  induction bs with
  | nil => simp [held]
  | cons a bs ih =>
    have htail : (held null bs).Nodup := by
      apply ih
      intro i j b hi hj hb
      exact Nat.succ.inj (h (i + 1) (j + 1) b (by simpa using hi) (by simpa using hj) hb)
    by_cases ha : a = null
    · simpa [held, ha] using htail
    · have hcons : held null (a :: bs) = a :: held null bs := by simp [held, ha]
      rw [hcons, nodup_cons]
      refine ⟨fun hmem => ?_, htail⟩
      obtain ⟨j, hj⟩ := mem_iff_getElem?.mp (mem_held.mp hmem).1
      have := h 0 (j + 1) a (by simp) (by simpa using hj) ha
      omega

end held

/-! ## The loops over a table -/

namespace Manager

/-- `remove_skipped_blocks` splits the held blocks into the removed ones and those left. -/
theorem removeLoop_perm (null : BlockId) (n : ℕ) (bs : List BlockId) :
    (held null bs).Perm ((removeLoop null n bs).1 ++ held null (removeLoop null n bs).2) ∧
      null ∉ (removeLoop null n bs).1 ∧ ∀ b ∈ (removeLoop null n bs).2, b ∈ bs ∨ b = null := by
  induction n generalizing bs with
  | zero => exact ⟨by simp [removeLoop], by simp [removeLoop], fun b hb => .inl hb⟩
  | succ n ih =>
    unfold removeLoop
    cases hn : bs[n]? with
    | none => exact ⟨by simp, by simp, fun b hb => .inl hb⟩
    | some b =>
      by_cases hb : b = null
      · simp only [if_pos hb]
        exact ⟨by simp, by simp, fun c hc => .inl hc⟩
      · obtain ⟨hperm, hnot, hmem⟩ := ih (bs.set n null)
        simp only [if_neg hb]
        refine ⟨(held_set_perm hn hb).trans (hperm.cons b), ?_, fun c hc => ?_⟩
        · simpa using ⟨fun he => hb he.symm, hnot⟩
        · rcases hmem c hc with h | h
          · exact mem_or_eq_of_mem_set h
          · exact .inr h

/-- Moving speculative blocks to the end keeps the held blocks. -/
theorem moveLoop_perm {null : BlockId} {k : ℤ} {n : ℕ} {i : ℤ} {bs bs' : List BlockId}
    (h : moveLoop null k n i bs = some bs') :
    (held null bs).Perm (held null bs') ∧ ∀ b ∈ bs', b ∈ bs ∨ b = null := by
  induction n generalizing i bs with
  | zero =>
    cases h
    exact ⟨.refl _, fun b hb => .inl hb⟩
  | succ n ih =>
    unfold moveLoop at h
    split at h
    · simp only [bind, bind_eq_some_iff] at h
      obtain ⟨j, -, b, hb, h⟩ := h
      obtain ⟨hperm, hmem⟩ := ih h
      obtain ⟨hlt, -⟩ := List.getElem?_eq_some_iff.mp hb
      have hb' : (bs ++ [b])[j]? = some b := by rw [getElem?_append_left hlt, hb]
      refine ⟨?_, fun c hc => ?_⟩
      · -- the copy at the end makes up for the entry that becomes null
        by_cases hn : b = null
        · subst hn
          rw [set_null_eq hb', held_append] at hperm
          simpa [held] using hperm
        · have happ : held null (bs ++ [b]) = held null bs ++ [b] := by
            rw [held_append, held_of_notMem (show null ∉ [b] by simpa using Ne.symm hn)]
          have hset := held_set_perm hb' hn
          rw [happ] at hset
          have hswap : (held null bs ++ [b]).Perm (b :: held null bs) := perm_append_singleton _ _
          exact ((Perm.cons_inv (hswap.symm.trans hset))).trans hperm
      · rcases hmem c hc with hc | hc
        · rcases mem_or_eq_of_mem_set hc with hc | hc
          · rw [mem_append, mem_singleton] at hc
            rcases hc with hc | rfl
            · exact .inl hc
            · exact .inl (mem_of_getElem? hb)
          · exact .inr hc
        · exact .inr hc
    · cases h
      exact ⟨.refl _, fun b hb => .inl hb⟩

/-- After the loop the table is one block short of the required number, unless nothing was moved. -/
theorem moveLoop_length {null : BlockId} {k : ℤ} {n : ℕ} {i : ℤ} {bs bs' : List BlockId}
    (h : moveLoop null k n i bs = some bs') :
    (bs'.length : ℤ) = bs.length + min (n : ℤ) (max 0 (k - i)) := by
  induction n generalizing i bs with
  | zero =>
    cases h
    simp
  | succ n ih =>
    unfold moveLoop at h
    split at h
    · simp only [bind, bind_eq_some_iff] at h
      obtain ⟨j, -, b, -, h⟩ := h
      have ih := ih h
      simp only [length_set, length_append, length_cons, length_nil] at ih
      push_cast at ih ⊢
      omega
    · cases h
      omega

end Manager

/-! ## The invariant of the tables -/

/-- Number of occurrences of a block in the tables of one manager. -/
def occurrences (t : Dict RequestId (List BlockId)) (b : BlockId) : ℕ := t.sumBy (List.count b)

section

variable (t : Dict RequestId (List BlockId)) (r : RequestId) (b : BlockId)

theorem elim_count : (t.get? r).elim 0 (List.count b) = (t.getD r []).count b := by
  unfold Dict.getD
  cases t.get? r <;> rfl

theorem occurrences_set (bs : List BlockId) :
    occurrences (t.set r bs) b + (t.getD r []).count b = occurrences t b + bs.count b := by
  rw [← elim_count]
  exact Dict.sumBy_set _ _ _ _

theorem occurrences_erase :
    occurrences (t.erase r) b + (t.getD r []).count b = occurrences t b := by
  rw [← elim_count]
  exact Dict.sumBy_erase _ _ _

end

/-- The pool agrees with the tables of one manager and `rest` references from elsewhere. -/
structure TableInv (p : BlockPool) (t : Dict RequestId (List BlockId)) (rest : BlockId → ℕ) :
    Prop where
  ref : p.RefInv fun b => occurrences t b + rest b
  hash : p.HashInv
  lt : ∀ r bs, t.get? r = some bs → ∀ b ∈ bs, b < p.numGpuBlocks
  nodup : ∀ r bs, t.get? r = some bs → (held p.nullBlock bs).Nodup

namespace TableInv

variable {p p' : BlockPool} {t : Dict RequestId (List BlockId)} {rest : BlockId → ℕ}
  {r : RequestId} {bs : List BlockId}

theorem lt_getD (h : TableInv p t rest) : ∀ b ∈ t.getD r [], b < p.numGpuBlocks := by
  unfold Dict.getD
  cases hr : t.get? r with
  | none => simp
  | some bs => exact h.lt r bs hr

theorem nodup_getD (h : TableInv p t rest) : (held p.nullBlock (t.getD r [])).Nodup := by
  unfold Dict.getD
  cases hr : t.get? r with
  | none => simp [held]
  | some bs => exact h.nodup r bs hr

/-- The tables are old ones, or have blocks of the pool and no proper one twice. -/
theorem replace {t' : Dict RequestId (List BlockId)} (h : TableInv p t rest) (hs : p.SameShape p')
    (hh : p'.HashInv) (href : p'.RefInv fun b => occurrences t' b + rest b)
    (ht : ∀ r bs, t'.get? r = some bs → t.get? r = some bs ∨
      (∀ b ∈ bs, b < p.numGpuBlocks) ∧ (held p.nullBlock bs).Nodup) : TableInv p' t' rest where
  ref := href
  hash := hh
  lt r bs hbs b hb := by
    rw [hs.numGpuBlocks]
    exact (ht r bs hbs).elim (fun hold => h.lt r bs hold b hb) fun hnew => hnew.1 b hb
  nodup r bs hbs := by
    rw [hs.nullBlock]
    exact (ht r bs hbs).elim (h.nodup r bs) And.right

/-- A pool with the same counts, if the hashes are still sound. -/
theorem of_refs (h : TableInv p t rest) (hs : p.SameShape p') (hr : p.SameRefs p')
    (hh : p'.HashInv) : TableInv p' t rest :=
  h.replace hs hh (h.ref.of_same hs hr) fun _ _ => .inl

/-- **Replacing one table**, with the pool changed accordingly. -/
theorem set (h : TableInv p t rest) (hs : p.SameShape p') (hh : p'.HashInv) {occ : BlockId → ℕ}
    (href : p'.RefInv occ) (hocc : ∀ b, b ≠ p.nullBlock →
      occ b + (t.getD r []).count b = occurrences t b + rest b + bs.count b)
    (hlt : ∀ b ∈ bs, b < p.numGpuBlocks) (hnd : (held p.nullBlock bs).Nodup) :
    TableInv p' (t.set r bs) rest := by
  refine h.replace hs hh (href.congr fun b hb => ?_) fun r' bs' hget => ?_
  · rw [hs.nullBlock] at hb
    have h1 := hocc b hb
    have h2 := occurrences_set t r b bs
    omega
  · rw [Dict.get?_set] at hget
    split at hget
    · cases hget
      exact .inr ⟨hlt, hnd⟩
    · exact .inl hget

/-- Writing back a table that holds the same blocks. -/
theorem set_perm (h : TableInv p t rest)
    (hperm : (held p.nullBlock (t.getD r [])).Perm (held p.nullBlock bs))
    (hmem : ∀ b ∈ bs, b ∈ t.getD r [] ∨ b = p.nullBlock) : TableInv p (t.set r bs) rest := by
  refine h.set (.refl p) h.hash h.ref (fun b hb => ?_) (fun b hb => ?_) (hperm.nodup h.nodup_getD)
  · rw [← count_held _ hb, ← count_held bs hb, hperm.count_eq]
  · rcases hmem b hb with hb | rfl
    · exact h.lt_getD b hb
    · exact h.ref.null_lt

theorem set_self (h : TableInv p t rest) : TableInv p (t.set r (t.getD r [])) rest :=
  h.set_perm (.refl _) fun _ hb => .inl hb

theorem count_le_occurrences (t : Dict RequestId (List BlockId)) (r : RequestId) (b : BlockId) :
    (t.getD r []).count b ≤ occurrences t b := by
  have := occurrences_erase t r b
  omega

/-- Blocks of a table can be freed. -/
theorem free_some (h : TableInv p t rest) {removed : List BlockId}
    (hin : ∀ b ∈ removed, b ∈ t.getD r []) (hnd : (held p.nullBlock removed).Nodup) :
    ∃ p', p.freeBlocks removed = some p' ∧
      p'.RefInv (fun b => occurrences t b + rest b - removed.count b) ∧ p.SameShape p' ∧
      p.SameHashes p' := by
  refine freeBlocks_spec h.ref (fun b hb => h.lt_getD b (hin b hb)) hnd fun b hb _ => ?_
  have h1 : 0 < (t.getD r []).count b := count_pos_iff.mpr (hin b hb)
  have h2 := count_le_occurrences t r b
  omega

theorem free_of_perm (h : TableInv p t rest) {removed : List BlockId}
    (hperm : (held p.nullBlock (t.getD r [])).Perm (removed ++ held p.nullBlock bs)) :
    ∃ p', p.freeBlocks removed = some p' ∧
      p'.RefInv (fun b => occurrences t b + rest b - removed.count b) ∧ p.SameShape p' ∧
      p.SameHashes p' :=
  h.free_some (fun _ hb => (mem_held.mp (hperm.mem_iff.mpr (mem_append_left _ hb))).1)
    ((nodup_append.mp (hperm.nodup h.nodup_getD)).1.filter _)

/-- **Freeing** the blocks `removed` and writing back a table that holds the others. -/
theorem free_set (h : TableInv p t rest) {removed : List BlockId}
    (hperm : (held p.nullBlock (t.getD r [])).Perm (removed ++ held p.nullBlock bs))
    (hmem : ∀ b ∈ bs, b ∈ t.getD r [] ∨ b = p.nullBlock) (hfree : p.freeBlocks removed = some p') :
    p.SameShape p' ∧ p.SameHashes p' ∧ TableInv p' (t.set r bs) rest := by
  have hnd := hperm.nodup h.nodup_getD
  have hcount : ∀ b, b ≠ p.nullBlock →
      (t.getD r []).count b = removed.count b + bs.count b := by
    intro b hb
    rw [← count_held _ hb, hperm.count_eq, count_append, count_held _ hb]
  obtain ⟨p1, hp1, href, hs, hh⟩ := h.free_of_perm hperm
  obtain rfl : p1 = p' := Option.some.inj (hp1.symm.trans hfree)
  refine ⟨hs, hh, h.set hs (h.hash.of_same hs hh) href (fun b hb => ?_) (fun b hb => ?_)
    (nodup_append.mp hnd).2.1⟩
  · have h1 := hcount b hb
    have h2 := count_le_occurrences t r b
    omega
  · rcases hmem b hb with hb | rfl
    · exact h.lt_getD b hb
    · exact h.ref.null_lt

/-- **Freeing a whole table.** -/
theorem free_erase (h : TableInv p t rest) (hfree : p.freeBlocks (t.getD r []).reverse = some p') :
    p.SameShape p' ∧ p.SameHashes p' ∧ TableInv p' (t.erase r) rest := by
  have hnd := h.nodup_getD (r := r)
  rw [← nodup_reverse, ← held_reverse] at hnd
  obtain ⟨p1, hp1, href, hs, hh⟩ := h.free_some (fun b hb => mem_reverse.mp hb) hnd
  obtain rfl : p1 = p' := Option.some.inj (hp1.symm.trans hfree)
  refine ⟨hs, hh, h.replace hs (h.hash.of_same hs hh) (href.congr fun b hb => ?_)
    fun r' bs' hget => .inl (Dict.get?_of_erase hget)⟩
  rw [count_reverse]
  have h1 := occurrences_erase t r b
  omega

/-- **Appending new blocks** to what the table of a request becomes. -/
theorem append_new (h : TableInv p (t.set r bs) rest) {n : ℕ} {new : List BlockId}
    (hget : p.getNewBlocks n = some (new, p')) :
    p.SameShape p' ∧ TableInv p' (t.set r (bs ++ new)) rest ∧ new.length = n ∧
      ∀ c, (p'.block c).blockHash =
        if p.enableCaching = true ∧ c ∈ new then none else (p.block c).blockHash := by
  obtain ⟨hlen, hnd, hfresh, href, hh, hs, hhash⟩ := getNewBlocks_spec h.ref h.hash hget
  have hbs : (t.set r bs).getD r [] = bs := by simp [Dict.getD]
  have hset : (t.set r bs).set r (bs ++ new) = t.set r (bs ++ new) := Dict.set_set _ _ _ _
  refine ⟨hs, ?_, hlen, hhash⟩
  rw [← hset]
  have hnull : p.nullBlock ∉ new := fun hm => (hfresh _ hm).2.1 rfl
  refine h.set hs hh href (fun b hb => ?_) (fun b hb => ?_) ?_
  · rw [hbs, count_append]
    omega
  · rw [mem_append] at hb
    rcases hb with hb | hb
    · exact h.lt_getD (r := r) b (by rwa [hbs])
    · exact (hfresh b hb).1
  · rw [held_append, held_of_notMem hnull]
    refine nodup_append.mpr ⟨?_, hnd, ?_⟩
    · have := h.nodup_getD (r := r)
      rwa [hbs] at this
    · -- a new block was held nowhere before
      rintro b hb c hc rfl
      have h1 := (hfresh b hc).2.2
      have h2 := occurrences_erase (t.set r bs) r b
      have h3 : 0 < bs.count b := count_pos_iff.mpr (mem_held.mp hb).1
      rw [hbs] at h2
      omega

end TableInv

/-! ## The methods of one manager -/

namespace Manager

/-- What no method changes. -/
structure SameConfig (m m' : Manager) : Prop where
  spec : m'.spec = m.spec
  worldSize : m'.worldSize = m.worldSize
  enableCaching : m'.enableCaching = m.enableCaching
  groupId : m'.groupId = m.groupId

theorem SameConfig.refl (m : Manager) : m.SameConfig m := ⟨rfl, rfl, rfl, rfl⟩

theorem SameConfig.trans {m1 m2 m3 : Manager} (h : m1.SameConfig m2) (h' : m2.SameConfig m3) :
    m1.SameConfig m3 :=
  ⟨h'.1.trans h.1, h'.2.trans h.2, h'.3.trans h.3, h'.4.trans h.4⟩

variable {m m' : Manager}

theorem SameConfig.blockSize (h : m.SameConfig m') : m'.blockSize = m.blockSize := by
  rw [Manager.blockSize, Manager.blockSize, h.spec, h.worldSize]

theorem SameConfig.getNumSkippedTokens (h : m.SameConfig m') (n : ℕ) :
    m'.getNumSkippedTokens n = m.getNumSkippedTokens n := by
  rw [Manager.getNumSkippedTokens, Manager.getNumSkippedTokens, h.spec]

theorem SameConfig.numSkippedBlocks (h : m.SameConfig m') (n : ℕ) :
    m'.numSkippedBlocks n = m.numSkippedBlocks n := by
  rw [Manager.numSkippedBlocks, Manager.numSkippedBlocks, h.getNumSkippedTokens, h.blockSize]

theorem blockSize_pos (m : Manager) : 0 < m.blockSize := by
  unfold blockSize
  split
  · exact Nat.mul_pos m.spec.blockSize_pos (by omega)
  · exact m.spec.blockSize_pos

theorem table_setTable (m : Manager) (r r' : RequestId) (bs : List BlockId) :
    (m.setTable r bs).table r' = if r' = r then bs else m.table r' := by
  simp only [setTable, table, Dict.getD, Dict.get?_set]
  split <;> rfl

theorem table_setTable_of_eq {r : RequestId} {bs : List BlockId} (h : bs = m.table r)
    (r' : RequestId) : (m.setTable r bs).table r' = m.table r' := by
  rw [table_setTable]
  split
  · rename_i hr
    rw [hr, h]
  · rfl

/-- Only what is kept for request `r` may have changed. -/
structure Only (r : RequestId) (m m' : Manager) : Prop where
  config : m.SameConfig m'
  table : ∀ r', r' ≠ r → m'.table r' = m.table r'
  cached : ∀ r', r' ≠ r → m'.numCachedBlock.get? r' = m.numCachedBlock.get? r'
  allocated : ∀ r', r' ≠ r → (r' ∈ m'.allocatedBlockReqs ↔ r' ∈ m.allocatedBlockReqs)
  lastState : ∀ r', r' ≠ r → m'.lastStateBlockIdx.get? r' = m.lastStateBlockIdx.get? r'

section

variable {m1 : Manager} {r : RequestId}

theorem Only.refl (m : Manager) : m.Only r m :=
  ⟨.refl m, fun _ _ => rfl, fun _ _ => rfl, fun _ _ => Iff.rfl, fun _ _ => rfl⟩

theorem Only.trans (h : m.Only r m1) (h' : m1.Only r m') : m.Only r m' where
  config := h.config.trans h'.config
  table r' hr' := (h'.table r' hr').trans (h.table r' hr')
  cached r' hr' := (h'.cached r' hr').trans (h.cached r' hr')
  allocated r' hr' := (h'.allocated r' hr').trans (h.allocated r' hr')
  lastState r' hr' := (h'.lastState r' hr').trans (h.lastState r' hr')

theorem only_setTable (m : Manager) (r : RequestId) (bs : List BlockId) :
    m.Only r (m.setTable r bs) :=
  ⟨⟨rfl, rfl, rfl, rfl⟩, fun r' hr' => by rw [table_setTable, if_neg hr'], fun _ _ => rfl,
    fun _ _ => Iff.rfl, fun _ _ => rfl⟩

theorem only_setCached (m : Manager) (r : RequestId) (n : ℕ) :
    m.Only r { m with numCachedBlock := m.numCachedBlock.set r n } :=
  ⟨⟨rfl, rfl, rfl, rfl⟩, fun _ _ => rfl, fun _ hr' => Dict.get?_set_of_ne _ _ hr',
    fun _ _ => Iff.rfl, fun _ _ => rfl⟩

end

/-- The invariant of one manager with `rest` references from elsewhere. -/
def Good (m : Manager) (p : BlockPool) (rest : BlockId → ℕ) : Prop :=
  TableInv p m.reqToBlocks rest

/-- A method takes a good manager to a good one. -/
structure Keeps (m m' : Manager) (p p' : BlockPool) (rest : BlockId → ℕ) : Prop where
  shape : p.SameShape p'
  config : m.SameConfig m'
  good : m'.Good p' rest

theorem Keeps.trans {m1 m2 m3 : Manager} {p1 p2 p3 : BlockPool} {rest : BlockId → ℕ}
    (h : m1.Keeps m2 p1 p2 rest) (h' : m2.Keeps m3 p2 p3 rest) : m1.Keeps m3 p1 p3 rest :=
  ⟨h.shape.trans h'.shape, h.config.trans h'.config, h'.good⟩

section

variable {m m' : Manager} {p p' : BlockPool} {rest : BlockId → ℕ} {r : RequestId}

theorem Good.keeps_refl (h : m.Good p rest) : m.Keeps m p p rest := ⟨.refl p, .refl m, h⟩

/-! ### Removing skipped blocks -/

variable {n s : ℕ} {new hits : List BlockId}

/-- Blocks of `r` are freed, and the null block stands in their places. -/
inductive Drops (r : RequestId) (m : Manager) (p : BlockPool) : Manager → BlockPool → Prop
  | none : Drops r m p m p
  | some (removed bs : List BlockId) (p' : BlockPool)
      (perm : (held p.nullBlock (m.table r)).Perm (removed ++ held p.nullBlock bs))
      (mem : ∀ b ∈ bs, b ∈ m.table r ∨ b = p.nullBlock)
      (length : bs.length = (m.table r).length)
      (free : p.freeBlocks removed = some p') : Drops r m p (m.setTable r bs) p'

theorem Drops.keeps (hd : Drops r m p m' p') (h : m.Good p rest) :
    m.Keeps m' p p' rest ∧ m'.numCachedBlock = m.numCachedBlock := by
  cases hd with
  | none => exact ⟨h.keeps_refl, rfl⟩
  | some removed bs p' hperm hmem hlen hfree =>
    obtain ⟨hs, -, hinv⟩ := TableInv.free_set h hperm hmem hfree
    exact ⟨⟨hs, ⟨rfl, rfl, rfl, rfl⟩, hinv⟩, rfl⟩

theorem Drops.hashes (hd : Drops r m p m' p') : p.SameHashes p' := by
  cases hd with
  | none => exact .refl p
  | some removed bs p' _ _ _ hfree => exact (BlockPool.freeBlocks_same hfree).2

theorem length_removeLoop (null : BlockId) (n : ℕ) (bs : List BlockId) :
    (removeLoop null n bs).2.length = bs.length := by
  induction n generalizing bs with
  | zero => rfl
  | succ n ih =>
    unfold removeLoop
    split
    · rfl
    · split
      · rfl
      · simpa using ih (bs.set n null)

theorem baseRemoveSkippedBlocks_drops (he : m.baseRemoveSkippedBlocks r n p = some (m', p')) :
    Drops r m p m' p' := by
  simp only [baseRemoveSkippedBlocks] at he
  split at he
  · cases he
    exact .none
  · simp only [bind, bind_eq_some_iff] at he
    obtain ⟨p1, hfree, he⟩ := he
    cases he
    obtain ⟨hperm, -, hmem⟩ := removeLoop_perm p.nullBlock
      (min (m.numSkippedBlocks n).toNat (m.table r).length) (m.table r)
    exact .some _ _ _ hperm hmem (length_removeLoop _ _ _) hfree

theorem removeLastState_drops (he : m.removeLastState r n p = some (m', p')) :
    Drops r m p m' p' := by
  unfold removeLastState at he
  split at he
  · cases he
    exact .none
  · split at he
    · simp only [bind, bind_eq_some_iff] at he
      obtain ⟨j, -, b, hb, he⟩ := he
      split at he
      · rename_i hn
        simp only [bind_eq_some_iff] at he
        obtain ⟨p1, hfree, he⟩ := he
        cases he
        rw [(BlockPool.freeBlocks_same hfree).1.nullBlock]
        exact .some _ _ _ (singleton_append ▸ held_set_perm hb hn)
          (fun c hc => mem_or_eq_of_mem_set hc) length_set hfree
      · cases he
        exact .some [] _ _ (.refl _) (fun c hc => .inl hc) rfl rfl
    · cases he
      exact .none

/-- A Mamba manager drops the last state after what every manager drops. -/
theorem removeSkippedBlocks_drops (he : m.removeSkippedBlocks r n p = some (m', p')) :
    ∃ m1 p1, Drops r m p m1 p1 ∧ Drops r m1 p1 m' p' := by
  unfold removeSkippedBlocks at he
  split at he
  · simp only [bind, bind_eq_some_iff] at he
    obtain ⟨⟨m1, p1⟩, hbase, he⟩ := he
    refine ⟨m1, p1, baseRemoveSkippedBlocks_drops hbase, ?_⟩
    split at he
    · exact removeLastState_drops he
    · cases he
      exact .none
  · exact ⟨m', p', baseRemoveSkippedBlocks_drops he, .none⟩

theorem removeSkippedBlocks_keeps (h : m.Good p rest)
    (he : m.removeSkippedBlocks r n p = some (m', p')) :
    m.Keeps m' p p' rest ∧ m'.numCachedBlock = m.numCachedBlock := by
  obtain ⟨m1, p1, hd, hd'⟩ := removeSkippedBlocks_drops he
  obtain ⟨hkeeps, hcached⟩ := hd.keeps h
  obtain ⟨hkeeps', hcached'⟩ := hd'.keeps hkeeps.good
  exact ⟨hkeeps.trans hkeeps', hcached'.trans hcached⟩

/-! ### Freeing and caching -/

theorem free_keeps (h : m.Good p rest) (he : m.free r p = some (m', p')) :
    m.Keeps m' p p' rest := by
  unfold free at he
  simp only [bind, bind_eq_some_iff] at he
  obtain ⟨p1, hfree, he⟩ := he
  cases he
  have hfree' : p.freeBlocks (m.table r).reverse = some p' := by
    split at hfree <;> exact hfree
  obtain ⟨hs, -, hinv⟩ := TableInv.free_erase h hfree'
  refine ⟨hs, ?_, ?_⟩
  · split <;> exact ⟨rfl, rfl, rfl, rfl⟩
  · unfold Good
    split <;> exact hinv

/-- Nothing happens, or the blocks up to the last full one are cached. -/
theorem baseCacheBlocks_cases {hashes : List Bytes}
    (he : m.baseCacheBlocks r hashes n p = some (m', p')) :
    (m' = m ∧ p' = p ∧ n / m.blockSize ≤ m.numCachedBlock.getD r 0) ∨
    (m.numCachedBlock.getD r 0 < n / m.blockSize ∧
      m' = { m.setTable r (m.table r) with
        numCachedBlock := m.numCachedBlock.set r (n / m.blockSize) } ∧
      p.cacheFullBlocks hashes (m.table r) (m.numCachedBlock.getD r 0) (n / m.blockSize) m.blockSize
        m.groupId = some p') := by
  simp only [baseCacheBlocks] at he
  split at he
  · rename_i hle
    cases he
    exact .inl ⟨rfl, rfl, hle⟩
  · rename_i hlt
    simp only [bind, bind_eq_some_iff] at he
    obtain ⟨p1, hcache, he⟩ := he
    cases he
    exact .inr ⟨Nat.lt_of_not_le hlt, rfl, hcache⟩

theorem baseCacheBlocks_keeps {hashes : List Bytes} (h : m.Good p rest)
    (he : m.baseCacheBlocks r hashes n p = some (m', p')) : m.Keeps m' p p' rest := by
  rcases baseCacheBlocks_cases he with ⟨rfl, rfl, -⟩ | ⟨-, rfl, hcache⟩
  · exact h.keeps_refl
  · obtain ⟨hs, hr, hh, -⟩ := cacheFullBlocks_spec h.ref h.hash (TableInv.lt_getD h) hcache
    exact ⟨hs, ⟨rfl, rfl, rfl, rfl⟩, (TableInv.of_refs h hs hr hh).set_self⟩

/-- The base method does the work; mamba also remembers the hashes of the step. -/
theorem cacheBlocks_base {hashes : List Bytes} (he : m.cacheBlocks r hashes n p = some (m', p')) :
    ∃ m1 keys, m.baseCacheBlocks r hashes n p = some (m1, p') ∧
      m' = { m1 with cachedBlocksThisStep := keys } := by
  unfold cacheBlocks at he
  split at he
  · cases he
  · simp only [bind, bind_eq_some_iff] at he
    obtain ⟨⟨m1, p1⟩, hbase, he⟩ := he
    split at he
    · simp only [bind_eq_some_iff] at he
      obtain ⟨keys, -, he⟩ := he
      cases he
      exact ⟨m1, _, hbase, rfl⟩
    · cases he
      exact ⟨m1, _, hbase, rfl⟩
  · exact ⟨m', _, he, rfl⟩

theorem cacheBlocks_keeps {hashes : List Bytes} (h : m.Good p rest)
    (he : m.cacheBlocks r hashes n p = some (m', p')) : m.Keeps m' p p' rest := by
  obtain ⟨m1, keys, hbase, rfl⟩ := cacheBlocks_base he
  have hkeeps := baseCacheBlocks_keeps h hbase
  exact ⟨hkeeps.shape, hkeeps.config.trans ⟨rfl, rfl, rfl, rfl⟩, hkeeps.good⟩

/-! ### New blocks -/

/-- A positive number of tokens needs a block. -/
theorem cdiv_pos {b : ℕ} (hn : 0 < n) (hb : 0 < b) : 0 < cdiv n b := by
  apply Nat.div_pos _ hb
  omega

/-- **What new blocks do.** The table is long enough for the tokens, or the missing blocks are put
behind it; in align mode the table is prepared before, and what is noted of `r` changes. -/
inductive Grows (r : RequestId) (tokens : ℕ) (m : Manager) (p : BlockPool) :
    Manager → BlockPool → Prop
  | enough (h : 0 < tokens → m.table r ≠ []) : Grows r tokens m p (m.setTable r (m.table r)) p
  | more (idx : Dict RequestId ℤ) (reqs : List RequestId) (bs fresh : List BlockId) (k : ℕ)
      (p' : BlockPool) (hidx : ∀ r', r' ≠ r → idx.get? r' = m.lastStateBlockIdx.get? r')
      (hreqs : ∀ r', r' ≠ r → (r' ∈ reqs ↔ r' ∈ m.allocatedBlockReqs))
      (hbs : bs = m.table r ∨ ∃ s required, m.spec.kind = .mamba .align s ∧
        (m.table r).length < required ∧ alignTable p.nullBlock s required
          (decide (r ∈ m.allocatedBlockReqs)) (m.table r) = some bs)
      (hk : 0 < k) (hget : p.getNewBlocks k = some (fresh, p')) :
      Grows r tokens m p ({ m with lastStateBlockIdx := idx, allocatedBlockReqs := reqs }.setTable r
        (bs ++ fresh)) p'

theorem baseAllocateNewBlocks_grows (he : m.baseAllocateNewBlocks r n p = some (new, m', p')) :
    Grows r n m p m' p' := by
  simp only [baseAllocateNewBlocks] at he
  split at he
  · rename_i hle
    cases he
    refine .enough fun hn hnil => ?_
    have hpos := cdiv_pos hn m.blockSize_pos
    rw [hnil, length_nil] at hle
    omega
  · rename_i hpos
    simp only [bind, bind_eq_some_iff] at he
    obtain ⟨⟨new', p1⟩, hget, he⟩ := he
    cases he
    -- the number asked for is positive, so it is a natural number
    obtain ⟨k, hk⟩ := Int.eq_ofNat_of_zero_le (Int.le_of_lt (Int.not_le.mp hpos))
    rw [hk] at hget hpos
    exact .more _ _ _ _ k _ (fun _ _ => rfl) (fun _ _ => Iff.rfl) (.inl rfl) (by omega) hget

theorem recordLastState_eq (m : Manager) (r : RequestId) (s : ℕ) :
    ∃ idx, m.recordLastState r s = { m with lastStateBlockIdx := idx } ∧
      ∀ r', r' ≠ r → idx.get? r' = m.lastStateBlockIdx.get? r' := by
  simp only [recordLastState]
  split
  · exact ⟨_, rfl, fun _ hr' => Dict.get?_set_of_ne _ _ hr'⟩
  · split
    · exact ⟨_, rfl, fun _ hr' => Dict.get?_set_of_ne _ _ hr'⟩
    · exact ⟨_, rfl, fun _ _ => rfl⟩

/-- Padding a table and moving its speculative blocks keeps what it holds, and leaves room for at
least one new block. -/
theorem alignTable_spec {null : BlockId} {required : ℕ} {allocated : Bool} {bs moved : List BlockId}
    (hlt : bs.length < required) (he : alignTable null s required allocated bs = some moved) :
    (held null bs).Perm (held null moved) ∧ (∀ b ∈ moved, b ∈ bs ∨ b = null) ∧
      moved.length < required := by
  simp only [alignTable] at he
  generalize hn : ((required : ℤ) - s - 1 - bs.length).toNat = n at he
  have hpad : held null (bs ++ replicate n null) = held null bs := by
    rw [held_append, held_replicate, append_nil]
  have hpadmem : ∀ b ∈ bs ++ replicate n null, b ∈ bs ∨ b = null := by
    intro b hb
    rw [mem_append, mem_replicate] at hb
    rcases hb with hb | hb
    · exact .inl hb
    · exact .inr hb.2
  cases allocated with
  | false =>
    cases he
    refine ⟨by rw [hpad], hpadmem, ?_⟩
    simp only [length_append, length_replicate]
    omega
  | true =>
    obtain ⟨hperm, hmem⟩ := moveLoop_perm he
    have hlen := moveLoop_length he
    rw [hpad] at hperm
    refine ⟨hperm, fun b hb => ?_, ?_⟩
    · rcases hmem b hb with hb | hb
      · exact hpadmem b hb
      · exact .inr hb
    · simp only [length_append, length_replicate] at hlen
      omega

/-- The manager remembers that `r` has speculative blocks. -/
def remember (m : Manager) (r : RequestId) : Manager :=
  { m with allocatedBlockReqs := if r ∈ m.allocatedBlockReqs then
      m.allocatedBlockReqs else m.allocatedBlockReqs ++ [r] }

/-- The table has the required length, or it is prepared and the missing blocks are put behind. -/
theorem alignAllocateNewBlocks_cases (he : m.alignAllocateNewBlocks s r n p = some (new, m', p')) :
    (cdiv n m.blockSize + s = (m.table r).length ∧ m' = m.setTable r (m.table r) ∧ p' = p) ∨
    ∃ (moved fresh : List BlockId) (k : ℕ), (m.table r).length < cdiv n m.blockSize + s ∧
      alignTable p.nullBlock s (cdiv n m.blockSize + s) (decide (r ∈ m.allocatedBlockReqs))
        (m.table r) = some moved ∧
      cdiv n m.blockSize + s = moved.length + k ∧ 0 < k ∧
      p.getNewBlocks k = some (fresh, p') ∧
      m' = ((m.recordLastState r s).remember r).setTable r (moved ++ fresh) := by
  simp only [alignAllocateNewBlocks] at he
  split at he
  · rename_i heq
    cases he
    exact .inl ⟨heq, rfl, rfl⟩
  · split at he
    · cases he
    · rename_i hne hlt
      simp only [bind, bind_eq_some_iff] at he
      obtain ⟨moved, hmoved, he⟩ := he
      obtain ⟨-, he⟩ := ite_none_right_eq_some.mp he
      simp only [bind_eq_some_iff] at he
      obtain ⟨⟨fresh, p1⟩, hget, he⟩ := he
      cases he
      obtain ⟨-, -, hroom⟩ := alignTable_spec (by omega) hmoved
      obtain ⟨k, hk⟩ := Int.eq_ofNat_of_zero_le
        (a := ((cdiv n m.blockSize + s : ℕ) : ℤ) - moved.length) (by omega)
      rw [hk] at hget
      exact .inr ⟨moved, fresh, k, by omega, hmoved, by omega, by omega, hget, rfl⟩

theorem alignAllocateNewBlocks_grows (hs : m.spec.kind = .mamba .align s)
    (he : m.alignAllocateNewBlocks s r n p = some (new, m', p')) : Grows r n m p m' p' := by
  rcases alignAllocateNewBlocks_cases he with
    ⟨heq, rfl, rfl⟩ | ⟨moved, fresh, k, hlt, hmoved, -, hk, hget, rfl⟩
  · refine .enough fun hn hnil => ?_
    have hpos := cdiv_pos hn m.blockSize_pos
    rw [hnil, length_nil] at heq
    omega
  · obtain ⟨idx, hidx, hothers⟩ := recordLastState_eq m r s
    rw [hidx]
    refine .more idx _ moved fresh k _ hothers (fun r' hr' => ?_) (.inr ⟨s, _, hs, hlt, hmoved⟩) hk
      hget
    split
    · exact Iff.rfl
    · simp [hr']

theorem allocateNewBlocks_grows {l : ℕ} (he : m.allocateNewBlocks r n l p = some (new, m', p')) :
    ∃ t, (0 < n → 0 < l → 0 < t) ∧ Grows r t m p m' p' := by
  unfold allocateNewBlocks at he
  split at he
  · rename_i mode s hkind
    split at he
    · rename_i hmode
      exact ⟨l, fun _ hl => hl, alignAllocateNewBlocks_grows (hmode ▸ hkind) he⟩
    · exact ⟨_, fun hn _ => by omega, baseAllocateNewBlocks_grows he⟩
  · exact ⟨n, fun hn _ => hn, baseAllocateNewBlocks_grows he⟩

theorem Grows.only (hg : Grows r n m p m' p') : m.Only r m' := by
  cases hg with
  | enough => exact only_setTable m r _
  | more idx reqs bs fresh k p' hidx hreqs =>
    have hnoted : m.Only r { m with lastStateBlockIdx := idx, allocatedBlockReqs := reqs } :=
      ⟨⟨rfl, rfl, rfl, rfl⟩, fun _ _ => rfl, fun _ _ => rfl, hreqs, hidx⟩
    exact hnoted.trans (only_setTable _ r _)

theorem allocateNewBlocks_keeps {l : ℕ} (h : m.Good p rest)
    (he : m.allocateNewBlocks r n l p = some (new, m', p')) : m.Keeps m' p p' rest := by
  obtain ⟨t, -, hg⟩ := allocateNewBlocks_grows he
  cases hg with
  | enough => exact ⟨.refl _, ⟨rfl, rfl, rfl, rfl⟩, TableInv.set_self h⟩
  | more idx reqs bs fresh k p' hidx hreqs hbs hk hget =>
    have hsame : (held p.nullBlock (m.table r)).Perm (held p.nullBlock bs) ∧
        ∀ b ∈ bs, b ∈ m.table r ∨ b = p.nullBlock := by
      rcases hbs with rfl | ⟨s, required, -, hlt, hmoved⟩
      · exact ⟨.refl _, fun _ hb => .inl hb⟩
      · obtain ⟨hperm, hmem, -⟩ := alignTable_spec hlt hmoved
        exact ⟨hperm, hmem⟩
    obtain ⟨hs, hinv, -⟩ := TableInv.append_new (TableInv.set_perm h hsame.1 hsame.2) hget
    exact ⟨hs, ⟨rfl, rfl, rfl, rfl⟩, hinv⟩

/-! ### Computed blocks -/

theorem le_cdiv {a b : ℕ} (hb : 0 < b) (h : n * b ≤ a) : n ≤ cdiv a b := by
  rw [cdiv, Nat.le_div_iff_mul_le hb]
  omega

/-- The skipped blocks lie within the blocks of the computed tokens. -/
theorem numSkippedBlocks_le (m : Manager) (n : ℕ) :
    (m.numSkippedBlocks n).toNat ≤ cdiv n m.blockSize := by
  unfold numSkippedBlocks
  have hpos := m.blockSize_pos
  have hle : m.getNumSkippedTokens n ≤ n := by
    have hproper := m.spec.proper
    unfold getNumSkippedTokens
    cases hk : m.spec.kind with
    | full _ => simp
    | slidingWindow w =>
      rw [hk] at hproper
      have hw : 0 < w := hproper
      show max 0 ((n : ℤ) - w + 1) ≤ n
      omega
    | chunkedLocal c =>
      show ((n / c * c : ℕ) : ℤ) ≤ n
      exact_mod_cast Nat.div_mul_le_self n c
    | mamba _ _ =>
      show (n : ℤ) - 1 ≤ n
      omega
    | crossAttention => simp
  apply le_cdiv hpos
  by_cases hneg : m.getNumSkippedTokens n / m.blockSize ≤ 0
  · rw [Int.toNat_of_nonpos hneg]
    simp
  · have hmul := Int.ediv_mul_le (m.getNumSkippedTokens n)
      (b := (m.blockSize : ℤ)) (by exact_mod_cast hpos.ne')
    have hcast : (((m.getNumSkippedTokens n / m.blockSize).toNat * m.blockSize : ℕ) : ℤ) ≤ n := by
      push_cast
      rw [Int.toNat_of_nonneg (by omega)]
      exact hmul.trans hle
    exact_mod_cast hcast

/-- Hits that can be put into a table: blocks of the pool, no proper one twice. -/
structure Hits (p : BlockPool) (hits : List BlockId) : Prop where
  lt : ∀ b ∈ hits, b < p.numGpuBlocks
  nodup : (held p.nullBlock hits).Nodup

theorem Hits.of_shape (h : Hits p hits) (hs : p.SameShape p') : Hits p' hits :=
  ⟨fun b hb => hs.numGpuBlocks ▸ h.lt b hb, hs.nullBlock ▸ h.nodup⟩

theorem touchHits_spec {occ : BlockId → ℕ} (h : p.RefInv occ)
    (hhits : ∀ b ∈ hits, b < p.numGpuBlocks) (he : m.touchHits hits p = some p') :
    p'.RefInv (fun b => occ b + hits.count b) ∧ p.SameShape p' ∧ p.SameHashes p' := by
  unfold touchHits at he
  split at he
  · obtain ⟨p1, hp1, href, hs, hh⟩ := touch_spec h hhits
    obtain rfl : p1 = p' := Option.some.inj (hp1.symm.trans he)
    exact ⟨href, hs, hh⟩
  · split at he
    · rename_i hnil
      cases he
      subst hnil
      exact ⟨by simpa using h, .refl p, .refl p⟩
    · cases he

theorem mem_drop_iff {bs : List BlockId} {b : BlockId} :
    b ∈ bs.drop n ↔ ∃ j, n ≤ j ∧ bs[j]? = some b := by
  rw [mem_iff_getElem?]
  constructor
  · rintro ⟨j, hj⟩
    rw [getElem?_drop] at hj
    exact ⟨_, Nat.le_add_right _ j, hj⟩
  · rintro ⟨j, hle, hj⟩
    refine ⟨j - n, ?_⟩
    rwa [getElem?_drop, Nat.add_sub_cancel' hle]

/-- The hits inside the window are those after the padding. -/
theorem hitsInWindow_eq (m : Manager) (total : ℕ) (hits : List BlockId) :
    m.hitsInWindow total hits = hits.drop (m.numSkippedBlocks total).toNat := by
  unfold hitsInWindow
  split
  · rfl
  · rw [Int.toNat_of_nonpos (by omega), drop_zero]

theorem externalInWindow_le (m : Manager) (total numExternal : ℕ) :
    m.externalInWindow total numExternal ≤ numExternal := by
  unfold externalInWindow
  split <;> omega

/-- The table gets the padding, the hits inside the window and, for external tokens, new blocks. -/
theorem addComputedBlocks_cases {numLocal numExternal : ℕ}
    (he : m.addComputedBlocks r hits numLocal numExternal p = some (m', p')) :
    ∃ p1 blocks new, m.touchHits (m.hitsInWindow (numLocal + numExternal) hits) p = some p1 ∧
      blocks = replicate (m.numSkippedBlocks (numLocal + numExternal)).toNat p1.nullBlock ++
        m.hitsInWindow (numLocal + numExternal) hits ∧
      m' = { m with numCachedBlock := m.numCachedBlock.set r blocks.length }.setTable r
        (blocks ++ new) ∧
      (0 < m.externalInWindow (numLocal + numExternal) numExternal ∧ p1.getNewBlocks
          (cdiv (numLocal + numExternal) m.blockSize - blocks.length) = some (new, p') ∨
        ¬ 0 < m.externalInWindow (numLocal + numExternal) numExternal ∧ new = [] ∧ p' = p1) := by
  obtain ⟨p1, htouch, he⟩ := bind_eq_some_iff.mp he
  dsimp only at he
  split at he
  · obtain ⟨⟨new, p2⟩, hget, he⟩ := bind_eq_some_iff.mp he
    cases he
    exact ⟨p1, _, new, htouch, rfl, rfl, .inl ⟨‹_›, hget⟩⟩
  · cases he
    exact ⟨p', _, [], htouch, rfl, by rw [append_nil], .inr ⟨‹_›, rfl, rfl⟩⟩

/-- There are not more hits than blocks of computed tokens when external tokens need blocks. -/
theorem padded_le {numLocal numExternal : ℕ}
    (hfit : 0 < numExternal → hits.length ≤ cdiv (numLocal + numExternal) m.blockSize)
    (hext : 0 < m.externalInWindow (numLocal + numExternal) numExternal) :
    (m.numSkippedBlocks (numLocal + numExternal)).toNat +
      (m.hitsInWindow (numLocal + numExternal) hits).length ≤
        cdiv (numLocal + numExternal) m.blockSize := by
  have hfit := hfit (Int.natCast_pos.mp (hext.trans_le (m.externalInWindow_le _ _)))
  have hskip := m.numSkippedBlocks_le (numLocal + numExternal)
  rw [hitsInWindow_eq, length_drop]
  omega

/-- A request without table gets one. -/
theorem addComputedBlocks_keeps {numLocal numExternal : ℕ} (h : m.Good p rest) (hhits : Hits p hits)
    (hempty : m.table r = [])
    (hfit : 0 < numExternal → hits.length ≤ cdiv (numLocal + numExternal) m.blockSize)
    (he : m.addComputedBlocks r hits numLocal numExternal p = some (m', p')) :
    m.Keeps m' p p' rest := by
  obtain ⟨p1, blocks, new, htouch, hblocks, rfl, hnew⟩ := addComputedBlocks_cases he
  have hsub : (m.hitsInWindow (numLocal + numExternal) hits).Sublist hits := by
    rw [hitsInWindow_eq]
    exact drop_sublist _ _
  obtain ⟨href, hs, hh⟩ := touchHits_spec h.ref (fun b hb => hhits.lt b (hsub.subset hb)) htouch
  have hinv : TableInv p1 (m.reqToBlocks.set r blocks) rest := by
    refine TableInv.set h hs (h.hash.of_same hs hh) href (fun b hb => ?_) (fun b hb => ?_) ?_
    · have hz : (m.reqToBlocks.getD r []).count b = 0 := by
        have : m.reqToBlocks.getD r [] = [] := hempty
        simp [this]
      rw [hz, ← count_held blocks hb, hblocks, hs.nullBlock, held_append, held_replicate,
        nil_append, count_held _ hb]
      omega
    · rw [hblocks, mem_append, mem_replicate] at hb
      rcases hb with hb | hb
      · rw [hb.2, hs.nullBlock]
        exact h.ref.null_lt
      · exact hhits.lt b (hsub.subset hb)
    · rw [hblocks, held_append, hs.nullBlock, held_replicate, nil_append]
      exact hhits.nodup.sublist (hsub.filter _)
  rcases hnew with ⟨hext, hget⟩ | ⟨-, rfl, rfl⟩
  · have hlen : blocks.length ≤ cdiv (numLocal + numExternal) m.blockSize := by
      rw [hblocks, length_append, length_replicate]
      exact padded_le hfit hext
    rw [← Int.ofNat_sub hlen] at hget
    obtain ⟨hs', hinv', -⟩ := TableInv.append_new hinv hget
    exact ⟨hs.trans hs', ⟨rfl, rfl, rfl, rfl⟩, hinv'⟩
  · rw [append_nil]
    exact ⟨hs, ⟨rfl, rfl, rfl, rfl⟩, hinv⟩

/-- The hits for one manager fit: with external tokens there are not more of them than blocks of
computed tokens, if the manager does not follow the request yet. -/
def Fits (m : Manager) (r : RequestId) (hits : List BlockId) (numLocal numExternal : ℕ) : Prop :=
  m.spec.isCross = false → m.numCachedBlock.contains r = false → 0 < numExternal →
    hits.length ≤ cdiv (numLocal + numExternal) m.blockSize

/-- Either the manager takes no hits for the request, or the request has no table yet. -/
theorem allocateNewComputedBlocks_cases {numLocal numExternal : ℕ}
    (he : m.allocateNewComputedBlocks r hits numLocal numExternal p = some (m', p')) :
    (hits = [] ∧ (m.spec.isCross = true ∨ m.numCachedBlock.contains r = true) ∧ m' = m ∧ p' = p) ∨
    (m.spec.isCross = false ∧ m.numCachedBlock.contains r = false ∧ m.table r = [] ∧
      m.addComputedBlocks r hits numLocal numExternal p = some (m', p')) := by
  unfold allocateNewComputedBlocks at he
  split at he
  · obtain ⟨hnil, he⟩ := ite_none_right_eq_some.mp he
    cases he
    exact .inl ⟨hnil, .inl ‹_›, rfl, rfl⟩
  · rename_i hcross
    split at he
    · obtain ⟨hnil, he⟩ := ite_none_right_eq_some.mp he
      cases he
      exact .inl ⟨hnil, .inr ‹_›, rfl, rfl⟩
    · rename_i hcached
      obtain ⟨hempty, he⟩ := ite_none_right_eq_some.mp he
      exact .inr ⟨by simpa using hcross, by simpa using hcached, hempty, he⟩

theorem allocateNewComputedBlocks_only {hits : List BlockId} {numLocal numExternal : ℕ}
    (he : m.allocateNewComputedBlocks r hits numLocal numExternal p = some (m', p')) :
    m.Only r m' := by
  rcases allocateNewComputedBlocks_cases he with ⟨-, -, rfl, -⟩ | ⟨-, -, -, he⟩
  · exact .refl m'
  · obtain ⟨-, blocks, new, -, -, rfl, -⟩ := addComputedBlocks_cases he
    exact (only_setCached m r _).trans (only_setTable _ r _)

theorem allocateNewComputedBlocks_keeps {numLocal numExternal : ℕ} (h : m.Good p rest)
    (hhits : Hits p hits) (hfit : m.Fits r hits numLocal numExternal)
    (he : m.allocateNewComputedBlocks r hits numLocal numExternal p = some (m', p')) :
    m.Keeps m' p p' rest := by
  rcases allocateNewComputedBlocks_cases he with ⟨-, -, rfl, rfl⟩ | ⟨hcross, hcached, hempty, he⟩
  · exact h.keeps_refl
  · exact addComputedBlocks_keeps h hhits hempty (hfit hcross hcached) he

end

end Manager

end Nvllm.KVCache
