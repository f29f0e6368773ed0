import Mathlib.Order.Nat
import Nvllm.KVCache.BlockHash

/-! # Hashing a number of blocks

A block should carry the keys of all items that overlap it. The hasher keeps an index of the items
that it has passed, and sees the items of a block if those before the index are over
(`sees_of_skipped`). `hashBlocks` hashes a given number of blocks, and the loop of the hasher is
such a run (`requestBlockHasher_eq`). If every round sees the items of its block, the hashes do not
depend on the index any more: they are `overlapHashes`.
-/

namespace Nvllm.KVCache

open List Option

variable {E : Type} {a b n : ℕ} {idx : ℤ} {r : RequestContent E}

/-! ## The keys of a block -/

def itemKeys (r : RequestContent E) (a b : ℕ) : List ExtraKey :=
  (r.mmFeatures.filter (·.Overlaps a b)).map fun f =>
    .item f.identifier ((f.start : ℤ) - a)

def blockKeys (H : Hasher E) (r : RequestContent E) (a b : ℕ) : List ExtraKey :=
  genLoraExtraHashKeys r ++ itemKeys r a b ++ cacheSaltKeys r a ++
    genPromptEmbedsExtraHashKeys H r a b

theorem MultiModalFeature.start_lt_stop (f : MultiModalFeature) : f.start < f.stop :=
  Nat.lt_add_of_pos_right f.mmPosition.length_pos

theorem not_overlaps_iff {f : MultiModalFeature} : ¬ f.Overlaps a b ↔ b ≤ f.start ∨ f.stop ≤ a := by
  unfold MultiModalFeature.Overlaps
  omega

theorem itemKeys_eq_nil (b : ℕ) (h : ∀ f ∈ r.mmFeatures, f.stop ≤ a) : itemKeys r a b = [] := by
  rw [itemKeys, map_eq_nil_iff, filter_eq_nil_iff]
  intro f hf
  simpa using not_overlaps_iff.mpr (.inr (h f hf))

/-- **The loop over items** gives the keys of those that overlap, if none does after an item that
goes beyond the block. -/
theorem mmKeysFrom_keys {fs : List MultiModalFeature}
    (hfs : fs.Pairwise fun f g => f.stop ≤ b ∨ ¬ g.Overlaps a b) (idx : ℤ) :
    (mmKeysFrom a b fs idx).1 =
      (fs.filter (·.Overlaps a b)).map fun f => .item f.identifier ((f.start : ℤ) - a) := by
  induction fs generalizing idx with
  | nil => rfl
  | cons f fs ih =>
    obtain ⟨hf, hrest⟩ := pairwise_cons.mp hfs
    have hpos := f.start_lt_stop
    have hlater (hb : b < f.stop) : fs.filter (·.Overlaps a b) = [] := by
      rw [filter_eq_nil_iff]
      intro g hg
      simpa using (hf g hg).resolve_left (by omega)
    rw [mmKeysFrom]
    split
    · split
      · have hno : ¬ f.Overlaps a b := not_overlaps_iff.mpr (.inr ‹_›)
        simp [hno, ih hrest]
      · have hyes : f.Overlaps a b := ⟨‹_›, by omega⟩
        split
        · simp [hyes, ih hrest]
        · simp [hyes, hlater (by omega)]
    · have hno : ¬ f.Overlaps a b := not_overlaps_iff.mpr (.inl (by omega))
      simp [hno, hlater (by omega)]

/-! ## The index of the items -/

/-- The index skips only items that are over at token `a`. -/
def IdxOk (r : RequestContent E) (a : ℕ) (idx : ℤ) : Prop :=
  0 ≤ idx ∧ ∀ f ∈ r.mmFeatures.take idx.toNat, f.stop ≤ a

theorem mmKeysFrom_idx (a : ℕ) (fs : List MultiModalFeature) (idx : ℤ) (hab : a ≤ b) :
    ∃ n : ℕ, (mmKeysFrom a b fs idx).2 = idx + n ∧ ∀ f ∈ fs.take n, f.stop ≤ b := by
  induction fs generalizing idx with
  | nil => exact ⟨0, by simp [mmKeysFrom], by simp⟩
  | cons f fs ih =>
    obtain ⟨n, hn, hover⟩ := ih (idx + 1)
    -- the index moves on only if `f` is over at `b`
    have hstep : f.stop ≤ b → ∃ k : ℕ, (mmKeysFrom a b fs (idx + 1)).2 = idx + k ∧
        ∀ g ∈ (f :: fs).take k, g.stop ≤ b := by
      intro hf
      refine ⟨n + 1, by rw [hn]; push_cast; omega, fun g hg => ?_⟩
      rcases mem_cons.mp hg with rfl | hg
      · exact hf
      · exact hover g hg
    simp only [mmKeysFrom]
    split
    · split
      · exact hstep (by omega)
      · split
        · exact hstep (by omega)
        · exact ⟨0, by simp, by simp⟩
    · exact ⟨0, by simp, by simp⟩

theorem genMmExtraHashKeys_idx (r : RequestContent E) (hab : a ≤ b) (hidx : IdxOk r a idx) :
    ∃ p, genMmExtraHashKeys r a b idx = some p ∧ IdxOk r b p.2 := by
  obtain ⟨hpos, hover⟩ := hidx
  have hle : IdxOk r b idx := ⟨hpos, fun f hf => (hover f hf).trans hab⟩
  unfold genMmExtraHashKeys
  split
  · exact ⟨_, rfl, hle⟩
  · split
    · exact ⟨_, rfl, hle⟩
    · rw [if_neg (by omega)]
      obtain ⟨n, hn, htake⟩ := mmKeysFrom_idx a (r.mmFeatures.drop idx.toNat) idx hab
      refine ⟨_, rfl, by rw [hn]; omega, fun f hf => ?_⟩
      rw [hn, show (idx + n).toNat = idx.toNat + n by omega, take_add] at hf
      rcases mem_append.mp hf with hf | hf
      · exact (hover f hf).trans hab
      · exact htake f hf

/-- Unless the last item is over, the hasher looks at the items from the index on; index `-1` is
the last one. -/
theorem genMmExtraHashKeys_eq {last : MultiModalFeature}
    (hidx : idx = n ∨ idx = -1 ∧ n = r.mmFeatures.length - 1)
    (hlast : r.mmFeatures.getLast? = some last) (hover : ¬ last.stop ≤ a) :
    ∃ i, genMmExtraHashKeys r a b idx = some (mmKeysFrom a b (r.mmFeatures.drop n) i) := by
  have hlen : 0 < r.mmFeatures.length := length_pos_of_mem (mem_of_getLast? hlast)
  unfold genMmExtraHashKeys
  rw [hlast]
  simp only [if_neg hover]
  rcases hidx with rfl | ⟨rfl, rfl⟩
  · exact ⟨_, rfl⟩
  · rw [if_pos (by omega), if_pos (by omega),
      show ((r.mmFeatures.length : ℤ) + -1).toNat = r.mmFeatures.length - 1 by omega]
    exact ⟨_, rfl⟩

/-- From this index the hasher gives the block the keys of all items that overlap it. -/
def Sees (r : RequestContent E) (a b : ℕ) (idx : ℤ) : Prop :=
  ∃ next, genMmExtraHashKeys r a b idx = some (itemKeys r a b, next)

theorem sees_past (b : ℕ) (idx : ℤ) (hpast : ∀ f ∈ r.mmFeatures, f.stop ≤ a) : Sees r a b idx := by
  refine ⟨idx, ?_⟩
  rw [itemKeys_eq_nil b hpast]
  unfold genMmExtraHashKeys
  split
  · rfl
  · rename_i last hlast
    rw [if_pos (hpast last (mem_of_getLast? hlast))]

/-- The hasher sees the items of a block if those that it skips are over, no item overlaps after
one that goes beyond the block, and all items are over if the last one is. -/
theorem sees_of_skipped (hidx : idx = n ∨ idx = -1 ∧ n = r.mmFeatures.length - 1)
    (hskip : ∀ f ∈ r.mmFeatures.take n, f.stop ≤ a)
    (hfs : r.mmFeatures.Pairwise fun f g => f.stop ≤ b ∨ ¬ g.Overlaps a b)
    (hlast : ∀ last ∈ r.mmFeatures.getLast?, last.stop ≤ a →
      ∀ f ∈ r.mmFeatures.dropLast, f.stop ≤ a) : Sees r a b idx := by
  cases hl : r.mmFeatures.getLast? with
  | none =>
    apply sees_past
    simp [getLast?_eq_none_iff.mp hl]
  | some last =>
    by_cases hover : last.stop ≤ a
    · refine sees_past _ _ fun f hf => ?_
      rw [← dropLast_append_getLast? last hl] at hf
      rcases mem_append.mp hf with hf | hf
      · exact hlast last hl hover f hf
      · rwa [mem_singleton.mp hf]
    · obtain ⟨i, hrun⟩ := genMmExtraHashKeys_eq (b := b) hidx hl hover
      have hsplit : itemKeys r a b = (mmKeysFrom a b (r.mmFeatures.drop n) i).1 := by
        have hnil := itemKeys_eq_nil (r := { r with mmFeatures := r.mmFeatures.take n }) b hskip
        rw [mmKeysFrom_keys (hfs.sublist (drop_sublist _ _)), itemKeys]
        conv_lhs => rw [← take_append_drop n r.mmFeatures]
        rw [filter_append, map_append]
        exact (congrArg (· ++ _) hnil).trans (nil_append _)
      exact ⟨_, hrun.trans (congrArg some (Prod.ext hsplit.symm rfl))⟩

theorem generateBlockHashExtraKeys_eq (H : Hasher E) {mmKeys : List ExtraKey} {next : ℤ}
    (h : genMmExtraHashKeys r a b idx = some (mmKeys, next)) :
    generateBlockHashExtraKeys H r a b idx = some (packKeys (genLoraExtraHashKeys r ++ mmKeys ++
      cacheSaltKeys r a ++ genPromptEmbedsExtraHashKeys H r a b), next) := by
  rw [generateBlockHashExtraKeys, h]
  rfl

/-! ## Runs over blocks -/

/-- The token ids of the block that starts at `a`. -/
def blockTokens (H : Hasher E) (r : RequestContent E) (a : ℕ) : List ℤ :=
  (r.allTokenIds.drop a).take H.blockSize

/-- The rounds of the hasher for `m` blocks: their hashes, the index of the items and the hash that
the next round starts with. -/
def hashBlocks (H : Hasher E) (r : RequestContent E) :
    ℕ → ℕ → ℤ → Option Bytes → Option (List Bytes × ℤ × Option Bytes)
  | 0, _, idx, prev => some ([], idx, prev)
  | m + 1, a, idx, prev => do
    let (keys, idx) ← generateBlockHashExtraKeys H r a (a + H.blockSize) idx
    let h := hashBlockTokens H prev (blockTokens H r a) keys
    let (hs, idx, prev) ← hashBlocks H r m (a + H.blockSize) idx (some h)
    return (h :: hs, idx, prev)

/-- Hashes of `m` blocks from `a` on with the keys that the blocks should have. -/
def overlapHashes (H : Hasher E) (r : RequestContent E) : ℕ → ℕ → Option Bytes → List Bytes
  | 0, _, _ => []
  | m + 1, a, prev =>
    let h := hashBlockTokens H prev (blockTokens H r a)
      (packKeys (blockKeys H r a (a + H.blockSize)))
    h :: overlapHashes H r m (a + H.blockSize) (some h)

/-- **A run that sees the items of every block** gives the blocks the keys they should have. `P`
is what holds of the index at the start of each block. -/
theorem hashBlocks_of_sees (H : Hasher E) (P : ℕ → ℤ → Prop)
    (hsees : ∀ a idx, P a idx → ∃ next, genMmExtraHashKeys r a (a + H.blockSize) idx =
      some (itemKeys r a (a + H.blockSize), next) ∧ P (a + H.blockSize) next)
    (m : ℕ) (prev : Option Bytes) (h : P a idx) :
    (hashBlocks H r m a idx prev).map Prod.fst = some (overlapHashes H r m a prev) := by
  induction m generalizing a idx prev with
  | zero => rfl
  | succ m ih =>
    obtain ⟨next, hkeys, hnext⟩ := hsees a idx h
    obtain ⟨q, hq, hfst⟩ := map_eq_some_iff.mp (ih (some (hashBlockTokens H prev (blockTokens H r a)
      (packKeys (blockKeys H r a (a + H.blockSize))))) hnext)
    rw [blockKeys] at hq
    simp only [hashBlocks, generateBlockHashExtraKeys_eq H hkeys, bind_eq_bind, bind_some, hq,
      Option.pure_def, map_some, overlapHashes, hfst, blockKeys]

/-- The loop of the hasher hashes all full blocks that are left. -/
theorem hashLoop_eq (H : Hasher E) (r : RequestContent E) {fuel : ℕ} (idx : ℤ) (prev : Option Bytes)
    (hfuel : r.allTokenIds.length ≤ a + fuel) :
    hashLoop H r fuel a idx prev =
      (hashBlocks H r ((r.allTokenIds.length - a) / H.blockSize) a idx prev).map Prod.fst := by
  induction fuel generalizing a idx prev with
  | zero =>
    rw [show r.allTokenIds.length - a = 0 by omega, Nat.zero_div]
    rfl
  | succ fuel ih =>
    have hpos := H.blockSize_pos
    by_cases hend : a + H.blockSize > r.allTokenIds.length
    · rw [Nat.div_eq_of_lt (by omega)]
      simp only [hashLoop, if_pos hend, hashBlocks, map_some]
    · have hcount : (r.allTokenIds.length - a) / H.blockSize =
          (r.allTokenIds.length - (a + H.blockSize)) / H.blockSize + 1 := by
        rw [← Nat.add_div_right _ hpos]
        congr 1
        omega
      rw [hcount]
      simp only [hashLoop, if_neg hend, hashBlocks, blockTokens]
      cases generateBlockHashExtraKeys H r a (a + H.blockSize) idx with
      | none => rfl
      | some p =>
        simp only [bind_eq_bind, bind_some]
        rw [ih _ _ (by omega)]
        cases hashBlocks H r ((r.allTokenIds.length - (a + H.blockSize)) / H.blockSize)
          (a + H.blockSize) p.2 (some _) <;> rfl

theorem requestBlockHasher_eq (H : Hasher E) (r : RequestContent E) :
    requestBlockHasher H r =
      (hashBlocks H r (r.allTokenIds.length / H.blockSize - r.blockHashes.length)
        (r.blockHashes.length * H.blockSize) (if 0 < r.blockHashes.length then -1 else 0)
        r.blockHashes.getLast?).map Prod.fst := by
  have hpos := H.blockSize_pos
  have hcount : (r.allTokenIds.length - r.blockHashes.length * H.blockSize) / H.blockSize =
      r.allTokenIds.length / H.blockSize - r.blockHashes.length := by
    rw [Nat.mul_comm]
    exact Nat.sub_mul_div _ _ _
  have hstart : (0 < r.blockHashes.length * H.blockSize) = (0 < r.blockHashes.length) := by
    simp [hpos]
  unfold requestBlockHasher
  simp only [hstart]
  split
  · rw [← hcount, Nat.div_eq_of_lt (by omega)]
    rfl
  · rw [hashLoop_eq H r _ _ (by omega), hcount]

end Nvllm.KVCache
