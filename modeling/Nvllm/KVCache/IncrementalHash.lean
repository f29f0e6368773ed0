import Nvllm.KVCache.BlockHashSound
import Nvllm.Lib.Run

/-! # Hashing a request as it grows

A request hashes the full blocks of its prompt when it is created, and after each
`append_output_token_ids` the blocks that became full. A resumed hasher does not know which
multimodal items are over: it starts at the last one. So it agrees with a hasher that starts from
scratch only if no other item reaches into the block that the prompt leaves unfinished.

* Runs of `hashBlocks` can be joined (`hashBlocks_add`).
* Once all items are over, the index does not matter any more (`hashBlocks_past`).
-/

namespace Nvllm.KVCache

open Nvllm.Run List Option

variable {E : Type}

namespace RequestContent

/-- `update_block_hashes`. -/
def updateBlockHashes (H : Hasher E) (r : RequestContent E) : Option (RequestContent E) := do
  let hs ← requestBlockHasher H r
  return { r with blockHashes := r.blockHashes ++ hs }

/-- The request with more tokens that are not hashed yet. -/
def extend (r : RequestContent E) (tokenIds : List ℤ) : RequestContent E :=
  { r with allTokenIds := r.allTokenIds ++ tokenIds }

def appendOutputTokenIds (H : Hasher E) (r : RequestContent E) (tokenIds : List ℤ) :
    Option (RequestContent E) :=
  (r.extend tokenIds).updateBlockHashes H

/-- The hashes that a new request with the same tokens and items would have. -/
def hashesFromScratch (H : Hasher E) (r : RequestContent E) : Option (List Bytes) :=
  requestBlockHasher H { r with blockHashes := [] }

end RequestContent

/-- A request before it is hashed: no hashes yet, and all items in the prompt. -/
structure PromptRequest (E : Type) extends RequestContent E where
  fresh : blockHashes = []
  inPrompt : ∀ f ∈ mmFeatures, f.stop ≤ allTokenIds.length

instance : Coe (PromptRequest E) (RequestContent E) := ⟨PromptRequest.toRequestContent⟩

/-! ## Hashing a number of blocks -/

variable {a m b : ℕ} {H : Hasher E} {idx : ℤ} {prev : Option Bytes} {r : RequestContent E}
  {tokens tokenIds : List ℤ}

/-- Where the block `m` after the next one starts. -/
theorem start_succ (H : Hasher E) (a m : ℕ) :
    a + H.blockSize + m * H.blockSize = a + (m + 1) * H.blockSize := by
  rw [Nat.succ_mul]
  omega

/-- Two runs one after the other. -/
theorem hashBlocks_add (H : Hasher E) (r : RequestContent E) (m k a : ℕ) (idx : ℤ)
    (prev : Option Bytes) :
    hashBlocks H r (m + k) a idx prev = (hashBlocks H r m a idx prev).bind fun q =>
      (hashBlocks H r k (a + m * H.blockSize) q.2.1 q.2.2).map fun q' => (q.1 ++ q'.1, q'.2) := by
  induction m generalizing a idx prev with
  | zero =>
    rw [Nat.zero_add, Nat.zero_mul, Nat.add_zero]
    simp only [hashBlocks, bind_some, nil_append]
    cases hashBlocks H r k a idx prev <;> rfl
  | succ m ih =>
    rw [Nat.add_right_comm]
    simp only [hashBlocks, bind_eq_bind, Option.pure_def]
    cases generateBlockHashExtraKeys H r a (a + H.blockSize) idx with
    | none => rfl
    | some p =>
      simp only [bind_some]
      rw [ih, start_succ]
      cases hashBlocks H r m (a + H.blockSize) p.2 (some _) with
      | none => rfl
      | some q =>
        simp only [bind_some]
        cases hashBlocks H r k (a + (m + 1) * H.blockSize) q.2.1 q.2.2 <;> rfl

/-- The last hash of a run whose first one is `h`. -/
theorem getLast?_cons_or (h : Bytes) (hs : List Bytes) (prev : Option Bytes) :
    (h :: hs).getLast?.or prev = hs.getLast?.or (some h) := by
  rw [getLast?_cons]
  cases hs.getLast? <;> rfl

/-- The request with other tokens and hashes. -/
def RequestContent.withTokens (r : RequestContent E) (tokenIds : List ℤ) (hashes : List Bytes) :
    RequestContent E :=
  { r with allTokenIds := tokenIds, blockHashes := hashes }

theorem blockTokens_congr (H : Hasher E) (r : RequestContent E) (hashes hashes' : List Bytes)
    (hpre : tokens <+: tokenIds) (hlen : a + H.blockSize ≤ tokens.length) :
    blockTokens H (r.withTokens tokenIds hashes) a =
      blockTokens H (r.withTokens tokens hashes') a := by
  obtain ⟨more, rfl⟩ := hpre
  unfold blockTokens RequestContent.withTokens
  rw [drop_append_of_le_length (by omega),
    take_append_of_le_length (by rw [length_drop]; omega)]

/-- More tokens after the hashed blocks, and other hashes, make no difference. -/
theorem hashBlocks_congr (H : Hasher E) (hashes : List Bytes) (idx : ℤ) (prev : Option Bytes)
    (hpre : r.allTokenIds <+: tokenIds) (hlen : a + m * H.blockSize ≤ r.allTokenIds.length) :
    hashBlocks H (r.withTokens tokenIds hashes) m a idx prev = hashBlocks H r m a idx prev := by
  induction m generalizing a idx prev with
  | zero => rfl
  | succ m ih =>
    rw [Nat.succ_mul] at hlen
    have htokens : _ = blockTokens H r a :=
      blockTokens_congr H r hashes r.blockHashes hpre (by omega)
    have hkeys : generateBlockHashExtraKeys H (r.withTokens tokenIds hashes) a
        (a + H.blockSize) idx = generateBlockHashExtraKeys H r a (a + H.blockSize) idx := rfl
    simp only [hashBlocks, hkeys, htokens]
    cases generateBlockHashExtraKeys H r a (a + H.blockSize) idx with
    | none => rfl
    | some p =>
      simp only [bind_eq_bind, bind_some]
      rw [ih _ _ (by omega)]

/-- The hash of a single block. -/
theorem hashBlocks_one {q : List Bytes × ℤ × Option Bytes}
    (h : hashBlocks H r 1 a idx prev = some q) :
    ∃ mmKeys next, genMmExtraHashKeys r a (a + H.blockSize) idx = some (mmKeys, next) ∧
      q.1 = [hashBlockTokens H prev (blockTokens H r a)
        (packKeys (genLoraExtraHashKeys r ++ mmKeys ++ cacheSaltKeys r a ++
          genPromptEmbedsExtraHashKeys H r a (a + H.blockSize)))] := by
  simp only [hashBlocks, generateBlockHashExtraKeys, bind, bind_eq_some_iff] at h
  obtain ⟨keys, ⟨p, hp, hkeys⟩, q', hq', h⟩ := h
  cases hkeys
  cases hq'
  cases h
  exact ⟨p.1, p.2, hp, rfl⟩

/-- From an index that skips only items that are over, hashing does not fail. A run has one hash for
each block, and the next round starts with the last of them. -/
theorem hashBlocks_total (H : Hasher E) (r : RequestContent E) (m : ℕ) (prev : Option Bytes)
    (hidx : IdxOk r a idx) :
    ∃ hs idx', hashBlocks H r m a idx prev = some (hs, idx', hs.getLast?.or prev) ∧
      hs.length = m ∧ IdxOk r (a + m * H.blockSize) idx' := by
  induction m generalizing a idx prev with
  | zero => exact ⟨[], _, rfl, rfl, by simpa using hidx⟩
  | succ m ih =>
    obtain ⟨p, hp, hnext⟩ := genMmExtraHashKeys_idx r (Nat.le_add_right a H.blockSize) hidx
    obtain ⟨keys, hkeys⟩ : ∃ keys, generateBlockHashExtraKeys H r a (a + H.blockSize) idx =
        some (keys, p.2) := ⟨_, generateBlockHashExtraKeys_eq H hp⟩
    obtain ⟨hs, idx', hrun, hlen, hend⟩ := ih
      (some (hashBlockTokens H prev (blockTokens H r a) keys)) hnext
    refine ⟨hashBlockTokens H prev (blockTokens H r a) keys :: hs, idx', ?_, by simp [hlen], ?_⟩
    · simp only [hashBlocks, hkeys, bind_eq_bind, bind_some, hrun, getLast?_cons_or]
      rfl
    · rwa [← start_succ]

/-! ## The keys that a block should have -/

/-- A hasher that starts at the last item sees at most one item, so no other one may overlap. -/
theorem stop_le_of_sees_last (hend : ∀ f ∈ r.mmFeatures, f.stop ≤ b) (hsees : Sees r a b (-1)) :
    ∀ f ∈ r.mmFeatures.dropLast, f.stop ≤ a := by
  intro f hf
  by_contra hgt
  have hoverlaps : ∀ g ∈ r.mmFeatures, ¬ g.stop ≤ a → g.Overlaps a b := fun g hg hga =>
    ⟨(Nat.lt_add_of_pos_right g.mmPosition.length_pos).trans_le (hend g hg), by omega⟩
  have hfmem : f ∈ r.mmFeatures := mem_of_mem_dropLast hf
  obtain ⟨next, hkeys⟩ := hsees
  cases hlast : r.mmFeatures.getLast? with
  | none =>
    rw [getLast?_eq_none_iff.mp hlast] at hfmem
    cases hfmem
  | some last =>
    by_cases hover : last.stop ≤ a
    · -- nothing is seen, but `f` overlaps
      unfold genMmExtraHashKeys at hkeys
      rw [hlast] at hkeys
      simp only [if_pos hover, Option.some.injEq, Prod.mk.injEq] at hkeys
      have hnil := map_eq_nil_iff.mp hkeys.1.symm
      exact filter_eq_nil_iff.mp hnil f hfmem (by simpa using hoverlaps f hfmem hgt)
    · -- only the last item is seen, but `f` overlaps as well
      obtain ⟨i, hrun⟩ := genMmExtraHashKeys_eq (b := b) (.inr ⟨rfl, rfl⟩) hlast hover
      have hseen : (mmKeysFrom a b (r.mmFeatures.drop (r.mmFeatures.length - 1)) i).1 =
          itemKeys r a b := congrArg Prod.fst (Option.some.inj (hrun.symm.trans hkeys))
      obtain ⟨init, hr⟩ := getLast?_eq_some_iff.mp hlast
      have hcount := congrArg List.length hseen
      rw [mmKeysFrom_keys (pairwise_of_forall_mem_list fun g hg _ _ =>
        .inl (hend g (mem_of_mem_drop hg)))] at hcount
      have hfilter : 0 < (init.filter (·.Overlaps a b)).length := by
        rw [hr, dropLast_concat] at hf
        exact length_pos_of_mem (mem_filter.mpr ⟨hf, by simpa using hoverlaps f hfmem hgt⟩)
      simp only [itemKeys, length_map, hr, filter_append, length_append, length_singleton,
        Nat.add_sub_cancel, drop_left] at hcount
      omega

/-- **Once the items are over the index does not matter**: if the first block is seen as it should
be and no item reaches beyond it, all blocks get the keys they should have. -/
theorem hashBlocks_past (H : Hasher E) (m : ℕ) (prev : Option Bytes)
    (hsees : Sees r a (a + H.blockSize) idx) (hend : ∀ f ∈ r.mmFeatures, f.stop ≤ a + H.blockSize) :
    (hashBlocks H r m a idx prev).map Prod.fst = some (overlapHashes H r m a prev) := by
  refine hashBlocks_of_sees H (fun a idx => Sees r a (a + H.blockSize) idx ∧
    ∀ f ∈ r.mmFeatures, f.stop ≤ a + H.blockSize) ?_ m prev ⟨hsees, hend⟩
  rintro a idx ⟨⟨next, hnext⟩, hend⟩
  exact ⟨next, hnext, sees_past _ next hend, fun f hf => (hend f hf).trans (Nat.le_add_right _ _)⟩

theorem length_overlapHashes (H : Hasher E) (r : RequestContent E) (m a : ℕ)
    (prev : Option Bytes) : (overlapHashes H r m a prev).length = m := by
  induction m generalizing a prev with
  | zero => rfl
  | succ m ih => rw [overlapHashes, length_cons, ih]

theorem overlapHashes_add (H : Hasher E) (r : RequestContent E) (m k a : ℕ) (prev : Option Bytes) :
    overlapHashes H r (m + k) a prev = overlapHashes H r m a prev ++
      overlapHashes H r k (a + m * H.blockSize)
        ((overlapHashes H r m a prev).getLast?.or prev) := by
  induction m generalizing a prev with
  | zero => simp [overlapHashes]
  | succ m ih =>
    rw [Nat.add_right_comm]
    simp only [overlapHashes, cons_append, List.cons.injEq, true_and]
    rw [ih, start_succ, getLast?_cons_or]

theorem overlapHashes_congr (H : Hasher E) (r : RequestContent E) (hashes hashes' : List Bytes)
    (prev : Option Bytes) (hpre : tokens <+: tokenIds)
    (hlen : a + m * H.blockSize ≤ tokens.length) :
    overlapHashes H (r.withTokens tokenIds hashes) m a prev =
      overlapHashes H (r.withTokens tokens hashes') m a prev := by
  induction m generalizing a prev with
  | zero => rfl
  | succ m ih =>
    rw [Nat.succ_mul] at hlen
    have htokens := blockTokens_congr H r hashes hashes' (a := a) hpre (by omega)
    have hkeys : blockKeys H (r.withTokens tokenIds hashes) a (a + H.blockSize) =
        blockKeys H (r.withTokens tokens hashes') a (a + H.blockSize) := rfl
    simp only [overlapHashes, htokens, hkeys]
    rw [ih _ (by omega)]

/-- Each of the hashes is made from the one before it. -/
theorem getElem?_overlapHashes {k : ℕ} {h : Bytes}
    (hk : (overlapHashes H r m a prev)[k]? = some h) :
    h = hashBlockTokens H (((overlapHashes H r m a prev).take k).getLast?.or prev)
      (blockTokens H r (a + k * H.blockSize))
      (packKeys (blockKeys H r (a + k * H.blockSize) (a + k * H.blockSize + H.blockSize))) := by
  induction m generalizing a k prev with
  | zero => simp [overlapHashes] at hk
  | succ m ih =>
    cases k with
    | zero =>
      rw [Nat.zero_mul, Nat.add_zero, take_zero]
      exact (Option.some.inj hk).symm
    | succ k =>
      rw [ih hk, overlapHashes, take_succ_cons, start_succ, getLast?_cons_or]

/-! ## Text only

Without items every block is seen as it should be, and the hashes are a function of the tokens. -/

section

variable {H : Hasher E} {r : RequestContent E}

theorem requestBlockHasher_text (H : Hasher E) (htext : r.mmFeatures = []) :
    requestBlockHasher H r = some (overlapHashes H r
      (r.allTokenIds.length / H.blockSize - r.blockHashes.length)
      (r.blockHashes.length * H.blockSize) r.blockHashes.getLast?) := by
  rw [requestBlockHasher_eq]
  apply hashBlocks_past
  · apply sees_past
    simp [htext]
  · simp [htext]

/-- A list in which each hash is made from the one before is the list of hashes from the start. -/
theorem eq_overlapHashes (l : List Bytes) (h : ∀ k b, l[k]? = some b →
      b = hashBlockTokens H (l.take k).getLast? (blockTokens H r (k * H.blockSize))
        (packKeys (blockKeys H r (k * H.blockSize) (k * H.blockSize + H.blockSize)))) :
    l = overlapHashes H r l.length 0 none := by
  induction l using List.reverseRecOn with
  | nil => rfl
  | append_singleton l b ih =>
    have hl : l = overlapHashes H r l.length 0 none := by
      apply ih
      intro k b' hk
      have hlt : k < l.length := (List.getElem?_eq_some_iff.mp hk).1
      have := h k b' (by rw [getElem?_append_left hlt, hk])
      rwa [take_append_of_le_length hlt.le] at this
    have hb := h l.length b (by simp)
    rw [take_left] at hb
    rw [length_append, length_singleton, overlapHashes_add, ← hl, Nat.zero_add,
      or_none]
    rw [hb]
    rfl

/-- Requests that agree on the tokens of the first `m` blocks have the same hashes there. -/
theorem overlapHashes_of_take {m : ℕ} {tokenIds : List ℤ} (hashes : List Bytes)
    (htake : tokenIds.take (m * H.blockSize) = r.allTokenIds.take (m * H.blockSize))
    (hlen : m * H.blockSize ≤ r.allTokenIds.length) :
    overlapHashes H (r.withTokens tokenIds hashes) m 0 none = overlapHashes H r m 0 none := by
  have hle : 0 + m * H.blockSize ≤ (r.allTokenIds.take (m * H.blockSize)).length := by
    rw [length_take]
    omega
  rw [overlapHashes_congr H r hashes [] none (htake ▸ take_prefix (m * H.blockSize) tokenIds) hle]
  exact (overlapHashes_congr H r r.blockHashes [] none
    (List.take_prefix (m * H.blockSize) r.allTokenIds) hle).symm

/-- For an injective hash function there is no other way. -/
theorem take_of_overlapHashes {m : ℕ} {tokenIds : List ℤ} {hashes : List Bytes}
    (hinj : Function.Injective H.hashFunction)
    (h : overlapHashes H (r.withTokens tokenIds hashes) m 0 none = overlapHashes H r m 0 none) :
    tokenIds.take (m * H.blockSize) = r.allTokenIds.take (m * H.blockSize) := by
  induction m with
  | zero => simp
  | succ m ih =>
    rw [overlapHashes_add, overlapHashes_add] at h
    obtain ⟨hinit, hlast⟩ := append_inj h (by rw [length_overlapHashes, length_overlapHashes])
    have hblock : blockTokens H (r.withTokens tokenIds hashes) (m * H.blockSize) =
        blockTokens H r (m * H.blockSize) := by
      simp only [overlapHashes, List.cons.injEq, and_true, Nat.zero_add] at hlast
      exact congrArg (fun x => x.2.1) (hinj hlast)
    rw [Nat.succ_mul, take_add, take_add, ih hinit]
    congr 1

end

/-! ## Requests that grow -/

namespace PromptRequest

variable (H : Hasher E) (r : PromptRequest E)

/-- The number of blocks that the prompt fills. -/
def numPromptBlocks : ℕ := r.allTokenIds.length / H.blockSize

/-- Of the items only the last one reaches into the block that the prompt leaves unfinished;
if that is the first block, it is hashed from scratch. -/
def LastItemOnly : Prop :=
  r.allTokenIds.length < H.blockSize ∨
    ∀ f ∈ r.mmFeatures.dropLast, f.stop ≤ r.numPromptBlocks H * H.blockSize

instance : Decidable (r.LastItemOnly H) := inferInstanceAs (Decidable (_ ∨ _))

/-- The request after it was created and after some calls of `append_output_token_ids`. -/
def afterCalls (calls : List (List ℤ)) : Option (RequestContent E) :=
  (r.updateBlockHashes H).bind fun c =>
    run (RequestContent.appendOutputTokenIds H) c calls

end PromptRequest

/-- The hashes are those of a new request with the same tokens, and each block that generated
tokens complete carries the keys of all items that overlap it. -/
structure InStep (H : Hasher E) (r : PromptRequest E) (c : RequestContent E) : Prop where
  scratch : c.hashesFromScratch H = some c.blockHashes
  carries : ∀ k h, r.numPromptBlocks H ≤ k → c.blockHashes[k]? = some h →
    h = hashBlockTokens H (c.blockHashes.take k).getLast? (blockTokens H c (k * H.blockSize))
      (packKeys (blockKeys H c (k * H.blockSize) (k * H.blockSize + H.blockSize)))

namespace PromptRequest

variable {H : Hasher E} {r : PromptRequest E}

theorem stop_le_of_le {k : ℕ} (hk : r.numPromptBlocks H ≤ k) {f : MultiModalFeature}
    (hf : f ∈ r.mmFeatures) : f.stop ≤ k * H.blockSize + H.blockSize := by
  have hlt : r.allTokenIds.length < (r.numPromptBlocks H + 1) * H.blockSize :=
    Nat.lt_mul_of_div_lt (Nat.lt_succ_self _) H.blockSize_pos
  have hle : (r.numPromptBlocks H + 1) * H.blockSize ≤ (k + 1) * H.blockSize :=
    Nat.mul_le_mul_right _ (by omega)
  rw [← Nat.succ_mul]
  exact (r.inPrompt f hf).trans (hlt.le.trans hle)

/-- From the first unfinished block on the resumed hasher and the one from scratch both see the
items that they should see. -/
theorem LastItemOnly.sees (h : r.LastItemOnly H) {tokenIds : List ℤ} {hashes : List Bytes} {k : ℕ}
    {idx : ℤ} (hk : r.numPromptBlocks H ≤ k)
    (hidx : k ≠ 0 ∧ idx = -1 ∨ IdxOk (r : RequestContent E) (k * H.blockSize) idx) :
    Sees (r.withTokens tokenIds hashes) (k * H.blockSize) (k * H.blockSize + H.blockSize) idx := by
  have hinit (hzero : k ≠ 0) : ∀ f ∈ r.mmFeatures.dropLast, f.stop ≤ k * H.blockSize := by
    rcases hk.eq_or_lt with rfl | hlt
    · -- the prompt fills a block, so the items are bounded
      exact h.resolve_left fun hsmall => hzero (Nat.div_eq_of_lt hsmall)
    · intro f hf
      have hprev := stop_le_of_le (Nat.le_sub_one_of_lt hlt) (mem_of_mem_dropLast hf)
      rwa [← Nat.succ_mul, Nat.succ_eq_add_one, Nat.sub_add_cancel (by omega)] at hprev
  obtain ⟨n, hn, hskip⟩ : ∃ n : ℕ, (idx = n ∨ idx = -1 ∧ n = r.mmFeatures.length - 1) ∧
      ∀ f ∈ r.mmFeatures.take n, f.stop ≤ k * H.blockSize := by
    rcases hidx with ⟨hzero, rfl⟩ | ⟨hpos, hskip⟩
    · exact ⟨_, .inr ⟨rfl, rfl⟩, by rw [← dropLast_eq_take]; exact hinit hzero⟩
    · exact ⟨idx.toNat, .inl (Int.toNat_of_nonneg hpos).symm, hskip⟩
  refine sees_of_skipped hn hskip
    (pairwise_of_forall_mem_list fun f hf _ _ => .inl (stop_le_of_le hk hf))
    fun last _ hover => hinit fun hzero => ?_
  have := last.start_lt_stop
  rw [hzero, Nat.zero_mul] at hover
  omega

/-- The hashes of the prompt. -/
theorem exists_promptHashes (H : Hasher E) (r : PromptRequest E) :
    ∃ hs idx, hashBlocks H r (r.numPromptBlocks H) 0 0 none =
        some (hs, idx, hs.getLast?) ∧ hs.length = r.numPromptBlocks H ∧
      IdxOk r.toRequestContent (r.numPromptBlocks H * H.blockSize) idx := by
  obtain ⟨hs, idx, hrun, hlen, hidx⟩ := hashBlocks_total H r.toRequestContent
    (r.numPromptBlocks H) (a := 0) none ⟨le_rfl, by simp⟩
  rw [or_none] at hrun
  rw [Nat.zero_add] at hidx
  exact ⟨hs, idx, hrun, hlen, hidx⟩

/-- The request with the tokens `tokenIds`, if its prompt has the hashes `hs` and all later blocks
carry the keys that they should. -/
def grown (H : Hasher E) (r : PromptRequest E) (hs : List Bytes) (tokenIds : List ℤ) :
    RequestContent E :=
  r.withTokens tokenIds
    (hs ++ overlapHashes H (r.withTokens tokenIds [])
      (tokenIds.length / H.blockSize - r.numPromptBlocks H) (r.numPromptBlocks H * H.blockSize)
      hs.getLast?)

section

variable {hs : List Bytes} {tokenIds : List ℤ}

theorem numPromptBlocks_le (hpre : r.allTokenIds <+: tokenIds) :
    r.numPromptBlocks H ≤ tokenIds.length / H.blockSize :=
  Nat.div_le_div_right hpre.length_le

theorem blocks_fit {k : ℕ} (h : k ≤ tokenIds.length / H.blockSize) :
    k * H.blockSize + (tokenIds.length / H.blockSize - k) * H.blockSize ≤ tokenIds.length := by
  rw [← Nat.add_mul, Nat.add_sub_cancel' h]
  exact Nat.div_mul_le_self _ _

theorem length_grown (hlen : hs.length = r.numPromptBlocks H) (hpre : r.allTokenIds <+: tokenIds) :
    (grown H r hs tokenIds).blockHashes.length = tokenIds.length / H.blockSize := by
  have := numPromptBlocks_le (H := H) hpre
  simp only [grown, RequestContent.withTokens, length_append, length_overlapHashes, hlen]
  omega

/-- The hashes of the longer request are the old ones and those of the blocks that became full. -/
theorem blockHashes_grown_append (hpre : r.allTokenIds <+: tokenIds) (more : List ℤ) :
    (grown H r hs (tokenIds ++ more)).blockHashes = (grown H r hs tokenIds).blockHashes ++
      overlapHashes H ((grown H r hs tokenIds).extend more)
        ((tokenIds ++ more).length / H.blockSize - tokenIds.length / H.blockSize)
        (tokenIds.length / H.blockSize * H.blockSize)
        (grown H r hs tokenIds).blockHashes.getLast? := by
  have hle := numPromptBlocks_le (H := H) hpre
  have hle' : tokenIds.length / H.blockSize ≤ (tokenIds ++ more).length / H.blockSize :=
    Nat.div_le_div_right (by simp)
  have hold := overlapHashes_congr H r [] [] hs.getLast? (prefix_append tokenIds more)
    (blocks_fit hle)
  have hnew (prev : Option Bytes) : overlapHashes H ((grown H r hs tokenIds).extend more) _ _ prev =
      _ := overlapHashes_congr H r _ [] prev
    (List.prefix_refl (tokenIds ++ more)) (blocks_fit hle')
  have hcount : (tokenIds ++ more).length / H.blockSize - r.numPromptBlocks H =
      (tokenIds.length / H.blockSize - r.numPromptBlocks H) +
        ((tokenIds ++ more).length / H.blockSize - tokenIds.length / H.blockSize) := by omega
  rw [hnew]
  simp only [grown, RequestContent.withTokens]
  rw [hcount]
  change hs ++ overlapHashes H (r.withTokens (tokenIds ++ more) []) _ _ _ =
    (hs ++ overlapHashes H (r.withTokens tokenIds []) _ _ _) ++ _
  rw [overlapHashes_add, hold, append_assoc, getLast?_append, ← Nat.add_mul,
    Nat.add_sub_cancel' hle]
  rfl

/-- **One call**: a request of this form that gets more tokens is of this form again. -/
theorem LastItemOnly.append (h : r.LastItemOnly H) (hlen : hs.length = r.numPromptBlocks H)
    (hpre : r.allTokenIds <+: tokenIds) (more : List ℤ) :
    (grown H r hs tokenIds).appendOutputTokenIds H more =
      some (grown H r hs (tokenIds ++ more)) := by
  set n := tokenIds.length / H.blockSize with hn
  have hle : r.numPromptBlocks H ≤ n := numPromptBlocks_le hpre
  have hlength : (grown H r hs tokenIds).blockHashes.length = n := length_grown hlen hpre
  have hresumed : requestBlockHasher H ((grown H r hs tokenIds).extend more) =
      some (overlapHashes H ((grown H r hs tokenIds).extend more)
        ((tokenIds ++ more).length / H.blockSize - n) (n * H.blockSize)
        (grown H r hs tokenIds).blockHashes.getLast?) := by
    have hh : ((grown H r hs tokenIds).extend more).blockHashes =
      (grown H r hs tokenIds).blockHashes := rfl
    have ht : ((grown H r hs tokenIds).extend more).allTokenIds = tokenIds ++ more := rfl
    rw [requestBlockHasher_eq, hh, hlength, ht]
    refine hashBlocks_past H _ _ (h.sees hle ?_) fun f hf => stop_le_of_le hle hf
    -- a hasher with nothing behind it starts at the first item, a resumed one at the last
    by_cases hzero : n = 0
    · rw [hzero]
      exact .inr ⟨le_rfl, by simp⟩
    · rw [if_pos (by omega)]
      exact .inl ⟨hzero, rfl⟩
  rw [RequestContent.appendOutputTokenIds, RequestContent.updateBlockHashes, hresumed]
  exact congrArg (fun l => some (r.withTokens (tokenIds ++ more) l))
    (blockHashes_grown_append hpre more).symm

theorem LastItemOnly.run_append (h : r.LastItemOnly H) (hlen : hs.length = r.numPromptBlocks H)
    (hpre : r.allTokenIds <+: tokenIds) (calls : List (List ℤ)) :
    run (RequestContent.appendOutputTokenIds H) (grown H r hs tokenIds) calls =
      some (grown H r hs (tokenIds ++ calls.flatten)) := by
  induction calls generalizing tokenIds with
  | nil => simp [run]
  | cons more calls ih =>
    have hstep := h.append hlen hpre more
    have hrest := ih (hpre.trans (prefix_append tokenIds more))
    rw [flatten_cons, ← append_assoc, ← hrest]
    simp only [run, hstep, bind_some]

theorem LastItemOnly.scratch_grown (h : r.LastItemOnly H) {idx : ℤ}
    (hprompt : hashBlocks H r (r.numPromptBlocks H) 0 0 none =
      some (hs, idx, hs.getLast?))
    (hidx : IdxOk r.toRequestContent (r.numPromptBlocks H * H.blockSize) idx)
    (hpre : r.allTokenIds <+: tokenIds) :
    (grown H r hs tokenIds).hashesFromScratch H = some (grown H r hs tokenIds).blockHashes := by
  have hle := numPromptBlocks_le (H := H) hpre
  have hfirst : hashBlocks H (r.withTokens tokenIds []) (r.numPromptBlocks H) 0 0
      none = some (hs, idx, hs.getLast?) := by
    rw [hashBlocks_congr H [] 0 none hpre (by
      rw [Nat.zero_add]
      exact Nat.div_mul_le_self _ _)]
    exact hprompt
  have hsees : Sees (r.withTokens tokenIds []) (r.numPromptBlocks H * H.blockSize)
      (r.numPromptBlocks H * H.blockSize + H.blockSize) idx := h.sees le_rfl (.inr hidx)
  have hrest := hashBlocks_past H (tokenIds.length / H.blockSize - r.numPromptBlocks H)
    hs.getLast? hsees fun f hf => stop_le_of_le le_rfl hf
  obtain ⟨q, hq, hfst⟩ := map_eq_some_iff.mp hrest
  calc (grown H r hs tokenIds).hashesFromScratch H
      = (hashBlocks H (r.withTokens tokenIds [])
          (tokenIds.length / H.blockSize) 0 0 none).map Prod.fst := by
        rw [RequestContent.hashesFromScratch, requestBlockHasher_eq]
        simp [grown, RequestContent.withTokens]
    _ = (hashBlocks H (r.withTokens tokenIds [])
          (r.numPromptBlocks H + (tokenIds.length / H.blockSize - r.numPromptBlocks H)) 0 0
          none).map Prod.fst := by
        rw [Nat.add_sub_cancel' hle]
    _ = some (hs ++ q.1) := by
        rw [hashBlocks_add, hfirst, bind_some, Nat.zero_add, hq]
        rfl
    _ = some (grown H r hs tokenIds).blockHashes := by
        rw [hfst]
        rfl

theorem carries_grown (hlen : hs.length = r.numPromptBlocks H) {k : ℕ} {h : Bytes}
    (hk : r.numPromptBlocks H ≤ k) (hget : (grown H r hs tokenIds).blockHashes[k]? = some h) :
    h = hashBlockTokens H ((grown H r hs tokenIds).blockHashes.take k).getLast?
      (blockTokens H (grown H r hs tokenIds) (k * H.blockSize))
      (packKeys (blockKeys H (grown H r hs tokenIds) (k * H.blockSize)
        (k * H.blockSize + H.blockSize))) := by
  obtain ⟨i, rfl⟩ := Nat.exists_eq_add_of_le hk
  simp only [grown, RequestContent.withTokens] at hget ⊢
  rw [getElem?_append_right (by omega), hlen, Nat.add_sub_cancel_left] at hget
  have hmade := getElem?_overlapHashes hget
  rw [← Nat.add_mul] at hmade
  rw [take_append, take_of_length_le (by omega), hlen, Nat.add_sub_cancel_left,
    getLast?_append]
  exact hmade

end

theorem grown_prompt (H : Hasher E) (r : PromptRequest E) (hs : List Bytes) :
    grown H r hs r.allTokenIds = r.withTokens r.allTokenIds hs := by
  simp [grown, RequestContent.withTokens, numPromptBlocks, overlapHashes]

theorem afterCalls_eq (H : Hasher E) (r : PromptRequest E) {hs : List Bytes} {idx : ℤ}
    (hprompt : hashBlocks H r (r.numPromptBlocks H) 0 0 none =
      some (hs, idx, hs.getLast?)) (calls : List (List ℤ)) :
    r.afterCalls H calls =
      run (RequestContent.appendOutputTokenIds H) (grown H r hs r.allTokenIds) calls := by
  have hcreate : r.updateBlockHashes H = some (grown H r hs r.allTokenIds) := by
    have hhash : requestBlockHasher H r.toRequestContent = some hs := by
      rw [requestBlockHasher_eq, r.fresh]
      simp only [length_nil, Nat.sub_zero, Nat.zero_mul, lt_irrefl, if_false,
        getLast?_nil]
      rw [show r.allTokenIds.length / H.blockSize = r.numPromptBlocks H from rfl, hprompt]
      rfl
    rw [RequestContent.updateBlockHashes, hhash, r.fresh, grown_prompt]
    rfl
  rw [afterCalls, hcreate]
  rfl

/-- **Sufficiency**, for any hash function. -/
theorem LastItemOnly.inStep (h : r.LastItemOnly H) (calls : List (List ℤ)) :
    ∃ c, r.afterCalls H calls = some c ∧ InStep H r c := by
  obtain ⟨hs, idx, hprompt, hlen, hidx⟩ := exists_promptHashes H r
  refine ⟨grown H r hs (r.allTokenIds ++ calls.flatten), ?_, ?_, ?_⟩
  · rw [afterCalls_eq H r hprompt]
    exact h.run_append hlen prefix_rfl calls
  · exact h.scratch_grown hprompt hidx (prefix_append _ _)
  · exact fun k b hk hget => carries_grown hlen hk hget

/-- **Necessity**, from the first block that generated tokens complete. -/
theorem lastItemOnly_of_inStep (hinj : Function.Injective H.hashFunction)
    (h : ∀ calls, ∃ c, r.afterCalls H calls = some c ∧ InStep H r c) : r.LastItemOnly H := by
  by_cases hsmall : r.allTokenIds.length < H.blockSize
  · exact .inl hsmall
  refine .inr ?_
  have hpos := H.blockSize_pos
  obtain ⟨hs, idx, hprompt, hlen, -⟩ := exists_promptHashes H r
  have hblocks : 0 < r.numPromptBlocks H := Nat.div_pos (by omega) hpos
  obtain ⟨c, hrun, hc⟩ := h [replicate H.blockSize 0]
  rw [afterCalls_eq H r hprompt, grown_prompt] at hrun
  -- the request with one more block, which is hashed from the last item on
  set r' := r.withTokens (r.allTokenIds ++ replicate H.blockSize 0) hs
    with hr'
  set a := r.numPromptBlocks H * H.blockSize with ha
  have hcount : r'.allTokenIds.length / H.blockSize - hs.length = 1 := by
    have hlen' : r'.allTokenIds.length = r.allTokenIds.length + H.blockSize := by
      simp [hr', RequestContent.withTokens]
    rw [hlen', Nat.add_div_right _ hpos, hlen]
    exact Nat.add_sub_cancel_left _ _
  have hresumed : requestBlockHasher H r' =
      (hashBlocks H r' 1 a (-1) hs.getLast?).map Prod.fst := by
    rw [requestBlockHasher_eq, show r'.blockHashes = hs from rfl, hcount, hlen, if_pos hblocks]
  obtain ⟨c', hcall, hnil⟩ := run_cons_eq_some.mp hrun
  cases hnil
  change (requestBlockHasher H r').bind _ = _ at hcall
  rw [hresumed] at hcall
  obtain ⟨news, hnews, hcall⟩ := bind_eq_some_iff.mp hcall
  obtain ⟨q, hq, rfl⟩ := map_eq_some_iff.mp hnews
  obtain ⟨mmKeys, next, hkeys, hfst⟩ := hashBlocks_one hq
  cases hcall
  -- by injectivity the new block has the keys that it should have
  have hget : (hs ++ q.1)[r.numPromptBlocks H]? = some (hashBlockTokens H hs.getLast?
      (blockTokens H r' a) (packKeys (genLoraExtraHashKeys r' ++ mmKeys ++ cacheSaltKeys r' a ++
        genPromptEmbedsExtraHashKeys H r' a (a + H.blockSize)))) := by
    rw [hfst, getElem?_append_right (by omega), hlen, Nat.sub_self]
    rfl
  have hmade := hc.carries _ _ le_rfl hget
  have hall : genLoraExtraHashKeys r' ++ mmKeys ++ cacheSaltKeys r' a ++
      genPromptEmbedsExtraHashKeys H r' a (a + H.blockSize) =
      blockKeys H r' a (a + H.blockSize) := packKeys_inj (congrArg (fun x => x.2.2) (hinj hmade))
  have hmm : mmKeys = itemKeys r' a (a + H.blockSize) := by
    simpa [blockKeys] using hall
  exact stop_le_of_sees_last (r := r') (fun f hf => stop_le_of_le le_rfl hf)
    ⟨next, by rw [hkeys, hmm]⟩

/-- **Hashing while a request grows.** If only the last item reaches into the unfinished block of
the prompt, then after any calls of `append_output_token_ids` the hashes are those of a new request
with the same tokens, and the blocks that generated tokens complete carry all their items. For an
injective hash function this is the only case. -/
theorem inStep_iff_lastItemOnly (H : Hasher E) (r : PromptRequest E) :
    (r.LastItemOnly H → ∀ calls, ∃ c, r.afterCalls H calls = some c ∧ InStep H r c) ∧
      (Function.Injective H.hashFunction →
        (∀ calls, ∃ c, r.afterCalls H calls = some c ∧ InStep H r c) → r.LastItemOnly H) :=
  ⟨LastItemOnly.inStep, lastItemOnly_of_inStep⟩

/-- Six tokens in blocks of four; the last two tokens are one item each. -/
def twoItemPrompt : PromptRequest ℕ :=
  { textRequest none none with
    allTokenIds := [11, 12, 13, 14, 0, 0]
    mmFeatures := [⟨"first", { offset := 4, length := 1, length_pos := Nat.one_pos }⟩,
      ⟨"second", { offset := 5, length := 1, length_pos := Nat.one_pos }⟩]
    inPrompt := by decide }

/-- A hash that only tells how many extra keys a block has. -/
def keyCountHasher : Hasher ℕ where
  blockSize := 4
  blockSize_pos := by decide
  hashFunction := fun x => [1, (x.2.2.getD []).length.toUInt8]
  noneHash := [0]
  embedsDigest := fun _ => []

/-- Two generated tokens complete the second block: its hash has the key of the second item only,
from scratch it has both. -/
theorem resumed_hash_misses_first_item :
    (twoItemPrompt.afterCalls keyCountHasher [[21], [22]]).map (·.blockHashes) =
        some [[1, 0], [1, 1]] ∧
      (twoItemPrompt.afterCalls keyCountHasher [[21], [22]]).bind
        (·.hashesFromScratch keyCountHasher) = some [[1, 0], [1, 2]] :=
  ⟨by decide +kernel, by decide +kernel⟩

end PromptRequest

end Nvllm.KVCache
