import Mathlib.Data.Countable.Basic
import Mathlib.Logic.Equiv.List
import Nvllm.KVCache.HashBlocks
import Nvllm.Lib.HashChain

/-! # What a block hash determines

The hashes of a request that is hashed from scratch form a hash chain over the entries (token ids,
extra keys) of its blocks. With an ideal hash function equal hashes mean equal entries, so the
question is what the extra keys of a block determine. They determine the multimodal items, but of
the LoRA name and the salt only the list of both.
-/

namespace Nvllm.KVCache

open Nvllm.HashChain List

variable {E : Type}

/-- A request as it is when it is hashed for the first time: no hashes yet, items sorted and not
overlapping. -/
structure FreshRequest (E : Type) extends RequestContent E where
  fresh : blockHashes = []
  sorted : mmFeatures.Pairwise fun f g => f.stop ≤ g.start

/-- A hasher whose hash function is injective, never gives the seed and never an empty string. -/
structure IdealHasher (E : Type) extends Hasher E where
  injective : Function.Injective hashFunction
  ne_none : ∀ x, hashFunction x ≠ noneHash
  ne_empty : ∀ x, hashFunction x ≠ []

instance : Coe (FreshRequest E) (RequestContent E) := ⟨FreshRequest.toRequestContent⟩

instance : Coe (IdealHasher E) (Hasher E) := ⟨IdealHasher.toHasher⟩

/-! ## The entries of a request -/

/-- Token ids and extra keys of block `k`. -/
def entry (H : Hasher E) (r : RequestContent E) (k : ℕ) : List ℤ × Option (List ExtraKey) :=
  ((r.allTokenIds.drop (k * H.blockSize)).take H.blockSize,
    packKeys (blockKeys H r (k * H.blockSize) (k * H.blockSize + H.blockSize)))

def entries (H : Hasher E) (r : RequestContent E) (n : ℕ) :
    List (List ℤ × Option (List ExtraKey)) :=
  (range n).map (entry H r)

/-- The hash chain of a hasher. -/
def chain (H : Hasher E) (l : List (List ℤ × Option (List ExtraKey))) : Bytes :=
  digest (fun p e => H.hashFunction (p, e.1, e.2)) H.noneHash l

theorem entries_succ (H : Hasher E) (r : RequestContent E) (n : ℕ) :
    entries H r (n + 1) = entries H r n ++ [entry H r n] := by
  simp [entries, range_succ]

theorem IdealHasher.ideal (H : IdealHasher E) :
    Ideal (fun p (e : List ℤ × Option (List ExtraKey)) => H.hashFunction (p, e.1, e.2))
      H.noneHash where
  inj := by
    intro p q a b h
    have := H.injective h
    simp only [Prod.mk.injEq] at this
    exact ⟨this.1, Prod.ext this.2.1 this.2.2⟩
  ne_seed := fun _ _ => H.ne_none _

variable {a b : ℕ}

/-! ## The hashes are the chain -/

theorem chain_entries_succ (H : Hasher E) (r : RequestContent E) (n : ℕ) :
    chain H (entries H r (n + 1)) =
      H.hashFunction (chain H (entries H r n), (entry H r n).1, (entry H r n).2) := by
  rw [entries_succ, chain, digest_concat]
  rfl

/-- The hash that the round for block `n` starts with. -/
def parent (H : Hasher E) (r : RequestContent E) (n : ℕ) : Option Bytes :=
  if n = 0 then none else some (chain H (entries H r n))

theorem hashBlockTokens_chain (H : IdealHasher E) (r : RequestContent E) (n : ℕ) :
    hashBlockTokens H.toHasher (parent H r n) (entry H r n).1 (entry H r n).2 =
      chain H.toHasher (entries H r (n + 1)) := by
  rw [chain_entries_succ]
  cases n with
  | zero => rfl
  | succ n =>
    have hne : chain H.toHasher (entries H r (n + 1)) ≠ [] := by
      rw [chain_entries_succ]
      exact H.ne_empty _
    simp only [parent, if_neg (Nat.succ_ne_zero n), hashBlockTokens, if_neg hne]

/-- From block `n` on, the hashes are the chain over the first `n + 1`, `n + 2`, … entries. -/
theorem overlapHashes_chain (H : IdealHasher E) (r : RequestContent E) (m n : ℕ) :
    overlapHashes H r m (n * H.blockSize) (parent H r n) =
      (range' n m).map fun k => chain H.toHasher (entries H r (k + 1)) := by
  induction m generalizing n with
  | zero => rfl
  | succ m ih =>
    have hhash := hashBlockTokens_chain H r n
    rw [entry] at hhash
    rw [overlapHashes, blockTokens, hhash, range'_succ, map_cons, ← ih, Nat.succ_mul]
    rfl

/-- In a sorted request an index that skips only items that are over sees the items of the block. -/
theorem FreshRequest.sees (r : FreshRequest E) {idx : ℤ}
    (hidx : IdxOk r.toRequestContent a idx) : Sees r.toRequestContent a b idx := by
  refine sees_of_skipped (n := idx.toNat) (.inl (Int.toNat_of_nonneg hidx.1).symm) hidx.2
    (r.sorted.imp fun h => ?_) fun last hlast hover f hf => ?_
  · rw [not_overlaps_iff]
    omega
  · have hs := r.sorted
    rw [← dropLast_append_getLast? last hlast, pairwise_append] at hs
    have := hs.2.2 f hf last mem_cons_self
    have := last.start_lt_stop
    omega

/-- **The hashes of a request** that has none yet: one for each full block, each the chain over
the entries up to it. -/
theorem requestBlockHasher_spec (H : IdealHasher E) (r : FreshRequest E) :
    requestBlockHasher H.toHasher r =
      some ((range (r.allTokenIds.length / H.blockSize)).map fun k =>
        chain H.toHasher (entries H.toHasher r (k + 1))) := by
  rw [requestBlockHasher_eq, hashBlocks_of_sees H.toHasher (IdxOk r.toRequestContent) ?_ _ _ ?_,
    r.fresh, range_eq_range', ← overlapHashes_chain]
  · rfl
  · intro a idx hidx
    obtain ⟨p, hp, hnext⟩ := genMmExtraHashKeys_idx _ (Nat.le_add_right a H.blockSize) hidx
    obtain ⟨next, hsees⟩ := r.sees hidx
    cases hp.symm.trans hsees
    exact ⟨next, hsees, hnext⟩
  · simp [r.fresh, IdxOk]

/-! ## What the keys of a block determine -/

def ExtraKey.isText : ExtraKey → Bool
  | .text _ => true
  | _ => false

def ExtraKey.isItem : ExtraKey → Bool
  | .item _ _ => true
  | _ => false

def ExtraKey.isDigest : ExtraKey → Bool
  | .digest _ => true
  | _ => false

/-- The salt that counts. -/
def RequestContent.salt (r : RequestContent E) : Option String := r.cacheSalt.filter (· ≠ "")

/-- LoRA name and salt as they stand in the keys of a block. -/
def texts (r : RequestContent E) (a : ℕ) : List String :=
  r.loraName.toList ++ if a = 0 then r.salt.toList else []

theorem genLoraExtraHashKeys_eq (r : RequestContent E) :
    genLoraExtraHashKeys r = r.loraName.toList.map .text := by
  unfold genLoraExtraHashKeys
  cases r.loraName <;> rfl

theorem cacheSaltKeys_eq (r : RequestContent E) (a : ℕ) :
    cacheSaltKeys r a = (if a = 0 then r.salt.toList else []).map .text := by
  unfold cacheSaltKeys RequestContent.salt
  cases r.cacheSalt with
  | none => simp
  | some s =>
    by_cases ha : a = 0 <;> by_cases hs : s = "" <;> simp [ha, hs, Option.filter]

theorem genPromptEmbedsExtraHashKeys_eq (H : Hasher E) (r : RequestContent E) (a b : ℕ) :
    genPromptEmbedsExtraHashKeys H r a b =
      ((r.promptEmbeds.map fun rows => H.embedsDigest ((rows.drop a).take (b - a))).toList).map
        .digest := by
  unfold genPromptEmbedsExtraHashKeys
  cases r.promptEmbeds <;> rfl

section

variable (H : Hasher E) (r : RequestContent E) (a b : ℕ)

theorem blockKeys_items : (blockKeys H r a b).filter ExtraKey.isItem = itemKeys r a b := by
  simp [blockKeys, genLoraExtraHashKeys_eq, cacheSaltKeys_eq, genPromptEmbedsExtraHashKeys_eq,
    itemKeys, filter_map, Function.comp_def, ExtraKey.isItem]

theorem blockKeys_texts : (blockKeys H r a b).filter ExtraKey.isText = (texts r a).map .text := by
  simp [blockKeys, genLoraExtraHashKeys_eq, cacheSaltKeys_eq, genPromptEmbedsExtraHashKeys_eq,
    itemKeys, filter_map, Function.comp_def, ExtraKey.isText, texts]

theorem blockKeys_digests : (blockKeys H r a b).filter ExtraKey.isDigest =
    genPromptEmbedsExtraHashKeys H r a b := by
  simp [blockKeys, genLoraExtraHashKeys_eq, cacheSaltKeys_eq, genPromptEmbedsExtraHashKeys_eq,
    itemKeys, filter_map, Function.comp_def, ExtraKey.isDigest]

end

/-- **Keys of a block, taken apart.** Equal keys mean equal items, embeddings and list of texts;
which text is the LoRA name can be told if there is an item between. -/
theorem blockKeys_eq_iff (H : Hasher E) (r r' : RequestContent E) (a b : ℕ) :
    blockKeys H r a b = blockKeys H r' a b ↔
      itemKeys r a b = itemKeys r' a b ∧ texts r a = texts r' a ∧
        genPromptEmbedsExtraHashKeys H r a b = genPromptEmbedsExtraHashKeys H r' a b ∧
        (itemKeys r a b ≠ [] → r.loraName = r'.loraName) := by
  constructor
  · intro h
    have hitem := congrArg (List.filter ExtraKey.isItem) h
    have htext := congrArg (List.filter ExtraKey.isText) h
    have hdig := congrArg (List.filter ExtraKey.isDigest) h
    rw [blockKeys_items, blockKeys_items] at hitem
    rw [blockKeys_texts, blockKeys_texts] at htext
    rw [blockKeys_digests, blockKeys_digests] at hdig
    have hinj : Function.Injective ExtraKey.text := fun _ _ h => ExtraKey.text.inj h
    refine ⟨hitem, hinj.list_map htext, hdig, fun hne => ?_⟩
    -- the first key is a text exactly if there is a LoRA name
    obtain ⟨i, o, fs, hf⟩ : ∃ i o fs, itemKeys r a b = .item i o :: fs := by
      unfold itemKeys at hne ⊢
      cases hfs : r.mmFeatures.filter (·.Overlaps a b) with
      | nil => simp [hfs] at hne
      | cons f fs => exact ⟨_, _, _, rfl⟩
    have hhead := congrArg List.head? h
    simp only [blockKeys, genLoraExtraHashKeys_eq, ← hitem, hf] at hhead
    cases hl : r.loraName <;> cases hl' : r'.loraName <;> simp [hl, hl'] at hhead ⊢
    exact hhead
  · rintro ⟨hitem, htext, hdig, hlora⟩
    simp only [blockKeys, genLoraExtraHashKeys_eq, cacheSaltKeys_eq]
    rw [← hitem, hdig]
    by_cases hne : itemKeys r a b = []
    · rw [texts, texts] at htext
      simp only [hne, append_nil, ← map_append, htext]
    · rw [texts, texts, hlora hne] at htext
      rw [hlora hne, append_cancel_left htext]

theorem packKeys_inj {k k' : List ExtraKey} (h : packKeys k = packKeys k') : k = k' := by
  unfold packKeys at h
  split at h <;> split at h <;> simp_all

theorem entry_eq_iff (H : Hasher E) (r r' : RequestContent E) (k : ℕ) :
    entry H r k = entry H r' k ↔
      (r.allTokenIds.drop (k * H.blockSize)).take H.blockSize =
          (r'.allTokenIds.drop (k * H.blockSize)).take H.blockSize ∧
        blockKeys H r (k * H.blockSize) (k * H.blockSize + H.blockSize) =
          blockKeys H r' (k * H.blockSize) (k * H.blockSize + H.blockSize) := by
  simp only [entry, Prod.mk.injEq]
  exact and_congr_right fun _ => ⟨packKeys_inj, fun h => by rw [h]⟩

/-! ## Soundness of the key -/

/-- An item of the request with this identifier and offset overlaps the first `n` tokens. -/
def ItemIn (r : RequestContent E) (n : ℕ) (identifier : String) (offset : ℕ) : Prop :=
  ∃ f ∈ r.mmFeatures, f.identifier = identifier ∧ f.start = offset ∧ f.Overlaps 0 n

/-- The two prefixes have the same content under the same adapter and salt. -/
structure SamePrefix (blockSize : ℕ) (r r' : RequestContent E) (i j : ℕ) : Prop where
  index : i = j
  tokens : r.allTokenIds.take ((i + 1) * blockSize) = r'.allTokenIds.take ((i + 1) * blockSize)
  lora : r.loraName = r'.loraName
  salt : r.cacheSalt = r'.cacheSalt
  items : ∀ identifier offset, ItemIn r ((i + 1) * blockSize) identifier offset ↔
    ItemIn r' ((i + 1) * blockSize) identifier offset

/-- Both requests are hashed, and blocks with the same hash have the same prefix. -/
def KeySound (H : IdealHasher E) (r r' : FreshRequest E) : Prop :=
  ∃ hs hs', requestBlockHasher H.toHasher r = some hs ∧
    requestBlockHasher H.toHasher r' = some hs' ∧
    ∀ i j h, hs[i]? = some h → hs'[j]? = some h →
      SamePrefix H.blockSize r.toRequestContent r' i j

/-- The LoRA name of one request is the salt of the other, which has no LoRA. -/
def NameIsSalt (r r' : RequestContent E) : Prop :=
  ∃ x, x ≠ "" ∧ r.loraName = some x ∧ r.cacheSalt.getD "" = "" ∧
    r'.loraName = none ∧ r'.cacheSalt = some x

/-- **Confusable requests** agree in the first block on tokens, items and embeddings, and differ
in one of two ways: only by an empty salt against none; or, with no item in the first block, by a
LoRA name in the place of the salt. -/
structure Confusable (H : Hasher E) (r r' : RequestContent E) : Prop where
  full : H.blockSize ≤ r.allTokenIds.length
  full' : H.blockSize ≤ r'.allTokenIds.length
  tokens : r.allTokenIds.take H.blockSize = r'.allTokenIds.take H.blockSize
  items : itemKeys r 0 H.blockSize = itemKeys r' 0 H.blockSize
  embeds : genPromptEmbedsExtraHashKeys H r 0 H.blockSize =
    genPromptEmbedsExtraHashKeys H r' 0 H.blockSize
  keys : (r.loraName = r'.loraName ∧ r.cacheSalt ≠ r'.cacheSalt ∧
      r.cacheSalt.getD "" = r'.cacheSalt.getD "") ∨
    (itemKeys r 0 H.blockSize = [] ∧ (NameIsSalt r r' ∨ NameIsSalt r' r))

theorem entries_eq_iff (H : Hasher E) (r r' : RequestContent E) (n n' : ℕ) :
    entries H r n = entries H r' n' ↔ n = n' ∧ ∀ k < n, entry H r k = entry H r' k := by
  constructor
  · intro h
    have hlen := congrArg List.length h
    simp only [entries, length_map, length_range] at hlen
    subst hlen
    refine ⟨rfl, fun k hk => ?_⟩
    have hget := congrArg (fun l => l[k]?) h
    simpa [entries, hk] using hget
  · rintro ⟨rfl, h⟩
    exact map_congr_left fun k hk => h k (mem_range.mp hk)

theorem take_eq_of_blocks (l l' : List ℤ) (b n : ℕ)
    (h : ∀ k < n, (l.drop (k * b)).take b = (l'.drop (k * b)).take b) :
    l.take (n * b) = l'.take (n * b) := by
  induction n with
  | zero => simp
  | succ n ih =>
    rw [Nat.succ_mul, take_add, take_add, ih fun k hk => h k (by omega),
      h n (by omega)]

/-- The items of a prefix, from the items of its blocks: an item is in the block of its first
token. -/
theorem ItemIn.of_blocks {r r' : RequestContent E} {n : ℕ} (hb : 0 < b)
    (h : ∀ k < n, itemKeys r (k * b) (k * b + b) = itemKeys r' (k * b) (k * b + b))
    {identifier : String} {offset : ℕ} (hin : ItemIn r (n * b) identifier offset) :
    ItemIn r' (n * b) identifier offset := by
  obtain ⟨f, hf, hid, hoff, hlt, -⟩ := hin
  have hk : f.start / b < n := Nat.div_lt_of_lt_mul (by rwa [Nat.mul_comm])
  have hlo : f.start / b * b ≤ f.start := Nat.div_mul_le_self _ _
  have hhi : f.start < f.start / b * b + b := by
    have := Nat.lt_div_mul_add (a := f.start) hb
    omega
  have hmem : ExtraKey.item f.identifier ((f.start : ℤ) - (f.start / b * b : ℕ)) ∈
      itemKeys r (f.start / b * b) (f.start / b * b + b) := by
    have hpos := f.start_lt_stop
    exact mem_map.mpr
      ⟨f, mem_filter.mpr ⟨hf, decide_eq_true ⟨hhi, by omega⟩⟩, rfl⟩
  rw [h _ hk] at hmem
  obtain ⟨g, hg, heq⟩ := mem_map.mp hmem
  obtain ⟨hgid, hgoff⟩ := ExtraKey.item.inj heq
  have hstart : g.start = f.start := by omega
  refine ⟨g, (mem_filter.mp hg).1, by rw [hgid, hid], by rw [hstart, hoff], ?_, ?_⟩
  · rw [hstart]
    exact hlt
  · exact g.start_lt_stop.trans_le' (Nat.zero_le _)

theorem salt_toList (r : RequestContent E) :
    r.salt.toList = if r.cacheSalt.getD "" = "" then [] else [r.cacheSalt.getD ""] := by
  unfold RequestContent.salt
  cases r.cacheSalt with
  | none => rfl
  | some s => by_cases hs : s = "" <;> simp [hs, Option.filter]

/-- The texts of the first block tell LoRA name and salt apart unless one stands in the place of
the other. -/
theorem texts_zero_eq_iff (r r' : RequestContent E) : texts r 0 = texts r' 0 ↔
    (r.loraName = r'.loraName ∧ r.cacheSalt.getD "" = r'.cacheSalt.getD "") ∨
      NameIsSalt r r' ∨ NameIsSalt r' r := by
  have hsome : ∀ (o : Option String) (x : String), x ≠ "" → (o = some x ↔ o.getD "" = x) := by
    intro o x hx
    cases o with
    | none => simpa using Ne.symm hx
    | some y => simp
  simp only [texts, if_true, salt_toList, NameIsSalt]
  constructor
  · intro h
    cases hl : r.loraName with
    | none =>
      cases hl' : r'.loraName with
      | none =>
        split at h <;> split at h <;> simp_all
      | some y =>
        split at h <;> split at h <;> simp_all
    | some x =>
      cases hl' : r'.loraName with
      | none =>
        split at h <;> split at h <;> simp_all
      | some y =>
        split at h <;> split at h <;> simp_all
  · rintro (⟨hl, hs⟩ | ⟨x, hx, hl, hs, hl', hs'⟩ | ⟨x, hx, hl, hs, hl', hs'⟩)
    · rw [hl, hs]
    · simp [hl, hs, hl', hs', hx]
    · simp [hl, hs, hl', hs', hx]

section

variable (H : IdealHasher E) (r r' : FreshRequest E)

variable {i : ℕ}

theorem hashes_eq_iff {j : ℕ} : chain H.toHasher (entries H.toHasher r i) =
      chain H.toHasher (entries H.toHasher r' j) ↔
    i = j ∧ ∀ k < i, entry H.toHasher r k =
      entry H.toHasher r' k := by
  rw [← entries_eq_iff]
  exact ⟨H.ideal.digest_inj, fun h => by rw [h]⟩

/-- The hashes of one request are pairwise different. -/
theorem requestBlockHasher_nodup {hs : List Bytes}
    (h : requestBlockHasher H.toHasher r = some hs) : hs.Nodup := by
  cases (requestBlockHasher_spec H r).symm.trans h
  refine nodup_range.map_on fun i _ j _ heq => ?_
  -- equal digests come from equally many entries
  have := ((hashes_eq_iff H r r).mp heq).1
  omega

theorem getElem?_map_range {g : ℕ → Bytes} {n k : ℕ} {h : Bytes} :
    ((range n).map g)[k]? = some h ↔ k < n ∧ g k = h := by
  by_cases hk : k < n <;> simp [hk]

/-- What equal hashes of two blocks say in any case. -/
theorem samePrefix_of_entries (h : ∀ k < i + 1, entry H.toHasher r k =
      entry H.toHasher r' k) (hlora : r.loraName = r'.loraName)
    (hsalt : r.cacheSalt = r'.cacheSalt) :
    SamePrefix H.blockSize r.toRequestContent r' i i := by
  have htok := fun k hk => ((entry_eq_iff _ _ _ _).mp (h k hk)).1
  have hitems := fun k hk =>
    ((blockKeys_eq_iff _ _ _ _ _).mp ((entry_eq_iff _ _ _ _).mp (h k hk)).2).1
  exact ⟨rfl, take_eq_of_blocks _ _ _ _ htok, hlora, hsalt, fun _ _ =>
    ⟨ItemIn.of_blocks H.blockSize_pos hitems,
      ItemIn.of_blocks H.blockSize_pos fun k hk => (hitems k hk).symm⟩⟩

/-- Requests with the same first entry that are not confusable have LoRA name and salt in common,
or a LoRA name that shows in the second block. -/
theorem lora_salt_of_entries (hfull : H.blockSize ≤ r.allTokenIds.length)
    (hfull' : H.blockSize ≤ r'.allTokenIds.length)
    (h : ∀ k < i + 1, entry H.toHasher r k =
      entry H.toHasher r' k)
    (hnot : ¬ Confusable H.toHasher r r') :
    r.loraName = r'.loraName ∧ r.cacheSalt = r'.cacheSalt := by
  obtain ⟨htok, hkeys⟩ := (entry_eq_iff _ _ _ _).mp (h 0 (by omega))
  simp only [Nat.zero_mul, drop_zero, Nat.zero_add] at htok hkeys
  obtain ⟨hitems, htexts, hembeds, hlora⟩ := (blockKeys_eq_iff _ _ _ _ _).mp hkeys
  have hkeys' := fun hk => hnot ⟨hfull, hfull', htok, hitems, hembeds, hk⟩
  have heq : r.loraName = r'.loraName := by
    rcases (texts_zero_eq_iff _ _).mp htexts with ⟨hl, -⟩ | hswap
    · exact hl
    · by_cases hnil : itemKeys r.toRequestContent 0 H.blockSize = []
      · exact absurd (.inr ⟨hnil, hswap⟩) hkeys'
      · exact hlora hnil
  refine ⟨heq, ?_⟩
  by_contra hne
  refine hkeys' (.inl ⟨heq, hne, ?_⟩)
  rcases (texts_zero_eq_iff _ _).mp htexts with
    ⟨-, hs⟩ | ⟨x, -, hl, -, hl', -⟩ | ⟨x, -, hl, -, hl', -⟩
  · exact hs
  · rw [hl, hl'] at heq
    cases heq
  · rw [hl, hl'] at heq
    cases heq

theorem Confusable.entry_zero_eq {H : Hasher E} {r r' : RequestContent E}
    (h : Confusable H r r') : entry H r 0 = entry H r' 0 := by
  rw [entry_eq_iff, blockKeys_eq_iff]
  simp only [Nat.zero_mul, Nat.zero_add, drop_zero]
  refine ⟨h.tokens, h.items, (texts_zero_eq_iff r r').mpr ?_, h.embeds, ?_⟩
  · rcases h.keys with ⟨hl, -, hs⟩ | ⟨-, hswap⟩
    · exact .inl ⟨hl, hs⟩
    · exact .inr hswap
  · rcases h.keys with ⟨hl, -⟩ | ⟨hnil, -⟩
    · exact fun _ => hl
    · exact fun hne => absurd hnil hne

/-- Confusable requests do differ in adapter or salt. -/
theorem Confusable.not_same {H : Hasher E} {r r' : RequestContent E} (h : Confusable H r r')
    (hl : r.loraName = r'.loraName) : r.cacheSalt ≠ r'.cacheSalt := by
  rcases h.keys with ⟨-, hne, -⟩ | ⟨-, ⟨x, -, hx, -, hx', -⟩ | ⟨x, -, hx, -, hx', -⟩⟩
  · exact hne
  · rw [hx, hx'] at hl
    cases hl
  · rw [hx, hx'] at hl
    cases hl

/-- **Soundness of the prefix-cache key.** Two requests can share a block hash only over the same
prefix, LoRA name and salt, except if they are confusable. -/
theorem keySound_iff :
    KeySound H r r' ↔ ¬ Confusable H.toHasher r r' := by
  have hpos := H.blockSize_pos
  constructor
  · rintro ⟨_, _, hhs, hhs', hsound⟩ hconf
    cases (requestBlockHasher_spec H r).symm.trans hhs
    cases (requestBlockHasher_spec H r').symm.trans hhs'
    have heq : chain H.toHasher (entries H.toHasher r (0 + 1)) =
        chain H.toHasher (entries H.toHasher r' (0 + 1)) := by
      refine (hashes_eq_iff H r r').mpr ⟨rfl, fun k hk => ?_⟩
      obtain rfl : k = 0 := by omega
      exact hconf.entry_zero_eq
    have hsame := hsound 0 0 _ (getElem?_map_range.mpr ⟨Nat.div_pos hconf.full hpos, rfl⟩)
      (getElem?_map_range.mpr ⟨Nat.div_pos hconf.full' hpos, heq.symm⟩)
    exact hconf.not_same hsame.lora hsame.salt
  · intro hnot
    refine ⟨_, _, requestBlockHasher_spec H r, requestBlockHasher_spec H r', fun i j h hi hj => ?_⟩
    obtain ⟨hlen, rfl⟩ := getElem?_map_range.mp hi
    obtain ⟨hlen', heq⟩ := getElem?_map_range.mp hj
    obtain ⟨hij, hent⟩ := (hashes_eq_iff H r r').mp heq.symm
    obtain rfl : i = j := by omega
    obtain ⟨hl, hsalt⟩ := lora_salt_of_entries H r r' (Nat.div_pos_iff.mp (by omega)).2
      (Nat.div_pos_iff.mp (by omega)).2 hent hnot
    exact samePrefix_of_entries H r r' hent hl hsalt

end

/-! ## Two tenants with one hash -/

instance instCountableChar : Countable Char :=
  Function.Injective.countable (f := Char.toNat) fun _ _ h => Char.toNat_inj.mp h

instance instCountableUInt8 : Countable UInt8 :=
  Function.Injective.countable (f := UInt8.toNat) fun _ _ h => UInt8.toNat_inj.mp h

instance instCountableString : Countable String :=
  Function.Injective.countable (f := String.toList) fun _ _ h => String.toList_inj.mp h

instance : Countable ExtraKey := by
  refine Function.Injective.countable
    (f := fun k : ExtraKey => match k with
      | .text s => (Sum.inl s : String ⊕ (String × ℤ) ⊕ Bytes)
      | .item id off => .inr (.inl (id, off))
      | .digest b => .inr (.inr b)) ?_
  intro a b h
  cases a <;> cases b <;> simp_all

/-- An injective hash function: hash inputs are countable, so each can be numbered, and the number
written down as that many zero bytes after a one. -/
noncomputable def numberingHasher (blockSize : ℕ) (hpos : 0 < blockSize) : IdealHasher ℕ where
  blockSize := blockSize
  blockSize_pos := hpos
  hashFunction := fun x => 1 :: replicate ((exists_injective_nat _).choose x) 0
  noneHash := [0]
  embedsDigest := fun rows => rows.map fun n => n.toUInt8
  injective := by
    intro x y h
    have hlen := congrArg List.length h
    simp only [length_cons, length_replicate, Nat.add_right_cancel_iff] at hlen
    exact (exists_injective_nat _).choose_spec hlen
  ne_none := by simp
  ne_empty := by simp

/-- A request of four tokens without images or embeddings. -/
def textRequest (lora salt : Option String) : FreshRequest ℕ where
  allTokenIds := [11, 12, 13, 14]
  blockHashes := []
  mmFeatures := []
  loraName := lora
  cacheSalt := salt
  promptEmbeds := none
  fresh := rfl
  sorted := .nil

/-- The request of adapter `"a"` and a request of the base model with salt `"a"` have the same
hash of the first block. -/
theorem lora_name_hashes_as_salt : ∃ hs hs' h,
    requestBlockHasher (numberingHasher 4 (by decide)).toHasher
        (textRequest (some "a") none).toRequestContent = some hs ∧
      requestBlockHasher (numberingHasher 4 (by decide)).toHasher
        (textRequest none (some "a")).toRequestContent = some hs' ∧
      hs[0]? = some h ∧ hs'[0]? = some h ∧
      (textRequest (some "a") none).loraName ≠ (textRequest none (some "a")).loraName ∧
      (textRequest (some "a") none).cacheSalt ≠ (textRequest none (some "a")).cacheSalt :=
  ⟨_, _, _, rfl, rfl, rfl, rfl, by decide, by decide⟩

end Nvllm.KVCache
