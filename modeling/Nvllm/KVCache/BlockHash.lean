import Mathlib.Data.Int.Notation
import Mathlib.Data.List.Basic
import Mathlib.Tactic.Common

/-! # Block hashes

`request_block_hasher` gives each full block of a request a hash of its parent's hash, its token
ids and its extra keys. The extra keys of a block are one untagged tuple: the LoRA name, the
multimodal items that overlap the block with their offsets relative to it, the cache salt (first
block only) and a digest of the prompt embeddings of the block.

The hash function, the seed `NONE_HASH` and the digest of prompt embeddings are parameters. The
memo `_prompt_embeds_per_block_hashes` is left out: it stores values of the same function.
-/

namespace Nvllm.KVCache

abbrev Bytes := List UInt8

theorem pos_four : 0 < 4 := by decide

/-- A placeholder has at least one token; `_iter_placeholders` skips empty ones. -/
structure PlaceholderRange where
  offset : ℕ
  length : ℕ
  length_pos : 0 < length
  /-- which of the tokens get an embedding; all of them if there is no mask -/
  isEmbed : Option (List Bool) := none
  isEmbed_length : ∀ mask ∈ isEmbed, mask.length = length := by simp
  deriving DecidableEq

structure MultiModalFeature where
  identifier : String
  mmPosition : PlaceholderRange
  deriving DecidableEq

namespace MultiModalFeature

def start (f : MultiModalFeature) : ℕ := f.mmPosition.offset

def stop (f : MultiModalFeature) : ℕ := f.mmPosition.offset + f.mmPosition.length

/-- The item has a token among those from `a` up to `b`. -/
def Overlaps (f : MultiModalFeature) (a b : ℕ) : Prop := f.start < b ∧ a < f.stop

instance (f : MultiModalFeature) (a b : ℕ) : Decidable (f.Overlaps a b) :=
  inferInstanceAs (Decidable (_ ∧ _))

end MultiModalFeature

/-- An entry of the tuple of extra keys. LoRA names and salts are both plain strings. -/
inductive ExtraKey
  | text (s : String)
  | item (identifier : String) (offset : ℤ)
  | digest (b : Bytes)
  deriving DecidableEq

/-- What the hasher reads of a request. `E` is the type of one row of prompt embeddings. -/
structure RequestContent (E : Type) where
  allTokenIds : List ℤ
  blockHashes : List Bytes
  mmFeatures : List MultiModalFeature
  loraName : Option String
  cacheSalt : Option String
  promptEmbeds : Option (List E)

/-- The hash functions and the block size a hasher is made from. -/
structure Hasher (E : Type) where
  blockSize : ℕ
  blockSize_pos : 0 < blockSize
  hashFunction : Bytes × List ℤ × Option (List ExtraKey) → Bytes
  noneHash : Bytes
  embedsDigest : List E → Bytes

variable {E : Type}

/-- The `while` loop of `_gen_mm_extra_hash_keys` over the features that are left; `idx` counts
along. -/
def mmKeysFrom (startTokenIdx endTokenIdx : ℕ) :
    List MultiModalFeature → ℤ → List ExtraKey × ℤ
  | [], idx => ([], idx)
  | f :: fs, idx =>
    if endTokenIdx > f.start then
      if startTokenIdx ≥ f.stop then
        -- this block has passed the item
        mmKeysFrom startTokenIdx endTokenIdx fs (idx + 1)
      else
        let key := ExtraKey.item f.identifier ((f.start : ℤ) - startTokenIdx)
        if endTokenIdx ≥ f.stop then
          let (keys, next) := mmKeysFrom startTokenIdx endTokenIdx fs (idx + 1)
          (key :: keys, next)
        else
          ([key], idx)
    else ([], idx)

/-- `none` is the failed assertion on a negative index. -/
def genMmExtraHashKeys (r : RequestContent E) (startTokenIdx endTokenIdx : ℕ) (startMmIdx : ℤ) :
    Option (List ExtraKey × ℤ) :=
  match r.mmFeatures.getLast? with
  | none => some ([], startMmIdx)
  | some last =>
    if last.stop ≤ startTokenIdx then some ([], startMmIdx)
    else if startMmIdx < 0 then
      if -startMmIdx ≤ r.mmFeatures.length then
        let idx := r.mmFeatures.length + startMmIdx
        some (mmKeysFrom startTokenIdx endTokenIdx (r.mmFeatures.drop idx.toNat) idx)
      else none
    else some (mmKeysFrom startTokenIdx endTokenIdx (r.mmFeatures.drop startMmIdx.toNat)
      startMmIdx)

def genLoraExtraHashKeys (r : RequestContent E) : List ExtraKey :=
  match r.loraName with
  | none => []
  | some name => [.text name]

/-- A salt counts when it is given and not empty, and only in the first block. -/
def cacheSaltKeys (r : RequestContent E) (startTokenIdx : ℕ) : List ExtraKey :=
  match r.cacheSalt with
  | none => []
  | some salt => if startTokenIdx = 0 ∧ salt ≠ "" then [.text salt] else []

def genPromptEmbedsExtraHashKeys (H : Hasher E) (r : RequestContent E)
    (startTokenIdx endTokenIdx : ℕ) : List ExtraKey :=
  match r.promptEmbeds with
  | none => []
  | some rows =>
    [.digest (H.embedsDigest ((rows.drop startTokenIdx).take (endTokenIdx - startTokenIdx)))]

/-- An empty tuple of keys is passed on as `None`. -/
def packKeys (keys : List ExtraKey) : Option (List ExtraKey) :=
  if keys = [] then none else some keys

def generateBlockHashExtraKeys (H : Hasher E) (r : RequestContent E)
    (startTokenIdx endTokenIdx : ℕ) (startMmIdx : ℤ) : Option (Option (List ExtraKey) × ℤ) := do
  let (mmKeys, newStartMmIdx) ← genMmExtraHashKeys r startTokenIdx endTokenIdx startMmIdx
  let keys := genLoraExtraHashKeys r ++ mmKeys ++ cacheSaltKeys r startTokenIdx ++
    genPromptEmbedsExtraHashKeys H r startTokenIdx endTokenIdx
  return (packKeys keys, newStartMmIdx)

/-- A missing or empty parent hash is replaced by the seed. -/
def hashBlockTokens (H : Hasher E) (parentBlockHash : Option Bytes) (currBlockTokenIds : List ℤ)
    (extraKeys : Option (List ExtraKey)) : Bytes :=
  let parent :=
    match parentBlockHash with
    | none => H.noneHash
    | some p => if p = [] then H.noneHash else p
  H.hashFunction (parent, currBlockTokenIds, extraKeys)

/-- The loop of `request_block_hasher`. Each round needs `blockSize` tokens, so `fuel` rounds are
enough when there are at most `fuel` tokens. -/
def hashLoop (H : Hasher E) (r : RequestContent E) :
    ℕ → ℕ → ℤ → Option Bytes → Option (List Bytes)
  | 0, _, _, _ => some []
  | fuel + 1, startTokenIdx, currMmIdx, prevBlockHash =>
    let endTokenIdx := startTokenIdx + H.blockSize
    if endTokenIdx > r.allTokenIds.length then some []
    else do
      let (extraKeys, nextMmIdx) ←
        generateBlockHashExtraKeys H r startTokenIdx endTokenIdx currMmIdx
      let blockTokens := (r.allTokenIds.drop startTokenIdx).take H.blockSize
      let blockHash := hashBlockTokens H prevBlockHash blockTokens extraKeys
      let rest ← hashLoop H r fuel endTokenIdx nextMmIdx (some blockHash)
      return blockHash :: rest

/-- **`request_block_hasher`**: the hashes of the full blocks that have none yet. -/
def requestBlockHasher (H : Hasher E) (r : RequestContent E) : Option (List Bytes) :=
  let startTokenIdx := r.blockHashes.length * H.blockSize
  if startTokenIdx + H.blockSize > r.allTokenIds.length then some []
  else
    hashLoop H r r.allTokenIds.length startTokenIdx (if 0 < startTokenIdx then -1 else 0)
      r.blockHashes.getLast?

end Nvllm.KVCache
