import Nvllm.KVCache.IncrementalHash
import Nvllm.Sched.Request

/-! # Streaming sessions and block hashes

A resumable request lives on after it stops: the next input drops the tokens that are not computed
and follows the rest. The hashes are never taken back, so a session keeps hashes of tokens that it
dropped if these had completed a block.

* `Session.step` is what happens to the request of a session, one event at a time. How far the
  request is computed is left open: scheduling, preemption and rejected drafts are all `progress`.
* `InSync` says that the hashes are those of the tokens.
-/

namespace Nvllm.Sched

open Nvllm.Run Nvllm.KVCache List Option

variable {E : Type}

/-- The block hasher of the engine. -/
def blockHasher (H : Hasher E) (r : Request) : Option (List Bytes) :=
  requestBlockHasher H (r.content E)

inductive SessionEvent
  /-- the scheduler sets `num_computed_tokens` -/
  | progress (numComputedTokens : ℤ)
  /-- `_update_request_with_output` -/
  | output (newTokenIds : List ℤ)
  /-- `_handle_stopped_request` -/
  | stopped
  /-- `add_request` with the id of the session -/
  | addRequest (next : Request)

/-- New input has text only. -/
def SessionEvent.TextOnly : SessionEvent → Prop
  | .addRequest next => next.mmFeatures = []
  | _ => True

instance (e : SessionEvent) : Decidable e.TextOnly :=
  match e with
  | .addRequest next => inferInstanceAs (Decidable (next.mmFeatures = []))
  | .progress _ | .output _ | .stopped => isTrue trivial

namespace Session

/-- `add_request` for a session that exists. -/
def addRequest (hasher : Request → Option (List Bytes)) (r next : Request) : Option Request :=
  if r.status ≠ .waitingForStreamingReq then do
    let queue ← r.streamingQueue
    return { r with streamingQueue := some (queue ++ [next.toStreamingUpdate]) }
  else
    match next.toStreamingUpdate with
    | some update => r.updateAsSession hasher update
    | none => some { r with status := .finishedAborted }

def step (H : Hasher E) (maxModelLen : ℕ) (r : Request) : SessionEvent → Option Request
  | .progress numComputedTokens => some { r with numComputedTokens }
  | .output newTokenIds =>
    (r.updateWithOutput (blockHasher H) maxModelLen newTokenIds).map fun q => q.2.2
  | .stopped => (r.handleStopped (blockHasher H)).map Prod.snd
  | .addRequest next => addRequest (blockHasher H) r next

/-- The update that an event applies to the session, if any. -/
def appliedUpdate (r : Request) : SessionEvent → Option StreamingUpdate
  | .stopped =>
    if r.resumable then
      match r.streamingQueue with
      | some (update :: _) => update
      | _ => none
    else none
  | .addRequest next =>
    if r.status = .waitingForStreamingReq then next.toStreamingUpdate else none
  | _ => none

end Session

namespace Request

/-- The update keeps the tokens of the blocks that are hashed. -/
def KeepsHashed (blockSize : ℕ) (r : Request) (update : StreamingUpdate) : Prop :=
  (r.keptTokens ++ update.promptTokenIds).take (r.blockHashes.length * blockSize) =
    r.allTokenIds.take (r.blockHashes.length * blockSize)

instance (blockSize : ℕ) (r : Request) (update : StreamingUpdate) :
    Decidable (r.KeepsHashed blockSize update) := inferInstanceAs (Decidable (_ = _))

/-- There is a hash for each full block, and it is the hash of the block's tokens after the hash
before it. -/
structure InSync (H : Hasher E) (r : Request) : Prop where
  length : r.blockHashes.length = r.numTokens / H.blockSize
  chained : ∀ i h, r.blockHashes[i]? = some h →
    h = hashBlockTokens H (r.blockHashes.take i).getLast?
      (blockTokens H (r.content E) (i * H.blockSize))
      (packKeys (blockKeys H (r.content E) (i * H.blockSize) (i * H.blockSize + H.blockSize)))

/-- What `allocate_slots` enters in the prefix cache for the first full blocks: the hash of the
request, and the tokens of the request up to the end of the block. -/
def cacheEntries (blockSize : ℕ) (r : Request) (numNewTokens : ℕ) :
    List (Option Bytes × List ℤ) :=
  let numTokensToCache := min (r.numComputedTokens + numNewTokens) r.numTokens
  (range (numTokensToCache.toNat / blockSize)).map fun i =>
    (r.blockHashes[i]?, r.allTokenIds.take ((i + 1) * blockSize))

/-- The hash of the last block of these tokens. -/
def hashOf (H : Hasher E) (r : Request) (tokenIds : List ℤ) : Option Bytes :=
  (requestBlockHasher H ((r.content E).withTokens tokenIds [])).bind List.getLast?

variable {H : Hasher E} {r old : Request}

theorem inSync_iff (H : Hasher E) (r : Request) : InSync H r ↔
    r.blockHashes = overlapHashes H (r.content E) (r.numTokens / H.blockSize) 0 none := by
  constructor
  · intro h
    rw [← h.length]
    exact eq_overlapHashes r.blockHashes h.chained
  · intro h
    refine ⟨by rw [h, length_overlapHashes], fun i b hi => ?_⟩
    rw [h] at hi ⊢
    have hmade := getElem?_overlapHashes hi
    rwa [Nat.zero_add, or_none] at hmade

/-! ## Hashing what is new -/

/-- The hashes that `update_block_hashes` appends, if the request has text only. -/
def newHashes (H : Hasher E) (r : Request) : List Bytes :=
  overlapHashes H (r.content E) (r.numTokens / H.blockSize - r.blockHashes.length)
    (r.blockHashes.length * H.blockSize) r.blockHashes.getLast?

def rehashed (H : Hasher E) (r : Request) : Request :=
  { r with blockHashes := r.blockHashes ++ newHashes H r }

theorem updateBlockHashes_text (H : Hasher E) (htext : r.mmFeatures = []) :
    r.updateBlockHashes (blockHasher H) = some (r.rehashed H) := by
  have hhash : blockHasher H r = some (newHashes H r) :=
    requestBlockHasher_text (r := r.content E) H htext
  rw [updateBlockHashes, hhash]
  rfl

/-- `r` has the hashes and the keys of `old`, but maybe other tokens. -/
structure Retoken (old r : Request) : Prop where
  mmFeatures : r.mmFeatures = old.mmFeatures
  loraRequest : r.loraRequest = old.loraRequest
  cacheSalt : r.cacheSalt = old.cacheSalt
  blockHashes : r.blockHashes = old.blockHashes

theorem Retoken.content_eq (h : Retoken old r) :
    r.content E = (old.content E).withTokens r.allTokenIds old.blockHashes := by
  simp only [content, RequestContent.withTokens, h.mmFeatures, h.loraRequest, h.cacheSalt,
    h.blockHashes]

/-- **One update of the hashes** of a request in sync whose tokens changed: it is in sync again if
the tokens of the hashed blocks are the same. -/
theorem inSync_rehashed (hold : InSync H old) (h : Retoken old r)
    (htake : r.allTokenIds.take (old.blockHashes.length * H.blockSize) =
      old.allTokenIds.take (old.blockHashes.length * H.blockSize)) : InSync H (r.rehashed H) := by
  have hlen : old.blockHashes.length * H.blockSize ≤ old.allTokenIds.length := by
    rw [hold.length]
    exact Nat.div_mul_le_self _ _
  have hlen' : old.blockHashes.length * H.blockSize ≤ r.allTokenIds.length := by
    have := congrArg List.length htake
    rw [length_take, length_take] at this
    omega
  have hcount : old.blockHashes.length ≤ r.numTokens / H.blockSize :=
    (Nat.le_div_iff_mul_le H.blockSize_pos).mpr hlen'
  -- the old hashes are also those of the new tokens
  have hfirst : r.blockHashes = overlapHashes H (r.content E) r.blockHashes.length 0 none := by
    rw [h.content_eq, h.blockHashes, overlapHashes_of_take _ htake hlen, hold.length]
    exact (inSync_iff H old).mp hold
  have hsame : overlapHashes H ((r.rehashed H).content E) (r.numTokens / H.blockSize) 0 none =
      overlapHashes H (r.content E) (r.numTokens / H.blockSize) 0 none :=
    overlapHashes_of_take (r := r.content E) _ rfl (Nat.div_mul_le_self _ _)
  rw [inSync_iff]
  change r.blockHashes ++ newHashes H r =
    overlapHashes H ((r.rehashed H).content E) (r.numTokens / H.blockSize) 0 none
  have hsum : r.numTokens / H.blockSize =
      r.blockHashes.length + (r.numTokens / H.blockSize - r.blockHashes.length) := by
    rw [h.blockHashes]
    omega
  rw [hsame, hsum, overlapHashes_add, ← hfirst, Nat.zero_add, or_none]
  rfl

/-- For an injective hash function this is necessary. -/
theorem take_of_inSync_rehashed (hinj : Function.Injective H.hashFunction) (hold : InSync H old)
    (h : Retoken old r) (hnew : InSync H (r.rehashed H)) :
    r.allTokenIds.take (old.blockHashes.length * H.blockSize) =
      old.allTokenIds.take (old.blockHashes.length * H.blockSize) := by
  have hcount : r.numTokens / H.blockSize =
      old.blockHashes.length + (newHashes H r).length := by
    rw [← h.blockHashes, ← length_append]
    exact hnew.length.symm
  have hall := (inSync_iff H _).mp hnew
  change r.blockHashes ++ newHashes H r =
    overlapHashes H ((r.rehashed H).content E) (r.numTokens / H.blockSize) 0 none at hall
  rw [hcount, overlapHashes_add] at hall
  have hfirst := append_inj_left hall (by rw [length_overlapHashes, h.blockHashes])
  have hc : (r.rehashed H).content E =
      (old.content E).withTokens r.allTokenIds (r.rehashed H).blockHashes := by
    have := h.content_eq (E := E)
    simp only [content, RequestContent.withTokens, RequestContent.mk.injEq] at this ⊢
    simp only [rehashed, this, and_self]
  have hsame : overlapHashes H
      ((old.content E).withTokens r.allTokenIds (r.rehashed H).blockHashes)
      old.blockHashes.length 0 none =
      overlapHashes H (old.content E) old.blockHashes.length 0 none := by
    rw [← hc, ← hfirst, h.blockHashes, hold.length]
    exact (inSync_iff H old).mp hold
  exact take_of_overlapHashes hinj hsame

theorem hashOf_take {i : ℕ} (hsync : InSync H r) (htext : r.mmFeatures = [])
    (hi : i < r.numTokens / H.blockSize) :
    hashOf H r (r.allTokenIds.take ((i + 1) * H.blockSize)) = r.blockHashes[i]? := by
  have hlen : (i + 1) * H.blockSize ≤ r.allTokenIds.length :=
    (Nat.le_div_iff_mul_le H.blockSize_pos).mp hi
  have hblocks : (r.allTokenIds.take ((i + 1) * H.blockSize)).length / H.blockSize = i + 1 := by
    rw [length_take, Nat.min_eq_left hlen, Nat.mul_div_cancel _ H.blockSize_pos]
  have hfirst : overlapHashes H ((r.content E).withTokens
      (r.allTokenIds.take ((i + 1) * H.blockSize)) []) (i + 1) 0 none =
      overlapHashes H (r.content E) (i + 1) 0 none := by
    apply overlapHashes_of_take (r := r.content E) [] _ hlen
    rw [take_take, Nat.min_self]
    rfl
  have hall := (inSync_iff H r).mp hsync
  rw [show r.numTokens / H.blockSize = (i + 1) + (r.numTokens / H.blockSize - (i + 1)) by omega,
    overlapHashes_add] at hall
  calc hashOf H r (r.allTokenIds.take ((i + 1) * H.blockSize))
      = (overlapHashes H ((r.content E).withTokens
          (r.allTokenIds.take ((i + 1) * H.blockSize)) []) (i + 1) 0 none).getLast? := by
        rw [hashOf, requestBlockHasher_text H (by exact htext)]
        simp only [RequestContent.withTokens, hblocks, length_nil, Nat.sub_zero,
          Nat.zero_mul, getLast?_nil, bind_some]
    _ = (overlapHashes H (r.content E) (i + 1) 0 none)[i]? := by
        rw [hfirst, getLast?_eq_getElem?, length_overlapHashes]
        rfl
    _ = r.blockHashes[i]? := by
        rw [hall, getElem?_append_left (by rw [length_overlapHashes]; omega)]

/-- **What is cached** has the hash of its tokens. -/
theorem cacheEntries_hashOf (hsync : InSync H r) (htext : r.mmFeatures = []) (numNewTokens : ℕ) :
    ∀ e ∈ r.cacheEntries H.blockSize numNewTokens, e.1.isSome ∧ e.1 = hashOf H r e.2 := by
  intro e he
  obtain ⟨i, hi, rfl⟩ := mem_map.mp he
  have hle : (min (r.numComputedTokens + numNewTokens) (r.numTokens : ℤ)).toNat ≤ r.numTokens := by
    omega
  have hlt : i < r.numTokens / H.blockSize :=
    (mem_range.mp hi).trans_le (Nat.div_le_div_right hle)
  refine ⟨?_, (hashOf_take hsync htext hlt).symm⟩
  simpa [hsync.length] using hlt

/-! ## One event -/

/-- The request and the updates that wait have no items. -/
structure TextOnly (r : Request) : Prop where
  mmFeatures : r.mmFeatures = []
  queue : ∀ queue, r.streamingQueue = some queue → ∀ u, some u ∈ queue → u.mmFeatures = []

theorem appendOutputTokenId_inSync (hsync : InSync H r) (htext : TextOnly r) (token : ℤ) :
    ∃ r', r.appendOutputTokenId (blockHasher H) token = some r' ∧ InSync H r' ∧ TextOnly r' := by
  let r1 : Request := { r with
    outputTokenIds := r.outputTokenIds ++ [token]
    allTokenIds := r.allTokenIds ++ [token] }
  refine ⟨r1.rehashed H, updateBlockHashes_text (r := r1) H htext.mmFeatures, ?_,
    htext.mmFeatures, htext.queue⟩
  apply inSync_rehashed (r := r1) hsync ⟨rfl, rfl, rfl, rfl⟩
  apply take_append_of_le_length
  rw [hsync.length]
  exact Nat.div_mul_le_self _ _

theorem updateWithOutput_inSync {maxModelLen : ℕ} {tokens : List ℤ} {q : List ℤ × Bool × Request}
    (hsync : InSync H r) (htext : TextOnly r)
    (h : r.updateWithOutput (blockHasher H) maxModelLen tokens = some q) :
    InSync H q.2.2 ∧ TextOnly q.2.2 := by
  induction tokens generalizing r q with
  | nil =>
    cases h
    exact ⟨hsync, htext⟩
  | cons token tokens ih =>
    obtain ⟨r1, happend, hsync1, htext1⟩ := appendOutputTokenId_inSync hsync htext token
    simp only [updateWithOutput, happend, bind, bind_some] at h
    obtain ⟨stop, -, h⟩ := bind_eq_some_iff.mp h
    cases stop with
    | some status =>
      cases h
      exact ⟨⟨hsync1.length, hsync1.chained⟩, htext1.mmFeatures, htext1.queue⟩
    | none =>
      obtain ⟨q', hq', h⟩ := bind_eq_some_iff.mp h
      cases h
      exact ih (q := q') hsync1 htext1 hq'

variable {update : StreamingUpdate}

theorem retoken_replaceTokens (hu : update.mmFeatures = []) : Retoken r (r.replaceTokens update) :=
  ⟨by simp [replaceTokens, hu], rfl, rfl, rfl⟩

/-- What an update makes of a session with text only. -/
theorem updateAsSession_text (H : Hasher E) (htext : TextOnly r) (hu : update.mmFeatures = []) :
    ∃ r', r.updateAsSession (blockHasher H) update = some r' ∧ TextOnly r' ∧
      (InSync H r' ↔ InSync H ((r.replaceTokens update).rehashed H)) := by
  have hmm : (r.replaceTokens update).mmFeatures = [] := by
    rw [(retoken_replaceTokens hu).mmFeatures, htext.mmFeatures]
  rw [updateAsSession, updateBlockHashes_text H hmm]
  exact ⟨_, rfl, ⟨hmm, htext.queue⟩, fun h => ⟨h.length, h.chained⟩, fun h => ⟨h.length, h.chained⟩⟩

theorem updateAsSession_inSync {r' : Request} (hsync : InSync H r) (htext : TextOnly r)
    (hu : update.mmFeatures = []) (hkept : r.KeepsHashed H.blockSize update)
    (h : r.updateAsSession (blockHasher H) update = some r') : InSync H r' ∧ TextOnly r' := by
  obtain ⟨r1, hupdate, htext1, hiff⟩ := updateAsSession_text H htext hu
  cases hupdate.symm.trans h
  exact ⟨hiff.mpr (inSync_rehashed hsync (retoken_replaceTokens hu) hkept), htext1⟩

theorem keepsHashed_of_inSync {r' : Request} (hinj : Function.Injective H.hashFunction)
    (hsync : InSync H r) (htext : TextOnly r) (hu : update.mmFeatures = [])
    (h : r.updateAsSession (blockHasher H) update = some r')
    (hsync' : InSync H r') : r.KeepsHashed H.blockSize update := by
  obtain ⟨r1, hupdate, -, hiff⟩ := updateAsSession_text H htext hu
  cases hupdate.symm.trans h
  exact take_of_inSync_rehashed hinj hsync (retoken_replaceTokens hu) (hiff.mp hsync')

theorem TextOnly.pop {u : Option StreamingUpdate} {queue : List (Option StreamingUpdate)}
    (htext : TextOnly r) (hqueue : r.streamingQueue = some (u :: queue)) :
    TextOnly { r with streamingQueue := some queue } := by
  refine ⟨htext.mmFeatures, fun l hl v hv => ?_⟩
  cases hl
  exact htext.queue _ hqueue v (mem_cons_of_mem _ hv)

theorem toStreamingUpdate_mmFeatures {next : Request} {u : StreamingUpdate}
    (h : next.toStreamingUpdate = some u) : u.mmFeatures = next.mmFeatures := by
  unfold toStreamingUpdate at h
  split at h <;> cases h
  rfl

end Request

/-! ## Runs -/

namespace Session

/-- A request with text only, as it is created. -/
structure Prompt extends Request where
  text : mmFeatures = []
  tokens : allTokenIds = promptTokenIds
  fresh : blockHashes = []
  queue : streamingQueue = some []

/-- New input has text only, and an update keeps the tokens of the blocks that are hashed. -/
def KeepsHashed (H : Hasher E) (r : Request) (e : SessionEvent) : Prop :=
  e.TextOnly ∧ ∀ u ∈ appliedUpdate r e, r.KeepsHashed H.blockSize u

instance (H : Hasher E) (r : Request) (e : SessionEvent) : Decidable (KeepsHashed H r e) :=
  inferInstanceAs (Decidable (_ ∧ _))

variable {H : Hasher E} {maxModelLen : ℕ}

variable {e : SessionEvent} {r : Request}

open Request in
/-- An event with an update applies it to the session, with a shorter queue at most. -/
theorem step_of_appliedUpdate (H : Hasher E) (maxModelLen : ℕ) {u : StreamingUpdate}
    (htext : TextOnly r) (hnew : e.TextOnly) (h : appliedUpdate r e = some u) :
    u.mmFeatures = [] ∧ ∃ queue, TextOnly { r with streamingQueue := queue } ∧
      step H maxModelLen r e =
        { r with streamingQueue := queue }.updateAsSession (blockHasher H) u := by
  cases e with
  | progress n => cases h
  | output tokens => cases h
  | stopped =>
    simp only [appliedUpdate] at h
    split at h
    · rename_i hresumable
      split at h
      · rename_i update queue hqueue
        subst h
        refine ⟨htext.queue _ hqueue u mem_cons_self, some queue, htext.pop hqueue, ?_⟩
        simp only [step, handleStopped, if_pos hresumable, hqueue, bind, map_bind]
        cases updateAsSession (blockHasher H) { r with streamingQueue := some queue } u <;> rfl
      · cases h
    · cases h
  | addRequest next =>
    simp only [appliedUpdate] at h
    split at h
    · rename_i hstatus
      refine ⟨by rw [toStreamingUpdate_mmFeatures h, hnew], r.streamingQueue, htext, ?_⟩
      rw [step, addRequest, if_neg (not_not.mpr hstatus), h]
    · cases h

open Request in
/-- An event without an update leaves tokens and hashes alone or appends output. -/
theorem step_of_no_update {r' : Request} (hsync : InSync H r) (htext : TextOnly r)
    (hnew : e.TextOnly) (hno : appliedUpdate r e = none) (h : step H maxModelLen r e = some r') :
    InSync H r' ∧ TextOnly r' := by
  cases e with
  | progress n =>
    cases h
    exact ⟨⟨hsync.length, hsync.chained⟩, htext.mmFeatures, htext.queue⟩
  | output tokens =>
    obtain ⟨q, hq, rfl⟩ := map_eq_some_iff.mp h
    exact updateWithOutput_inSync hsync htext hq
  | stopped =>
    obtain ⟨q, hq, rfl⟩ := map_eq_some_iff.mp h
    unfold handleStopped at hq
    split at hq
    · rename_i hresumable
      split at hq
      · rename_i queue hqueue
        cases hq
        exact ⟨⟨hsync.length, hsync.chained⟩, htext.pop hqueue⟩
      · rename_i update queue hqueue
        simp [appliedUpdate, hresumable, hqueue] at hno
      · cases hq
        exact ⟨⟨hsync.length, hsync.chained⟩, htext.mmFeatures, htext.queue⟩
    · cases hq
      exact ⟨hsync, htext⟩
  | addRequest next =>
    simp only [step, addRequest] at h
    split at h
    · obtain ⟨queue, hqueue, h⟩ := bind_eq_some_iff.mp h
      cases h
      refine ⟨⟨hsync.length, hsync.chained⟩, htext.mmFeatures, fun l hl u hu => ?_⟩
      cases hl
      rcases mem_append.mp hu with hu | hu
      · exact htext.queue _ hqueue u hu
      · rw [toStreamingUpdate_mmFeatures (mem_singleton.mp hu).symm, hnew]
    · rename_i hstatus
      rw [appliedUpdate, if_pos (not_not.mp hstatus)] at hno
      rw [hno] at h
      cases h
      exact ⟨⟨hsync.length, hsync.chained⟩, htext.mmFeatures, htext.queue⟩

open Request in
/-- **One event** that meets the condition keeps the hashes in sync. -/
theorem step_inSync {r' : Request} (hsync : InSync H r) (htext : TextOnly r)
    (hkept : KeepsHashed H r e) (h : step H maxModelLen r e = some r') :
    InSync H r' ∧ TextOnly r' := by
  cases hupdate : appliedUpdate r e with
  | none => exact step_of_no_update hsync htext hkept.1 hupdate h
  | some u =>
    obtain ⟨hu, queue, hqueue, hstep⟩ :=
      step_of_appliedUpdate H maxModelLen htext hkept.1 hupdate
    rw [hstep] at h
    exact updateAsSession_inSync (r := { r with streamingQueue := queue })
      ⟨hsync.length, hsync.chained⟩ hqueue hu (hkept.2 u hupdate) h

open Request in
/-- A new request is in sync. -/
theorem Prompt.inSync (H : Hasher E) (p : Prompt) :
    ∃ r, p.toRequest.updateBlockHashes (blockHasher H) = some r ∧ InSync H r ∧ TextOnly r := by
  refine ⟨_, updateBlockHashes_text H p.text, ?_, p.text, ?_⟩
  · -- it is the empty request with other tokens
    have hempty : InSync H { p.toRequest with allTokenIds := [] } :=
      ⟨by simp [p.fresh, numTokens], by simp [p.fresh]⟩
    apply inSync_rehashed (r := p.toRequest) hempty ⟨rfl, rfl, rfl, rfl⟩
    simp [p.fresh]
  · intro queue hqueue u hu
    cases p.queue.symm.trans hqueue
    cases hu

open Request in
/-- **Hashes follow the tokens.** In every run of a session in which each update keeps the tokens of
the hashed blocks, the hashes are those of the tokens, and so are the hashes under which blocks
enter the prefix cache. For an injective hash function an update that does not keep them breaks
this. -/
theorem inSync_of_keepsHashed (H : Hasher E) (maxModelLen : ℕ) (p : Prompt) {r0 r : Request}
    (h0 : p.toRequest.updateBlockHashes (blockHasher H) = some r0)
    (h : Reach (step H maxModelLen) (KeepsHashed H) r0 r) :
    InSync H r ∧
      (∀ n, ∀ e ∈ r.cacheEntries H.blockSize n, e.1.isSome ∧ e.1 = hashOf H r e.2) ∧
      (Function.Injective H.hashFunction → ∀ e u r',
        e.TextOnly → appliedUpdate r e = some u → step H maxModelLen r e = some r' →
        InSync H r' → r.KeepsHashed H.blockSize u) := by
  have hinv : InSync H r ∧ TextOnly r := by
    refine Reach.invariant (fun r => InSync H r ∧ TextOnly r) ?_
      (fun s e s' hs hok hstep => step_inSync hs.1 hs.2 hok hstep) h
    obtain ⟨r1, hr1, hsync⟩ := p.inSync H
    cases hr1.symm.trans h0
    exact hsync
  refine ⟨hinv.1, cacheEntries_hashOf hinv.1 hinv.2.mmFeatures, ?_⟩
  intro hinj e u r' hnew hupdate hstep hsync'
  obtain ⟨hu, queue, hqueue, heq⟩ := step_of_appliedUpdate H maxModelLen hinv.2 hnew hupdate
  rw [heq] at hstep
  exact keepsHashed_of_inSync (r := { r with streamingQueue := queue }) hinj
    ⟨hinv.1.length, hinv.1.chained⟩ hqueue hu hstep hsync'

/-- An input of the session. -/
def nextChunk (tokenIds : List ℤ) : Request where
  requestId := 0
  promptTokenIds := tokenIds
  allTokenIds := tokenIds
  resumable := true

/-- Three tokens; the request stops with the first token it generates. -/
def shortPrompt : Prompt :=
  { nextChunk [11, 12, 13] with
    maxTokens := 1
    streamingQueue := some []
    text := rfl
    tokens := rfl
    fresh := rfl
    queue := rfl }

/-- A hash that only keeps the sum of the token ids of a block. -/
def tokenSumHasher (blockSize : ℕ) (hpos : 0 < blockSize) : Hasher Unit where
  blockSize := blockSize
  blockSize_pos := hpos
  hashFunction := fun x => [x.2.1.sum.toNat.toUInt8]
  noneHash := [0]
  embedsDigest := fun _ => []

/-- The prompt is computed, one token is sampled, the request stops, and the next input comes. -/
def shortSession : List SessionEvent :=
  [.progress 3, .output [14], .stopped, .addRequest (nextChunk [20])]

/-- In blocks of three the sampled token is in an unfinished block when it is dropped. -/
theorem unhashed_token_is_dropped :
    ∃ r0 r, shortPrompt.updateBlockHashes (blockHasher (tokenSumHasher 3 (by decide))) = some r0 ∧
      Reach (step (tokenSumHasher 3 (by decide)) 100) (KeepsHashed (tokenSumHasher 3 (by decide)))
        r0 r ∧
      r.allTokenIds = [11, 12, 13, 20] ∧ r.InSync (tokenSumHasher 3 (by decide)) := by
  obtain ⟨r0, hr0, r, hr, htokens⟩ :
      ∃ r0 ∈ shortPrompt.updateBlockHashes (blockHasher (tokenSumHasher 3 (by decide))),
        ∃ r ∈ run (guarded (KeepsHashed (tokenSumHasher 3 (by decide)))
          (step (tokenSumHasher 3 (by decide)) 100)) r0 shortSession,
          r.allTokenIds = [11, 12, 13, 20] := by
    decide +kernel
  have hreach := Reach.of_guarded_run .init hr
  exact ⟨r0, r, hr0, hreach, htokens, (inSync_of_keepsHashed _ _ _ hr0 hreach).1⟩

/-- In blocks of four the sampled token completes the first block and is then dropped. The block
keeps the hash `11 + 12 + 13 + 14`; its tokens give `11 + 12 + 13 + 20`. -/
theorem dropped_token_stays_hashed :
    ∃ r, ((shortPrompt.updateBlockHashes (blockHasher (tokenSumHasher 4 (by decide)))).bind fun r =>
        run (step (tokenSumHasher 4 (by decide)) 100) r shortSession) = some r ∧
      r.cacheEntries 4 1 = [(some [50], [11, 12, 13, 20])] ∧
      r.hashOf (tokenSumHasher 4 (by decide)) [11, 12, 13, 20] = some [56] ∧
      ¬ r.InSync (tokenSumHasher 4 (by decide)) := by
  refine ⟨_, rfl, by decide +kernel, by decide +kernel, fun h => ?_⟩
  have := h.chained 0 [50] (by decide +kernel)
  exact absurd this (by decide +kernel)

end Session

end Nvllm.Sched
