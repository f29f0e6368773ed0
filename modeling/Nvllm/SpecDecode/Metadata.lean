import Mathlib.Algebra.Order.BigOperators.Group.List
import Mathlib.Algebra.Order.Group.Nat
import Nvllm.Lib.Ragged

/-! # The index arrays of speculative decoding

A step runs the tokens of all requests as one flat array. The last tokens of a request may be
drafts. `_calc_spec_decode_metadata` picks the places whose logits are needed: those before each
draft, which decide whether it is accepted, and the last one, for the bonus token.

`_arange_scratch` is one array for both numberings, and each use overwrites its first places.
-/

namespace Nvllm.SpecDecode

open Nvllm.Ragged List

variable {T : Type}

structure SpecDecodeMetadata (T : Type) where
  draftTokenIds : List T
  numDraftTokens : List ℕ
  cuNumDraftTokens : List ℕ
  cuNumSampledTokens : List ℕ
  targetLogitsIndices : List ℕ
  bonusLogitsIndices : List ℕ
  logitsIndices : List ℕ

/-- `_get_cumsum_and_arange`: the running totals, and `arange_out` with the numbering written to its
first places. Without requests the last total is an index error, and numpy raises if `arange_out` is
too short. -/
def getCumsumAndArange (numTokens arangeOut : List ℕ) : Option (List ℕ × List ℕ) := do
  let cuNumTokens := cumsum 0 numTokens
  let totalNumTokens ← cuNumTokens.getLast?
  if arangeOut.length < totalNumTokens then none
  else return (cuNumTokens, arange numTokens ++ arangeOut.drop totalNumTokens)

/-- `_calc_spec_decode_metadata`. -/
def calcSpecDecodeMetadata (inputIds : List T) (arangeScratch : List ℕ)
    (numDraftTokens cuNumScheduledTokens : List ℕ) : Option (SpecDecodeMetadata T) := do
  let numSampledTokens := numDraftTokens.map (· + 1)
  let (cuNumSampledTokens, arangeScratch) ← getCumsumAndArange numSampledTokens arangeScratch
  let logitsIndices := zipWith (· + ·)
    (repeatEach (zipWith (· - ·) cuNumScheduledTokens numSampledTokens) numSampledTokens)
    (arangeScratch.take (← cuNumSampledTokens.getLast?))
  let bonusLogitsIndices := cuNumSampledTokens.map (· - 1)
  let (cuNumDraftTokens, arangeScratch) ← getCumsumAndArange numDraftTokens arangeScratch
  let targetLogitsIndices := zipWith (· + ·)
    (repeatEach (zipWith (· - ·) cuNumSampledTokens numSampledTokens) numDraftTokens)
    (arangeScratch.take (← cuNumDraftTokens.getLast?))
  let draftTokenIds ← gather inputIds logitsIndices
  let draftTokenIds ← gather draftTokenIds (targetLogitsIndices.map (· + 1))
  return { draftTokenIds, numDraftTokens, cuNumDraftTokens, cuNumSampledTokens,
           targetLogitsIndices, bonusLogitsIndices, logitsIndices }

/-- A request of the batch: its tokens in this step, the last of them drafts. -/
structure SpecRequest (T : Type) where
  tokens : List T
  numDrafts : ℕ
  lt : numDrafts < tokens.length

namespace SpecRequest

def numScheduled (r : SpecRequest T) : ℕ := r.tokens.length

/-- The tokens before the first logits that are needed. -/
def numSkipped (r : SpecRequest T) : ℕ := r.numScheduled - (r.numDrafts + 1)

theorem numSkipped_add (r : SpecRequest T) :
    r.numSkipped + (r.numDrafts + 1) = r.tokens.length := Nat.sub_add_cancel r.lt

theorem add_numSkipped (a : ℕ) (r : SpecRequest T) :
    a + r.numScheduled - (r.numDrafts + 1) = a + r.numSkipped := Nat.add_sub_assoc r.lt a

/-- The tokens whose logits are needed. -/
def sampledTokens (r : SpecRequest T) : List T := r.tokens.drop r.numSkipped

theorem length_sampledTokens (r : SpecRequest T) : r.sampledTokens.length = r.numDrafts + 1 := by
  have := r.numSkipped_add
  rw [sampledTokens, length_drop]
  omega

end SpecRequest

open SpecRequest

/-- The flat places of a batch, each request with the place of its first token. -/
abbrev places (batch : List (SpecRequest T)) : List (ℕ × SpecRequest T) :=
  located numScheduled 0 batch

/-- The places in `logitsIndices`, each request with the place of its first entry. -/
abbrev sampled (batch : List (SpecRequest T)) : List (ℕ × ℕ × SpecRequest T) :=
  located (fun p => p.2.numDrafts + 1) 0 (places batch)

theorem getCumsumAndArange_eq {counts out : List ℕ} (h : counts ≠ [])
    (hout : counts.sum ≤ out.length) :
    getCumsumAndArange counts out =
      some (cumsum 0 counts, arange counts ++ out.drop counts.sum) := by
  simp [getCumsumAndArange, getLast?_cumsum 0 h, hout]

theorem length_arange (counts : List ℕ) : (arange counts).length = counts.sum := by
  simp [arange_eq, Function.comp_def]

theorem take_arange (counts rest : List ℕ) :
    (arange counts ++ rest).take counts.sum = arange counts := by
  rw [← length_arange, take_left]

variable {batch : List (SpecRequest T)}

/-- The places whose logits are needed, request by request. -/
def logitsPlaces (batch : List (SpecRequest T)) : List ℕ :=
  (places batch).flatMap fun p => range' (p.1 + p.2.numSkipped) (p.2.numDrafts + 1)

/-- Where those before the drafts stand in that list. -/
def targetPlaces (batch : List (SpecRequest T)) : List ℕ :=
  (sampled batch).flatMap fun q => range' q.1 q.2.2.numDrafts

/-- What the function computes, with both numberings written out. -/
theorem calcSpecDecodeMetadata_eq (hbatch : batch ≠ []) {inputIds tokens draftTokenIds : List T}
    (htokens : gather inputIds (logitsPlaces batch) = some tokens)
    (hdrafts : gather tokens ((targetPlaces batch).map (· + 1)) = some draftTokenIds)
    {scratch : List ℕ} (hscratch : (batch.map fun r => r.numDrafts + 1).sum ≤ scratch.length) :
    calcSpecDecodeMetadata inputIds scratch (batch.map numDrafts)
      (cumsum 0 (batch.map numScheduled)) =
      some { draftTokenIds
             numDraftTokens := batch.map numDrafts
             cuNumDraftTokens := cumsum 0 (batch.map numDrafts)
             cuNumSampledTokens := cumsum 0 (batch.map fun r => r.numDrafts + 1)
             targetLogitsIndices := targetPlaces batch
             bonusLogitsIndices := (sampled batch).map fun q => q.1 + q.2.2.numDrafts
             logitsIndices := logitsPlaces batch } := by
  have hp (g : SpecRequest T → ℕ) : batch.map g = (places batch).map fun p => g p.2 :=
    (map_located _ _ g _).symm
  have hs (g : SpecRequest T → ℕ) : batch.map g = (sampled batch).map fun q => g q.2.2 :=
    (hp g).trans (map_located _ _ (fun p : ℕ × SpecRequest T => g p.2) _).symm
  have hcu : cumsum 0 (batch.map fun r => r.numDrafts + 1) =
      (sampled batch).map fun q => q.1 + (q.2.2.numDrafts + 1) := by
    rw [hp, cumsum_eq]
  have hlogits : zipWith (· + ·) (repeatEach (zipWith (· - ·)
      (cumsum 0 (batch.map numScheduled)) (batch.map fun r => r.numDrafts + 1))
      (batch.map fun r => r.numDrafts + 1)) (arange (batch.map fun r => r.numDrafts + 1)) =
      logitsPlaces batch := by
    rw [logitsPlaces, ← repeatEach_add_arange, cumsum_eq, hp, zipWith_map, zipWith_self]
    simp only [add_numSkipped]
  have htarget : zipWith (· + ·) (repeatEach (zipWith (· - ·)
      (cumsum 0 (batch.map fun r => r.numDrafts + 1)) (batch.map fun r => r.numDrafts + 1))
      (batch.map numDrafts)) (arange (batch.map numDrafts)) = targetPlaces batch := by
    rw [targetPlaces, ← repeatEach_add_arange, hcu, hs, hs, zipWith_map, zipWith_self]
    simp
  have hne (g : SpecRequest T → ℕ) : batch.map g ≠ [] := by simpa using hbatch
  have hmap : (batch.map numDrafts).map (· + 1) = batch.map fun r => r.numDrafts + 1 := by simp
  -- the array is still as long for the second numbering
  have hsecond : (batch.map numDrafts).sum ≤ (arange (batch.map fun r => r.numDrafts + 1) ++
      scratch.drop (batch.map fun r => r.numDrafts + 1).sum).length := by
    rw [length_append, length_arange]
    have hle : (batch.map numDrafts).sum ≤ (batch.map fun r => r.numDrafts + 1).sum :=
      sum_le_sum fun r _ => Nat.le_succ _
    omega
  simp only [calcSpecDecodeMetadata, hmap, getCumsumAndArange_eq (hne _) hscratch,
    getCumsumAndArange_eq (hne _) hsecond, getLast?_cumsum 0 (hne _), Option.bind_eq_bind,
    Option.bind_some, Nat.zero_add, take_arange, hlogits, htarget, htokens, hdrafts]
  rw [hcu, map_map]
  rfl

theorem gather_logitsPlaces (batch : List (SpecRequest T)) (stale : List T) :
    gather (batch.flatMap tokens ++ stale) (logitsPlaces batch) =
      some ((places batch).flatMap fun p => p.2.sampledTokens) := by
  have htake (r : SpecRequest T) :
      (r.tokens.drop r.numSkipped).take (r.numDrafts + 1) = r.sampledTokens :=
    take_of_length_le (Nat.le_of_eq r.length_sampledTokens)
  have h := gather_located tokens numSkipped (·.numDrafts + 1) batch
    (fun r _ => Nat.le_of_eq r.numSkipped_add) [] stale
  simp only [htake] at h
  rw [flatMap_located numScheduled 0 sampledTokens]
  exact h

/-- **A part of each row**, for rows with one entry for each entry of `logitsIndices`. -/
theorem gather_sampled {β : Type} (batch : List (SpecRequest T)) (row : ℕ × SpecRequest T → List β)
    (hrow : ∀ p, (row p).length = p.2.numDrafts + 1) (i n : SpecRequest T → ℕ)
    (h : ∀ r, i r + n r ≤ r.numDrafts + 1) :
    gather ((places batch).flatMap row)
      ((sampled batch).flatMap fun q => range' (q.1 + i q.2.2) (n q.2.2)) =
      some ((places batch).flatMap fun p => ((row p).drop (i p.2)).take (n p.2)) := by
  have := gather_located row (fun p => i p.2) (fun p => n p.2) (places batch)
    (fun p _ => (hrow p) ▸ h p.2) [] []
  simpa only [hrow, nil_append, append_nil, length_nil] using this

theorem map_succ_range' (a n : ℕ) : (range' a n).map (· + 1) = range' (a + 1) n := by
  simp only [Nat.add_comm _ 1, map_add_range']

/-- **The indices of a step.** `logitsIndices` lists the last places of each request, the bonus
indices point to the last of them, the target indices to those before it, and the drafts are the
last tokens of each request: each stands one place after its target. -/
theorem specDecodeMetadata_indices (batch : List (SpecRequest T)) (hbatch : batch ≠ [])
    (stale : List T) (scratch : List ℕ)
    (hscratch : (batch.map fun r => r.numDrafts + 1).sum ≤ scratch.length) :
    ∃ m, calcSpecDecodeMetadata (batch.flatMap tokens ++ stale) scratch (batch.map numDrafts)
        (cumsum 0 (batch.map numScheduled)) = some m ∧
      m.logitsIndices = (places batch).flatMap (fun p =>
        range' (p.1 + p.2.numScheduled - (p.2.numDrafts + 1)) (p.2.numDrafts + 1)) ∧
      gather m.logitsIndices m.bonusLogitsIndices =
        some ((places batch).map fun p => p.1 + p.2.numScheduled - 1) ∧
      gather m.logitsIndices m.targetLogitsIndices = some ((places batch).flatMap fun p =>
        range' (p.1 + p.2.numScheduled - (p.2.numDrafts + 1)) p.2.numDrafts) ∧
      m.draftTokenIds = batch.flatMap (fun r => r.tokens.drop (r.numScheduled - r.numDrafts)) ∧
      gather (batch.flatMap tokens ++ stale) (((places batch).flatMap fun p =>
        range' (p.1 + p.2.numScheduled - (p.2.numDrafts + 1)) p.2.numDrafts).map (· + 1)) =
        some m.draftTokenIds := by
  have htail (r : SpecRequest T) : (r.tokens.drop (r.numSkipped + 1)).take r.numDrafts =
      r.tokens.drop (r.numScheduled - r.numDrafts) := by
    have := r.numSkipped_add
    have hskip : r.numScheduled - r.numDrafts = r.numSkipped + 1 := by
      rw [numScheduled]
      omega
    rw [hskip, take_of_length_le]
    simp
    omega
  have hdrafts : gather ((places batch).flatMap fun p => p.2.sampledTokens)
      ((targetPlaces batch).map (· + 1)) =
      some (batch.flatMap fun r => r.tokens.drop (r.numScheduled - r.numDrafts)) := by
    simp only [targetPlaces, map_flatMap, map_succ_range']
    rw [gather_sampled batch _ (fun p => p.2.length_sampledTokens) (fun _ => 1) numDrafts
      fun r => by omega]
    simp only [sampledTokens, drop_drop, htail]
    rw [flatMap_located numScheduled 0 fun r => r.tokens.drop (r.numScheduled - r.numDrafts)]
  refine ⟨_, calcSpecDecodeMetadata_eq hbatch (gather_logitsPlaces batch stale) hdrafts hscratch,
    ?_, ?_, ?_, rfl, ?_⟩
  · simp only [add_numSkipped, logitsPlaces]
  · have hlast := gather_sampled batch
      (fun p => range' (p.1 + p.2.numSkipped) (p.2.numDrafts + 1)) (fun p => by simp)
      numDrafts (fun _ => 1) fun r => by omega
    have hend (p : ℕ × SpecRequest T) :
        p.1 + p.2.numSkipped + p.2.numDrafts = p.1 + p.2.numScheduled - 1 := by
      have := p.2.numSkipped_add
      rw [numScheduled]
      omega
    simpa [logitsPlaces, drop_range', hend, map_eq_flatMap] using hlast
  · have htarget := gather_sampled batch
      (fun p => range' (p.1 + p.2.numSkipped) (p.2.numDrafts + 1)) (fun p => by simp)
      (fun _ => 0) numDrafts fun r => by omega
    simpa [logitsPlaces, targetPlaces, add_numSkipped] using htarget
  · have htokens := gather_located tokens (fun r => r.numSkipped + 1) numDrafts batch
      (fun r _ => by have := r.numSkipped_add; omega) [] stale
    simp only [htail] at htokens
    simp only [map_flatMap, map_succ_range', add_numSkipped, Nat.add_assoc]
    exact htokens

/-- Three tokens with one draft, and a request without drafts. -/
theorem draft_beside_plain_request :
    ∃ m, calcSpecDecodeMetadata [1, 2, 3, 4, 9] [7, 7, 7, 7] [1, 0] [3, 4] = some m ∧
      m.logitsIndices = [1, 2, 3] ∧ m.draftTokenIds = [3] := by
  obtain ⟨m, hm, hlogits, -, -, hdrafts, -⟩ := specDecodeMetadata_indices
    [⟨[1, 2, 3], 1, by decide⟩, ⟨[4], 0, by decide⟩] (cons_ne_nil _ _) [9] [7, 7, 7, 7]
    (by decide)
  exact ⟨m, hm, hlogits, hdrafts⟩

end Nvllm.SpecDecode
