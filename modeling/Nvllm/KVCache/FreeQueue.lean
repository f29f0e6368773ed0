import Nvllm.KVCache.PoolInv

/-! # The order of the free queue

`RefInv` says which blocks are free; which of them the pool hands out next depends on their order
in the queue. Here the order is followed through `touch` and `get_new_blocks`. The count of the
queue is not trusted, because a request for a negative number of blocks spoils it.
-/

namespace Nvllm.KVCache

open Nvllm.DList Nvllm.Reserve

namespace BlockPool

/-- `get_all_free_blocks`. -/
def getAllFreeBlocks (p : BlockPool) : List BlockId := p.freeBlockQueue.toList

/-- The free queue is `as`, and the hashes are sound. -/
structure Queued (p : BlockPool) (as : List BlockId) : Prop extends p.Listed as where
  hash : p.HashInv

variable {p p' : BlockPool} {bs : List BlockId} {groupId : ℕ} {hashes : List Bytes}

theorem RefInv.queued {occ : BlockId → ℕ} (h : p.RefInv occ) (hh : p.HashInv) :
    p.Queued p.getAllFreeBlocks := by
  obtain ⟨as, has, hmem⟩ := h.free
  rw [getAllFreeBlocks, has.toList_eq]
  exact ⟨h.listed has hmem, hh⟩

namespace Queued

variable {p p' : BlockPool} {as bs : List BlockId}

theorem touch (h : p.Queued as) (hbs : ∀ b ∈ bs, b < p.numGpuBlocks) (he : p.touch bs = some p') :
    p'.Queued (without as bs) ∧ p.SameShape p' ∧ p.SameHashes p' ∧
      ∀ c, (p'.block c).refCnt = (p.block c).refCnt + bs.count c := by
  obtain ⟨p1, hp1, hlisted, -, hs, hh, href⟩ := h.touch_eq hbs
  obtain rfl := Option.some.inj (hp1.symm.trans he)
  exact ⟨⟨hlisted, h.hash.of_same hs hh⟩, hs, hh, href⟩

theorem getNewBlocks {n : ℤ} (h : p.Queued as) (he : p.getNewBlocks n = some (bs, p')) :
    bs = as.take n.toNat ∧ p'.Queued (as.drop n.toNat) ∧ p.SameShape p' ∧
      ∀ c, c ∉ bs → (p'.block c).blockHash = (p.block c).blockHash := by
  obtain ⟨-, hbs, hlisted, -, hh, hs, -, hhash⟩ := h.getNewBlocks_eq h.hash he
  exact ⟨hbs, ⟨hlisted, hh⟩, hs, fun c hc => by rw [hhash c, if_neg fun hcond => hc hcond.2]⟩

end Queued

/-! ## `cache_full_blocks` -/

/-- A block that has a hash keeps it, and the free queue is not touched. -/
theorem cacheLoop_keeps (he : cacheLoop groupId bs hashes p = some p') :
    p'.freeBlockQueue = p.freeBlockQueue ∧ ∀ c, (p.block c).blockHash ≠ none →
      (p'.block c).blockHash = (p.block c).blockHash := by
  induction bs generalizing hashes p with
  | nil =>
    cases he
    exact ⟨rfl, fun _ _ => rfl⟩
  | cons b bs ih =>
    unfold cacheLoop at he
    split at he
    · exact ih he
    · split at he
      · rename_i hash hs hnone
        obtain ⟨hqueue, hhash⟩ := ih he
        refine ⟨hqueue.trans rfl, fun c hc => ?_⟩
        have hne : b ≠ c := fun heq => hc (heq ▸ hnone)
        have hblock : (p.cacheBlock ⟨hash, groupId⟩ b).block c = p.block c := by
          simp only [cacheBlock, block, modifyBlock, List.getElem?_modify_ne _ _ hne]
        rw [hhash c (by rwa [hblock]), hblock]
      · cases he

theorem cacheFullBlocks_keeps {cached full bsz : ℕ}
    (he : p.cacheFullBlocks hashes bs cached full bsz groupId = some p') :
    p'.freeBlockQueue = p.freeBlockQueue ∧ ∀ c, (p.block c).blockHash ≠ none →
      (p'.block c).blockHash = (p.block c).blockHash := by
  unfold cacheFullBlocks at he
  split at he
  · cases he
    exact ⟨rfl, fun _ _ => rfl⟩
  · split at he
    · cases he
    · simp only [bind, Option.bind_eq_some_iff] at he
      obtain ⟨hs, -, he⟩ := he
      exact cacheLoop_keeps he

end BlockPool

end Nvllm.KVCache
