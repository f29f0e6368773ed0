import Nvllm.Lib.Run
import Nvllm.Multimodal.CacheRequest

/-! # The multi-modal cache does not spin

The eviction loop of an insertion goes on forever once the first unpinned key of the order is not
stored. Requests put such keys there: all keys are touched before the first one is inserted. As
long as every request fits in the cache the loop only ever meets stored keys, because those of the
request stand behind all others and need not be evicted. Two items that do not fit together are
enough for a loop that does not end.
-/

namespace Nvllm.Multimodal.LRUCache

open Run

variable {K V : Type} [DecidableEq K] {getsizeof : V → ℕ}

variable (getsizeof) in
/-- The handling of a request returns (or raises), and each eviction that it makes removes a stored
entry: the first unpinned key of the order is stored. -/
structure Progresses (c : LRUCache K V) (req : List (Item K V)) : Prop where
  returns : (c.handle getsizeof req).isSome
  evicts : ∀ p ∈ c.handlePops getsizeof req, ∃ k v, p.lruKey = some k ∧ p.data.get? k = some v

/-- **Between requests the order lists the stored keys**, in every run of requests that fit. -/
theorem ok_of_reach {capacity : ℚ≥0} {c : LRUCache K V}
    (h : Reach (step getsizeof) (Fits getsizeof) (new capacity) c) : c.Ok getsizeof := by
  refine h.invariant (Ok getsizeof) (ok_new capacity) ?_
  intro c req c' ho hfits hstep
  obtain ⟨c1, hrun, hafter, -⟩ := handle_spec ho hfits
  rw [step, hrun, Option.map_some, Option.some.injEq] at hstep
  exact hstep ▸ hafter.ok ho hfits

/-- **No request spins** after any requests that fit, if it fits itself. -/
theorem progresses_of_fits {capacity : ℚ≥0} {c : LRUCache K V} {req : List (Item K V)}
    (h : Reach (step getsizeof) (Fits getsizeof) (new capacity) c) (hreq : c.Fits getsizeof req) :
    c.Progresses getsizeof req := by
  obtain ⟨c', hrun, -, hpops⟩ := handle_spec (ok_of_reach h) hreq
  constructor
  · rw [hrun]
    rfl
  · exact hpops

/-- After an item of size 6 and one of size 3, another one of size 6 has to evict the first. -/
theorem evicting_request_progresses :
    ∃ c : LRUCache ℕ ℕ, Reach (step id) (Fits id) (new 10) c ∧
      c.handlePops id [(2, some 6)] ≠ [] ∧ c.Progresses id [(2, some 6)] := by
  obtain ⟨c, hc, hpops, hfits⟩ : ∃ c ∈ run (guarded (Fits id) (step id)) (new 10 : LRUCache ℕ ℕ)
      [[(0, some 6), (1, some 3)]],
      c.handlePops id [(2, some 6)] ≠ [] ∧ c.Fits id [(2, some 6)] := by
    decide +kernel
  have hreach : Reach (step id) (Fits id) (new 10) c := Reach.of_guarded_run .init hc
  exact ⟨c, hreach, hpops, progresses_of_fits hreach hfits⟩

/-- Two items of size 6 in a cache of capacity 10: the insertion of the second one meets its own
key, which is touched and not stored, and pops it forever. -/
theorem two_large_items_spin :
    (new 10 : LRUCache ℕ ℕ).handle id [(0, some 6), (1, some 6)] = none ∧
      (∃ p ∈ (new 10 : LRUCache ℕ ℕ).handlePops id [(0, some 6), (1, some 6)],
        p.lruKey = some 1 ∧ p.data.get? 1 = none ∧ ∀ n, p.makeRoom id 6 n = none) ∧
      ¬(new 10 : LRUCache ℕ ℕ).Progresses id [(0, some 6), (1, some 6)] := by
  have hnone : (new 10 : LRUCache ℕ ℕ).handle id [(0, some 6), (1, some 6)] = none := by
    decide +kernel
  obtain ⟨p, hp, hkey, hget, hloop⟩ :
      ∃ p ∈ (new 10 : LRUCache ℕ ℕ).handlePops id [(0, some 6), (1, some 6)],
        p.lruKey = some 1 ∧ p.data.get? 1 = none ∧ p.makeRoom id 6 p.fuel = none := by
    decide +kernel
  refine ⟨hnone, ⟨p, hp, hkey, hget, makeRoom_eq_none hloop (Nat.lt_succ_self _)⟩, ?_⟩
  intro h
  have hret := h.returns
  cases hret

end Nvllm.Multimodal.LRUCache
