import Nvllm.Sched.QueueMoves

/-! # How many tokens a request gets

Bounds for the number of new tokens that a pass computes for a request: the encoder inputs and the
split for mamba only make it smaller, and never smaller than zero. Without a KV connector a waiting
request that is admitted gets at least one token and none beyond those that are known.
-/

namespace Nvllm.Sched

open Nvllm.KVCache Option

variable {cfg : SchedulerConfig} {a : Answers}

/-- `n'` is `n` or smaller, but not below zero because of that. -/
structure Lowers (n n' : ℤ) : Prop where
  le : n' ≤ max n 0
  nonneg : 0 ≤ n → 0 ≤ n'

theorem Lowers.refl (n : ℤ) : Lowers n n := ⟨le_max_left n 0, id⟩

variable {n n' : ℤ} {r : Request}

theorem Lowers.trans {n'' : ℤ} (h : Lowers n n') (h' : Lowers n' n'') : Lowers n n'' where
  le := h'.le.trans (max_le h.le (le_max_right n 0))
  nonneg hn := h'.nonneg (h.nonneg hn)

theorem lowers_of_between (h0 : 0 ≤ n') (h : n' ≤ max n 0) : Lowers n n' :=
  ⟨h, fun _ => h0⟩

/-! ## Encoder inputs -/

namespace EncoderTry

variable {t t' : EncoderTry} {goOn : Bool} {r : Request} {c shift : ℤ} {i : ℕ}
  {f : MultiModalFeature}

theorem schedule_numNewTokens (h : t.schedule a c i f = some (goOn, t')) :
    t'.numNewTokens = t.numNewTokens := by
  simp only [schedule, bind, bind_eq_some_iff] at h
  obtain ⟨⟨x, y⟩, -, h⟩ := h
  split at h
  · cases h
    rfl
  · split at h <;> cases h <;> rfl

/-- An item that is needed and has no room ends the new tokens before it. -/
theorem reserve_lowers (hneeded : (f.start : ℤ) < c + t.numNewTokens + shift)
    (h : t.reserve cfg a r c shift i f = some (goOn, t')) :
    Lowers t.numNewTokens t'.numNewTokens := by
  unfold reserve at h
  dsimp only at h
  split at h
  · cases h
    refine lowers_of_between (le_max_left _ _) ?_
    show max 0 ((f.start : ℤ) - (c + shift)) ≤ max t.numNewTokens 0
    omega
  · obtain ⟨⟨fits, enc⟩, -, h⟩ := bind_eq_some_iff.mp h
    split at h
    · rw [schedule_numNewTokens h]
      exact .refl _
    · cases h
      dsimp only
      split
      · exact lowers_of_between (by omega) (by omega)
      · exact lowers_of_between (le_refl _) (le_max_right _ _)

theorem item_lowers (h : t.item cfg a r c shift i f = some (goOn, t')) :
    Lowers t.numNewTokens t'.numNewTokens := by
  unfold item at h
  dsimp only at h
  split at h
  · cases h
    exact .refl _
  · rename_i hneeded
    rw [not_le] at hneeded
    split at h
    · split at h
      · cases h
        exact .refl _
      · cases h
    · split at h
      · cases h
        exact .refl _
      · split at h
        · exact reserve_lowers hneeded h
        · split at h
          · cases h
            exact .refl _
          · obtain ⟨⟨cached, enc⟩, -, h⟩ := bind_eq_some_iff.mp h
            split at h
            · cases h
              exact .refl _
            · exact reserve_lowers (t := { t with enc }) hneeded h

theorem loop_lowers {fs : List MultiModalFeature} (h : loop cfg a r c shift i fs t = some t') :
    Lowers t.numNewTokens t'.numNewTokens := by
  induction fs generalizing i t with
  | nil =>
    cases h
    exact .refl _
  | cons f fs ih =>
    obtain ⟨⟨goOn, t1⟩, hitem, h⟩ := bind_eq_some_iff.mp h
    have hone := item_lowers hitem
    dsimp only at h
    split at h
    · exact hone.trans (ih h)
    · cases h
      exact hone

end EncoderTry

theorem tryScheduleEncoderInputs_lowers {enc : EncoderCacheManager} {c budget : ℤ} {t : EncoderTry}
    (h : tryScheduleEncoderInputs cfg a enc r c n budget = some t) : Lowers n t.numNewTokens := by
  unfold tryScheduleEncoderInputs at h
  split at h
  · cases h
    exact .refl _
  · exact EncoderTry.loop_lowers h

theorem tryScheduleEncoderInputs_of_text {enc : EncoderCacheManager} {c budget : ℤ} {t : EncoderTry}
    (hr : r.hasEncoderInputs = false)
    (h : tryScheduleEncoderInputs cfg a enc r c n budget = some t) : t.numNewTokens = n := by
  rw [tryScheduleEncoderInputs, if_pos (.inr hr)] at h
  cases h
  rfl

theorem mambaBlockAlignedSplit_lowers {numNewLocal numExternal : ℕ}
    (h : mambaBlockAlignedSplit cfg r n numNewLocal numExternal = some n') : Lowers n n' := by
  -- the tokens end at a block, at the last position that is cached, or where they were
  have hcut : ∀ c last : ℤ, (if c + n < last then
      some (n / cfg.cacheBlockSize * cfg.cacheBlockSize)
      else if c < last ∧ last < c + n then some (last - c) else some n) = some n' →
      Lowers n n' := by
    intro c last h
    split at h
    · cases h
      refine ⟨?_, fun hn => ?_⟩
      · rcases Nat.eq_zero_or_pos cfg.cacheBlockSize with hz | hpos
        · rw [hz]
          simp
        · exact (Int.ediv_mul_le n (by omega)).trans (le_max_left _ _)
      · have hbs : (0 : ℤ) ≤ cfg.cacheBlockSize := Int.natCast_nonneg _
        exact Int.mul_nonneg (Int.ediv_nonneg hn hbs) hbs
    · split at h
      · rename_i hlast
        cases h
        exact lowers_of_between (by omega) (by omega)
      · cases h
        exact .refl _
  unfold mambaBlockAlignedSplit at h
  split at h
  · cases h
    exact .refl _
  · split at h
    · cases h
    · by_cases hearly : r.numComputedTokens + (numNewLocal : ℤ) + numExternal <
          max (r.numPromptTokens : ℤ) (r.numTokens - 1)
      · rw [if_pos hearly] at h
        exact hcut _ _ h
      · rw [if_neg hearly] at h
        cases h
        exact .refl _

/-! ## Running requests -/

namespace Pass

variable {p : Pass} {v : Ref} {t : EncoderTry}

theorem cutLong_lowers (cfg : SchedulerConfig) (n : ℤ) : Lowers n (cutLong cfg n) := by
  unfold cutLong
  split
  · exact lowers_of_between (by omega) (by omega)
  · exact .refl _

/-- The tokens that a running request may get: those not computed yet, up to the model length. -/
def room (cfg : SchedulerConfig) (r : Request) : ℤ :=
  min (r.numTokensWithSpec + r.numOutputPlaceholders - r.numComputedTokens)
    (cfg.maxModelLen - 1 - r.numComputedTokens)

theorem runningTokens_lowers (hbudget : 0 < p.tokenBudget) (r : Request) :
    Lowers (room cfg r) (p.runningTokens cfg r) := by
  have hcut := cutLong_lowers cfg
    (r.numTokensWithSpec + r.numOutputPlaceholders - r.numComputedTokens)
  have hle := hcut.le
  unfold room runningTokens
  refine ⟨?_, fun h => ?_⟩
  · omega
  · have hnonneg := hcut.nonneg (h.trans (min_le_left _ _))
    omega

/-- What a running request gets. -/
structure RunningTokens (cfg : SchedulerConfig) (r : Request) (n : ℤ) : Prop
    extends Lowers (room cfg r) n where
  ne_zero : n ≠ 0

theorem tryRunning_tokens (hbudget : 0 < p.tokenBudget) (h : p.tryRunning cfg a v = some t) :
    Lowers (room cfg (p.s.req v)) t.numNewTokens := by
  simp only [tryRunning, bind, bind_eq_some_iff] at h
  obtain ⟨t1, ht1, n, hn, h⟩ := h
  cases h
  exact ((runningTokens_lowers hbudget _).trans (tryScheduleEncoderInputs_lowers ht1)).trans
    (mambaBlockAlignedSplit_lowers hn)

/-! ## Waiting requests -/

/-- What a waiting request that is admitted gets, after `c` computed tokens. -/
structure EnterTokens (r : Request) (n c : ℤ) : Prop where
  pos : 0 < n
  le : c + n ≤ r.numTokens
  computed : r.numComputedTokens = 0 ∧ 0 ≤ c ∨ c = r.numComputedTokens

variable {r : Request}

/-- What is found to be computed if there is no connector. -/
theorem lookUpComputed_cases (hconn : cfg.connector = false) {o : Option Computed}
    (h : p.lookUpComputed cfg a r = some o) :
    ∃ c, o = some c ∧ c.loadKvAsync = false ∧ c.numExternalComputedTokens = 0 ∧
      (r.numComputedTokens = 0 ∧ (∃ q, r.toKV = some q ∧
        p.s.kv.getComputedBlocks q = some (c.newComputedBlocks, c.numNewLocalComputedTokens)) ∧
        c.numComputedTokens = c.numNewLocalComputedTokens ∨
      r.numComputedTokens ≠ 0 ∧ c.newComputedBlocks = p.s.kv.emptyHits ∧
        c.numNewLocalComputedTokens = 0 ∧ c.numComputedTokens = r.numComputedTokens) := by
  unfold lookUpComputed at h
  split at h
  · rename_i hzero
    simp only [bind, bind_eq_some_iff, hconn, Bool.false_eq_true, if_false] at h
    obtain ⟨q, hq, ⟨hits, numLocal⟩, hhits, h⟩ := h
    split at h
    · cases h
      exact ⟨_, rfl, rfl, rfl, .inl ⟨hzero, ⟨q, hq, hhits⟩, by simp⟩⟩
    · cases h
  · rename_i hne
    cases h
    exact ⟨_, rfl, rfl, rfl, .inr ⟨hne, rfl, rfl, rfl⟩⟩

theorem tryWaiting_cases {c : Computed} (hload : c.loadKvAsync = false)
    (h : p.tryWaiting cfg a r c = some (true, t)) :
    0 < t.numNewTokens ∧ c.numComputedTokens + t.numNewTokens ≤ r.numTokens ∧
      t.numNewTokens ≤ p.tokenBudget := by
  unfold tryWaiting at h
  dsimp only at h
  rw [hload, if_neg Bool.false_ne_true] at h
  split at h
  · cases h
  · split at h
    · cases h
    · rename_i hpos
      rw [not_le] at hpos
      obtain ⟨t1, ht1, h⟩ := bind_eq_some_iff.mp h
      have hlow := tryScheduleEncoderInputs_lowers ht1
      split at h
      · cases h
      · rename_i henc
        obtain ⟨n', hn', h⟩ := bind_eq_some_iff.mp h
        have hlow' := hlow.trans (mambaBlockAlignedSplit_lowers hn')
        have hle := hlow'.le
        have hlong : cutLong cfg ((r.numTokens : ℤ) - c.numComputedTokens) ≤
            r.numTokens - c.numComputedTokens := by
          unfold cutLong
          split <;> omega
        have hnonneg := hlow'.nonneg (le_of_lt hpos)
        obtain ⟨hgo, rfl⟩ := Prod.mk.inj (Option.some.inj h)
        have hne : n' ≠ 0 := by
          -- without the split the tokens are those of the encoder inputs
          by_cases hsplit : cfg.needMambaBlockAlignedSplit = true
          · rw [hsplit] at hgo
            simpa using hgo
          · rw [Bool.not_eq_true] at hsplit
            rw [mambaBlockAlignedSplit, if_pos hsplit] at hn'
            cases hn'
            by_cases henc' : r.hasEncoderInputs = true
            · exact fun hzero => henc ⟨henc', hzero⟩
            · rw [Bool.not_eq_true] at henc'
              rw [tryScheduleEncoderInputs_of_text henc' ht1]
              exact ne_of_gt hpos
        refine ⟨?_, ?_, ?_⟩
        · show 0 < n'
          omega
        · show c.numComputedTokens + n' ≤ r.numTokens
          omega
        · show n' ≤ p.tokenBudget
          omega

theorem enterTokens (hconn : cfg.connector = false) {c : Computed}
    (hc : p.lookUpComputed cfg a r = some (some c)) (h : p.tryWaiting cfg a r c = some (true, t)) :
    EnterTokens r t.numNewTokens c.numComputedTokens := by
  obtain ⟨c', hc', hload, -, hcases⟩ := lookUpComputed_cases hconn hc
  cases hc'
  obtain ⟨hpos, hle, -⟩ := tryWaiting_cases hload h
  refine ⟨hpos, hle, ?_⟩
  rcases hcases with ⟨hzero, -, hcomp⟩ | ⟨-, -, -, hcomp⟩
  · exact .inl ⟨hzero, by omega⟩
  · exact .inr hcomp

end Pass

end Nvllm.Sched
