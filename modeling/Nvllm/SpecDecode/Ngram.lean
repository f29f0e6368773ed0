import Nvllm.Lib.Border
import Nvllm.Lib.Run
import Mathlib.Order.Bounds.Basic

/-! # The n-gram proposer

`_find_longest_matched_ngram_and_propose_tokens` looks for the longest n-gram at the end of the
tokens that occurs earlier, and proposes what followed its earliest occurrence. On the reversed
tokens an earlier occurrence is a border of a prefix, and one scan with a failure table (`lps`,
kept for the first `max_ngram` entries only) finds the longest one and the last place where it ends.
-/

namespace Nvllm.SpecDecode

open Nvllm.Run List

/-- The variables of the scan; `lps` is an array of `max_ngram` zeros at first. -/
structure Scan where
  i : ℕ
  prevLps : ℕ
  lps : ℕ → ℕ
  longestNgram : ℕ
  position : ℕ

def Scan.init : Scan := ⟨1, 0, fun _ => 0, 0, 0⟩

/-- The body of the loop. -/
def Scan.turn (tokens : List ℤ) (maxNgram : ℕ) (s : Scan) : Scan :=
  if tokens[s.prevLps]? = tokens[s.i]? then
    let prevLps := s.prevLps + 1
    let lps := if s.i < maxNgram then Function.update s.lps s.i prevLps else s.lps
    { i := s.i + 1
      prevLps := if prevLps = maxNgram then lps (maxNgram - 1) else prevLps
      lps := lps
      longestNgram := if s.longestNgram ≤ prevLps then prevLps else s.longestNgram
      position := if s.longestNgram ≤ prevLps then s.i else s.position }
  else if s.prevLps ≠ 0 then
    { s with prevLps := s.lps (s.prevLps - 1) }
  else
    { s with i := s.i + 1 }

/-- The loop ends within twice as many turns as there are tokens (`scan_spec`). -/
def Scan.scan (tokens : List ℤ) (maxNgram : ℕ) : Scan :=
  whileLoop (fun s => s.i < tokens.length) (Scan.turn tokens maxNgram) (2 * tokens.length)
    Scan.init

def findLongestMatchedNgramAndProposeTokens (originTokens : List ℤ) (minNgram maxNgram : ℕ)
    (maxModelLen k : ℤ) : List ℤ :=
  let totalToken := originTokens.length
  let k := min k (maxModelLen - totalToken)
  if totalToken < minNgram ∨ k ≤ 0 then []
  else
    let s := Scan.scan originTokens.reverse maxNgram
    if s.longestNgram < minNgram then []
    else
      let startPosition := totalToken - 1 - s.position + s.longestNgram
      (originTokens.drop startPosition).take (min k (totalToken - startPosition)).toNat

/-! ## The scan -/

/-- What the scan has found in the first `s.i` of the reversed tokens `w`. -/
structure Scanned (w : List ℤ) (maxNgram : ℕ) (s : Scan) : Prop where
  /-- the table holds the longest borders of the first prefixes, and nothing behind them -/
  table : ∀ j < s.i, j < maxNgram → Border w (j + 1) (s.lps j) ∧
    ∀ u, Border w (j + 1) u → u ≤ s.lps j
  unset : ∀ j, s.i ≤ j → s.lps j = 0
  current : Border w s.i s.prevLps
  lt_max : s.prevLps < maxNgram
  /-- longer borders do not go on with the next token -/
  passed : ∀ u < maxNgram, Border w s.i u → s.prevLps < u → w[u]? ≠ w[s.i]?
  longest_le : s.longestNgram ≤ maxNgram
  position_lt : s.position < s.i
  found : 0 < s.longestNgram → Border w (s.position + 1) s.longestNgram
  best : ∀ i u, i ≤ s.i → 0 < u → u ≤ maxNgram → Border w i u →
    u ≤ s.longestNgram ∧ (u = s.longestNgram → i ≤ s.position + 1)

namespace Scanned

variable {w : List ℤ} {maxNgram : ℕ} {s : Scan}

theorem init (hmax : 0 < maxNgram) (hw : 0 < w.length) : Scanned w maxNgram .init := by
  have hlt : ∀ {i u}, i ≤ 1 → Border w i u → u = 0 := fun hi hu => by
    have := hu.lt
    omega
  constructor
  · intro j hj _
    obtain rfl : j = 0 := Nat.lt_one_iff.mp hj
    exact ⟨.zero Nat.one_pos hw, fun u hu => (hlt le_rfl hu).le⟩
  · exact fun j _ => rfl
  · exact .zero Nat.one_pos hw
  · exact hmax
  · intro u _ hu hpos
    exact absurd (hlt le_rfl hu) (Nat.pos_iff_ne_zero.mp hpos)
  · exact Nat.zero_le _
  · exact Nat.one_pos
  · exact fun hpos => absurd hpos (Nat.lt_irrefl 0)
  · intro i u hi hpos _ hu
    exact absurd (hlt hi hu) (Nat.pos_iff_ne_zero.mp hpos)

/-- A border of the next prefix is one longer than a border that is not passed over. -/
theorem le_prevLps (h : Scanned w maxNgram s) (hi : s.i < w.length) {u : ℕ} (hu : u ≤ maxNgram)
    (hb : Border w (s.i + 1) u) (hpos : 0 < u) : u ≤ s.prevLps + 1 ∧
      (w[s.prevLps]? ≠ w[s.i]? → u ≤ s.prevLps) := by
  obtain ⟨v, rfl⟩ : ∃ v, u = v + 1 := ⟨u - 1, by omega⟩
  obtain ⟨hv, heq⟩ := (border_succ_iff hi).mp hb
  have hle : v ≤ s.prevLps := by
    by_contra hlt
    exact h.passed v hu hv (by omega) heq
  refine ⟨Nat.succ_le_succ hle, fun hne => Nat.lt_of_le_of_ne hle ?_⟩
  rintro rfl
  exact hne heq

/-- The entry of a border holds the next shorter one. -/
theorem fallback (h : Scanned w maxNgram s) {i v : ℕ} (hv : Border w i v) (hpos : 0 < v)
    (hlt : v ≤ s.i) (hmax : v ≤ maxNgram) : Border w i (s.lps (v - 1)) ∧
      s.lps (v - 1) < v ∧ ∀ u < v, Border w i u → u ≤ s.lps (v - 1) := by
  obtain ⟨hb, hlongest⟩ := h.table (v - 1) (by omega) (by omega)
  rw [Nat.sub_add_cancel hpos] at hb hlongest
  exact ⟨hv.trans hb, hb.lt, fun u hu hbu => hlongest u (hv.nest hbu hu)⟩

/-- The next prefix: `n` is its longest border, and the scan goes on with the longest one below
`maxNgram`. -/
theorem advance (h : Scanned w maxNgram s) {t : Scan} {n : ℕ} (hti : t.i = s.i + 1)
    (hlps : ∀ j, t.lps j = if j = s.i ∧ j < maxNgram then n else s.lps j)
    (hn : Border w (s.i + 1) n) (hmax : n ≤ maxNgram)
    (hlongest : ∀ u ≤ maxNgram, Border w (s.i + 1) u → u ≤ n)
    (hcur : Border w (s.i + 1) t.prevLps) (hlt : t.prevLps < maxNgram)
    (hpassed : ∀ u < maxNgram, Border w (s.i + 1) u → u ≤ t.prevLps)
    (hbest : t.longestNgram = max s.longestNgram n)
    (hposition : t.position = if s.longestNgram ≤ n ∧ 0 < n then s.i else s.position) :
    Scanned w maxNgram t := by
  have hpos := h.position_lt
  have hle := h.longest_le
  constructor
  · intro j hj hjm
    rw [hlps]
    by_cases hji : j = s.i
    · rw [if_pos ⟨hji, hjm⟩, hji]
      exact ⟨hn, fun u hu => hlongest u (by have := hu.lt; omega) hu⟩
    · rw [if_neg fun hc => hji hc.1]
      exact h.table j (by omega) hjm
  · intro j hj
    rw [hlps, if_neg (by omega)]
    exact h.unset j (by omega)
  · rwa [hti]
  · exact hlt
  · intro u hu hb hlt'
    rw [hti] at hb
    exact absurd (hpassed u hu hb) (by omega)
  · rw [hbest]
    exact max_le hle hmax
  · rw [hposition, hti]
    split <;> omega
  · intro hlong
    rw [hbest] at hlong ⊢
    rw [hposition]
    split
    · rename_i hc
      rwa [max_eq_right hc.1]
    · rw [max_eq_left (by omega)]
      exact h.found (by omega)
  · intro i u hiu hu hum hb
    rw [hbest, hposition]
    rcases Nat.lt_or_ge s.i i with hlt' | hge
    · obtain rfl : i = s.i + 1 := by omega
      have hun := hlongest u hum hb
      refine ⟨hun.trans (le_max_right _ _), fun heq => ?_⟩
      rw [if_pos (by omega)]
    · obtain ⟨hul, heq⟩ := h.best i u hge hu hum hb
      refine ⟨hul.trans (le_max_left _ _), fun heq' => ?_⟩
      split <;> omega

/-- The loop body keeps what was found, and the loop comes to an end. -/
theorem turn (h : Scanned w maxNgram s) (hi : s.i < w.length) :
    Scanned w maxNgram (s.turn w maxNgram) ∧
      2 * (w.length - (s.turn w maxNgram).i) + (s.turn w maxNgram).prevLps <
        2 * (w.length - s.i) + s.prevLps := by
  have hmax := h.lt_max
  have hplt := h.current.lt
  unfold Scan.turn
  split
  · -- the border grows
    rename_i heq
    have hn := (border_succ_iff hi).mpr ⟨h.current, heq⟩
    have hlongest : ∀ u ≤ maxNgram, Border w (s.i + 1) u → u ≤ s.prevLps + 1 := by
      intro u hu hb
      rcases Nat.eq_zero_or_pos u with rfl | hpos
      · exact Nat.zero_le _
      · exact (h.le_prevLps hi hu hb hpos).1
    have hlps : ∀ j, (if s.i < maxNgram then Function.update s.lps s.i (s.prevLps + 1)
        else s.lps) j = if j = s.i ∧ j < maxNgram then s.prevLps + 1 else s.lps j := by
      intro j
      split
      · grind
      · rw [if_neg (by omega)]
    have hnext : ∃ p, (if s.prevLps + 1 = maxNgram then
        (if s.i < maxNgram then Function.update s.lps s.i (s.prevLps + 1) else s.lps) (maxNgram - 1)
        else s.prevLps + 1) = p ∧ p ≤ s.prevLps + 1 ∧ p < maxNgram ∧ Border w (s.i + 1) p ∧
        ∀ u < maxNgram, Border w (s.i + 1) u → u ≤ p := by
      split
      · rename_i hfull
        obtain ⟨hb, hlt, hall⟩ := h.fallback hn (Nat.succ_pos _) hplt hfull.le
        rw [hlps, if_neg (by omega)]
        rw [hfull] at hb hlt hall
        exact ⟨_, rfl, by omega, hlt, hb, hall⟩
      · exact ⟨_, rfl, le_rfl, by omega, hn, fun u hu => hlongest u hu.le⟩
    obtain ⟨p, hp, hple, hplt', hb, hall⟩ := hnext
    dsimp only
    rw [hp]
    refine ⟨h.advance rfl hlps hn hmax hlongest hb hplt' hall ?_ ?_, ?_⟩
    · dsimp only
      split <;> omega
    · simp
    · omega
  · rename_i hne
    split
    · -- the next shorter border
      rename_i hpos
      obtain ⟨hb, hlt, hall⟩ := h.fallback h.current (Nat.pos_of_ne_zero hpos) hplt.le hmax.le
      refine ⟨{ h with
        current := hb
        lt_max := hlt.trans hmax
        passed := fun u hu hbu hlt' heq => ?_ }, by dsimp only; omega⟩
      rcases Nat.lt_trichotomy u s.prevLps with hup | rfl | hup
      · exact absurd (hall u hup hbu) (by dsimp only at hlt'; omega)
      · exact hne heq
      · exact h.passed u hu hbu hup heq
    · -- no border but the empty one
      obtain hp : s.prevLps = 0 := by omega
      have hlongest : ∀ u ≤ maxNgram, Border w (s.i + 1) u → u ≤ 0 := by
        intro u hu hbu
        by_contra hpos
        have := (h.le_prevLps hi hu hbu (by omega)).2 hne
        omega
      refine ⟨h.advance (n := 0) rfl (fun j => ?_) (.zero (Nat.succ_pos _) hi)
        (Nat.zero_le _) hlongest ?_ hmax ?_ ?_ ?_, by dsimp only; omega⟩
      · split
        · rename_i hj
          exact h.unset j hj.1.ge
        · rfl
      · rw [hp]
        exact .zero (Nat.succ_pos _) hi
      · exact fun u hu hbu => (hlongest u hu.le hbu).trans (Nat.zero_le _)
      · simp
      · simp

end Scanned

/-- The loop ends, and everything is scanned then. -/
theorem scan_spec {w : List ℤ} {maxNgram : ℕ} (hmax : 0 < maxNgram) (hw : 0 < w.length) :
    Scanned w maxNgram (Scan.scan w maxNgram) ∧ (Scan.scan w maxNgram).i = w.length := by
  obtain ⟨hs, hend⟩ : Scanned w maxNgram (Scan.scan w maxNgram) ∧
      decide ((Scan.scan w maxNgram).i < w.length) = false :=
    whileLoop_spec (Scanned w maxNgram) (fun s => 2 * (w.length - s.i) + s.prevLps)
      (fun s hs hi => hs.turn (of_decide_eq_true hi)) (Scanned.init hmax hw)
      (by simp only [Scan.init]; omega)
  have hge := of_decide_eq_false hend
  exact ⟨hs, Nat.le_antisymm hs.current.le (Nat.le_of_not_lt hge)⟩

/-! ## The proposal -/

/-- The last `n` tokens occur before, ending at position `e`. -/
def Recurs (tokens : List ℤ) (n e : ℕ) : Prop :=
  e < tokens.length ∧ tokens.drop (tokens.length - n) <:+ tokens.take e

variable {tokens : List ℤ} {n e i : ℕ}

theorem Recurs.of_border (h : Border tokens.reverse i n) :
    Recurs tokens n (tokens.length - (i - n)) := by
  have hlt := h.lt
  have hle := h.le
  rw [length_reverse] at hle
  exact ⟨by omega, (border_reverse_iff hlt hle).mp h⟩

theorem Recurs.border (h : Recurs tokens n e) :
    Border tokens.reverse (tokens.length - e + n) n := by
  obtain ⟨he, hs⟩ := h
  have hlen := hs.length_le
  rw [length_drop, length_take] at hlen
  refine (border_reverse_iff (by omega) (by omega)).mpr ?_
  rwa [Nat.add_sub_cancel, Nat.sub_sub_self he.le]

/-- **N-gram drafting.** Without an n-gram that occurs before, or without room for a token, there is
no proposal. Otherwise the tokens after the earliest occurrence of the longest one are proposed. -/
theorem proposes_after_longest_ngram (tokens : List ℤ) {minNgram maxNgram : ℕ} (hmin : 1 ≤ minNgram)
    (hmax : minNgram ≤ maxNgram) (maxModelLen k : ℤ) :
    (tokens.length < minNgram ∨ (∀ n e, minNgram ≤ n → n ≤ maxNgram → ¬ Recurs tokens n e) ∨
        maxModelLen ≤ tokens.length →
      findLongestMatchedNgramAndProposeTokens tokens minNgram maxNgram maxModelLen k = []) ∧
    (minNgram ≤ tokens.length → (∃ n e, minNgram ≤ n ∧ n ≤ maxNgram ∧ Recurs tokens n e) →
      tokens.length < maxModelLen → ∃ m s,
        IsGreatest {n | minNgram ≤ n ∧ n ≤ maxNgram ∧ ∃ e, Recurs tokens n e} m ∧
        IsLeast {e | Recurs tokens m e} s ∧
        findLongestMatchedNgramAndProposeTokens tokens minNgram maxNgram maxModelLen k =
          (tokens.drop s).take
            (min k (min (maxModelLen - tokens.length) (tokens.length - s))).toNat ∧
        (findLongestMatchedNgramAndProposeTokens tokens minNgram maxNgram maxModelLen k ≠ [] ↔
          1 ≤ k)) := by
  by_cases hroom : tokens.length < minNgram
  · refine ⟨fun _ => ?_, fun hle => absurd hroom (Nat.not_lt.mpr hle)⟩
    rw [findLongestMatchedNgramAndProposeTokens, if_pos (.inl hroom)]
  obtain ⟨hs, hi⟩ := scan_spec (show 0 < maxNgram by omega)
    (show 0 < tokens.reverse.length by rw [length_reverse]; omega)
  rw [length_reverse] at hi
  unfold findLongestMatchedNgramAndProposeTokens
  simp only [hroom, false_or]
  set s := Scan.scan tokens.reverse maxNgram
  -- every occurrence was found
  have hbest : ∀ n e, minNgram ≤ n → n ≤ maxNgram → Recurs tokens n e →
      n ≤ s.longestNgram ∧ (n = s.longestNgram → tokens.length - e + n ≤ s.position + 1) := by
    intro n e hn hn' h
    have hle := h.border.le
    rw [length_reverse] at hle
    exact hs.best _ n (by omega) (by omega) hn' h.border
  constructor
  · intro hnone
    split
    · rfl
    · rcases hnone with hnone | hfull
      · rw [if_pos]
        by_contra hlong
        exact hnone _ _ (Nat.not_lt.mp hlong) hs.longest_le (.of_border (hs.found (by omega)))
      · omega
  · rintro - ⟨n, e, hn, hn', hrec⟩ hlen
    have hlong : minNgram ≤ s.longestNgram := hn.trans (hbest n e hn hn' hrec).1
    have hfound := hs.found (by omega)
    have hlt := hfound.lt
    have hle := hfound.le
    rw [length_reverse] at hle
    have hstart : tokens.length - (s.position + 1 - s.longestNgram) =
        tokens.length - 1 - s.position + s.longestNgram := by omega
    have hrec' := Recurs.of_border hfound
    rw [hstart] at hrec'
    refine ⟨s.longestNgram, _, ⟨⟨hlong, hs.longest_le, _, hrec'⟩, ?_⟩, ⟨hrec', ?_⟩, ?_⟩
    · rintro n ⟨hn, hn', e, h⟩
      exact (hbest n e hn hn' h).1
    · intro e h
      have := (hbest _ e hlong hs.longest_le h).2 rfl
      omega
    · rw [if_neg (Nat.not_lt.mpr hlong)]
      split
      · rw [Int.toNat_of_nonpos (by omega), take_zero]
        exact ⟨rfl, fun h => absurd rfl h, fun h => by omega⟩
      · rw [min_assoc]
        refine ⟨rfl, ?_⟩
        rw [← length_pos_iff, length_take, length_drop]
        omega

/-- The end `5, 6` of the tokens occurred at the start, where `7` and `8` followed. -/
theorem proposes_two_tokens :
    ∃ m s, IsGreatest {n | 1 ≤ n ∧ n ≤ 3 ∧ ∃ e, Recurs [5, 6, 7, 8, 6, 5, 6] n e} m ∧
      IsLeast {e | Recurs [5, 6, 7, 8, 6, 5, 6] m e} s ∧
      findLongestMatchedNgramAndProposeTokens [5, 6, 7, 8, 6, 5, 6] 1 3 10 2 = [7, 8] := by
  obtain ⟨m, s, hm, hs, -⟩ := (proposes_after_longest_ngram [5, 6, 7, 8, 6, 5, 6] (le_refl 1)
    (by decide : 1 ≤ 3) 10 2).2 (by decide) ⟨1, 2, by decide, by decide, by decide, by decide⟩
    (by decide)
  exact ⟨m, s, hm, hs, by decide⟩

/-- Zero tokens may be asked for. -/
theorem proposes_no_token : Recurs [5, 5] 1 1 ∧
    findLongestMatchedNgramAndProposeTokens [5, 5] 1 1 10 0 = [] :=
  ⟨⟨by decide, by decide⟩, rfl⟩

end Nvllm.SpecDecode
