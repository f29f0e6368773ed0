import Nvllm.KVCache.Accounting
import Nvllm.KVCache.WindowHit

/-! # Hybrid hits are the longest possible

Which lengths an attention group accepts can be said without any search (`KVCacheSpec.Accepts`). The
lookup of a group returns the longest aligned length it accepts up to the current one, so a pass
over the groups never drops below a length that all of them accept, and a pass that changes nothing
has found such a length. Accepted lengths of a sliding window or of mamba are not closed downwards;
full attention is, and that is why its lookup is not repeated.
-/

namespace Nvllm.KVCache

open List

/-- Which numbers of blocks a group can use, given the positions that are cached for it: all of
them, those of the last window, or the last state. -/
def KVCacheSpec.Accepts (spec : KVCacheSpec) (cached : ℕ → Bool) (n : ℕ) : Prop :=
  match spec.kind with
  | .full _ => ∀ i < n, cached i = true
  | .slidingWindow w => ∀ i < n, n - min n (cdiv (w - 1) spec.blockSize) ≤ i → cached i = true
  | .mamba _ _ => n = 0 ∨ cached (n - 1) = true
  | .chunkedLocal _ | .crossAttention => False

/-- Sliding windows have room for a token before the current one. -/
def SpecKind.Wide : SpecKind → Prop
  | .slidingWindow w => 2 ≤ w
  | _ => True

instance (k : SpecKind) : Decidable k.Wide :=
  match k with
  | .slidingWindow w => inferInstanceAs (Decidable (2 ≤ w))
  | .full _ | .chunkedLocal _ | .mamba _ _ | .crossAttention => isTrue trivial

/-! ## One lookup -/

namespace Lookup

variable {l : Lookup}

variable {n : ℕ}

/-- Hits from the left are as long as they can be. -/
theorem le_length_leftHits {hs : List Bytes}
    (h : ∀ i < n, (hs[i]?.bind l.cached).isSome = true) : n ≤ (l.leftHits hs).length := by
  induction hs generalizing n with
  | nil =>
    rcases Nat.eq_zero_or_pos n with rfl | hpos
    · exact Nat.zero_le _
    · cases h 0 hpos
  | cons hash hs ih =>
    cases n with
    | zero => exact Nat.zero_le _
    | succ n =>
      obtain ⟨row, hrow⟩ := Option.isSome_iff_exists.mp (h 0 (Nat.succ_pos n))
      have hcached : l.cached hash = some row := hrow
      rw [leftHits, hcached]
      exact Nat.succ_le_succ (ih fun i hi => h (i + 1) (Nat.succ_lt_succ hi))

theorem rowAt_of_lt_leftHits {i : ℕ} (hi : i < (l.leftHits (l.hashes.take n)).length) :
    (l.rowAt i).isSome = true := by
  obtain ⟨hash, hhash, hrow⟩ := leftHits_sound (getElem?_eq_getElem hi)
  rw [getElem?_take] at hhash
  split at hhash
  · rw [rowAt_eq hhash, hrow]
    rfl
  · cases hhash

theorem fullHits_longest (heagle : l.useEagle = false) (maxLength : ℕ) :
    (∀ i < (l.fullHits maxLength).length, (l.rowAt i).isSome = true) ∧
      ∀ n ≤ maxLength / l.blockSize, l.AlignedAt n → (∀ i < n, (l.rowAt i).isSome = true) →
        n ≤ (l.fullHits maxLength).length := by
  have hfull : l.fullHits maxLength = popAligned l.blockSize l.alignmentTokens
      (l.leftHits (l.hashes.take (maxLength / l.blockSize))) := by
    simp [fullHits, heagle]
  rw [hfull, length_popAligned]
  constructor
  · intro i hi
    exact rowAt_of_lt_leftHits (hi.trans_le (alignedLength_le _ _ _))
  · intro n hn haligned hcached
    refine le_alignedLength (le_length_leftHits fun i hi => ?_) haligned
    rw [getElem?_take_of_lt (hi.trans_le hn)]
    exact hcached i hi

theorem mambaLoop_longest {rows : List Row} (he : l.mambaLoop n = some rows) :
    (rows.length = 0 ∨ (l.rowAt (rows.length - 1)).isSome = true) ∧
      ∀ m ≤ n, l.AlignedAt m → (m = 0 ∨ (l.rowAt (m - 1)).isSome = true) → m ≤ rows.length := by
  induction n with
  | zero =>
    cases he
    exact ⟨.inl rfl, fun m hm _ _ => hm⟩
  | succ i ih =>
    simp only [mambaLoop, bind, Option.bind_eq_some_iff] at he
    obtain ⟨hash, hhash, he⟩ := he
    -- passing over position `i` is right as long as `i + 1` is no candidate
    have hpass : l.mambaLoop i = some rows →
        ¬ (l.AlignedAt (i + 1) ∧ (l.rowAt i).isSome = true) →
        (rows.length = 0 ∨ (l.rowAt (rows.length - 1)).isSome = true) ∧
          ∀ m ≤ i + 1, l.AlignedAt m → (m = 0 ∨ (l.rowAt (m - 1)).isSome = true) →
            m ≤ rows.length := by
      intro he hnot
      refine ⟨(ih he).1, fun m hm haligned hm' => ?_⟩
      rcases Nat.lt_or_eq_of_le hm with hlt | rfl
      · exact (ih he).2 m (by omega) haligned hm'
      · exact absurd ⟨haligned, hm'.resolve_left (Nat.succ_ne_zero i)⟩ hnot
    split at he
    · rename_i row hrow
      split at he
      · rename_i hun
        exact hpass he fun h => hun.2 (Nat.mod_eq_zero_of_dvd h.1)
      · cases he
        simp only [length_append, length_replicate, length_singleton,
          Nat.add_sub_cancel, rowAt_eq hhash, hrow]
        exact ⟨.inr rfl, fun m hm _ _ => hm⟩
    · rename_i hmiss
      refine hpass he fun h => ?_
      rw [rowAt_eq hhash, hmiss] at h
      cases h.2

end Lookup

/-- **The lookup of a group is the longest** among the aligned lengths that the group accepts. -/
theorem findLongestCacheHit_longest {p : BlockPool} {spec : KVCacheSpec} {groupIds : List ℕ}
    {hashes : List Bytes} {maxLength align : ℕ} {rows : List Row} (hspec : spec.kind.Hybrid)
    (hwide : spec.kind.Wide)
    (he : findLongestCacheHit p spec 1 groupIds hashes maxLength false align = some rows) :
    spec.Accepts (fun i => (hashes[i]?.bind (p.getCachedBlock · groupIds)).isSome) rows.length ∧
      ∀ n ≤ maxLength / spec.blockSize, align ∣ n * spec.blockSize →
        spec.Accepts (fun i => (hashes[i]?.bind (p.getCachedBlock · groupIds)).isSome) n →
          n ≤ rows.length := by
  unfold KVCacheSpec.Accepts
  unfold findLongestCacheHit at he
  cases hkind : spec.kind with
  | full mla =>
    simp only [hkind, Nat.lt_irrefl, if_false] at he ⊢
    obtain rfl := Option.some.inj he
    exact Lookup.fullHits_longest (l := ⟨p, groupIds, hashes, spec.blockSize, align, false⟩) rfl _
  | slidingWindow w =>
    simp only [hkind, if_true] at he ⊢
    have hw : 2 ≤ w := by rwa [hkind] at hwide
    have hc : 0 < cdiv (w - 1) spec.blockSize := Lookup.cdiv_pos (by omega) spec.blockSize_pos
    obtain ⟨n, found, hfound, hrows⟩ := Lookup.slidingHits_found (Nat.add_pos_left hc _) he
    obtain rfl := hrows
    have hlen := hfound.length
    have hneeded : Lookup.contiguousBlocks ⟨p, groupIds, hashes, spec.blockSize, align, false⟩ w =
        cdiv (w - 1) spec.blockSize := rfl
    rw [hlen]
    refine ⟨fun i hi hge => hfound.accepts.2 i hi (by omega), fun m hm haligned hm' => ?_⟩
    exact hfound.last m hm ⟨haligned, fun i hi hge => hm' i hi (by omega)⟩
  | mamba mode m =>
    simp only [hkind, if_true] at he ⊢
    exact Lookup.mambaLoop_longest he
  | chunkedLocal c | crossAttention =>
    rw [hkind] at hspec
    exact hspec.elim

namespace KVCacheManager

/-! ## One pass -/

/-- The attention group accepts a hit of `n` tokens: the hashes at its granularity are cached, for
all its KV cache groups, where its spec needs them. -/
def Accepted (k : KVCacheManager) (hashes : List Bytes) (g : AttentionGroup) (n : ℕ) : Prop :=
  ∃ hs, k.pool.hashesAt g.spec.blockSize hashes = some hs ∧
    g.spec.Accepts (fun i => (hs[i]?.bind (k.pool.getCachedBlock · g.groupIds)).isSome)
      (n / g.spec.blockSize)

section

variable {k : KVCacheManager} {lcm curr curr' : ℕ} {hashes : List Bytes} {g : AttentionGroup}
  {gs : List AttentionGroup}

variable {n : ℕ} {hits : HitsByGroup} {q : ℕ × HitsByGroup}

/-- Full attention accepts every shorter length as well. -/
theorem Accepted.of_le (hfull : g.spec.isFull = true) {n' : ℕ} (h : Accepted k hashes g n)
    (hle : n' ≤ n) : Accepted k hashes g n' := by
  obtain ⟨hs, hhs, hacc⟩ := h
  refine ⟨hs, hhs, ?_⟩
  unfold KVCacheSpec.isFull at hfull
  unfold KVCacheSpec.Accepts at hacc ⊢
  split at hfull
  · rename_i hkind
    simp only [hkind] at hacc ⊢
    exact fun i hi => hacc i (hi.trans_le (Nat.div_le_div_right hle))
  · cases hfull

/-- A lookup that returns `n` tokens for at most `curr` tokens. -/
structure LooksUp (k : KVCacheManager) (lcm : ℕ) (hashes : List Bytes) (g : AttentionGroup)
    (curr n : ℕ) : Prop where
  le : n ≤ curr
  dvd : lcm ∣ n
  accepted : Accepted k hashes g n
  longest : ∀ m ≤ curr, lcm ∣ m → Accepted k hashes g m → m ≤ n

theorem looksUp_of_find (hybrid : g.spec.kind.Hybrid) (hwide : g.spec.kind.Wide)
    (heagle : k.useEagle = false) (hdvd : g.spec.blockSize ∣ lcm) {hs : List Bytes}
    {rows : List Row} (hhs : k.pool.hashesAt g.spec.blockSize hashes = some hs)
    (he : findLongestCacheHit k.pool g.spec 1 g.groupIds hs curr k.useEagle lcm = some rows) :
    LooksUp k lcm hashes g curr (rows.length * g.spec.blockSize) := by
  have hpos := g.spec.blockSize_pos
  rw [heagle] at he
  obtain ⟨hacc, hlongest⟩ := findLongestCacheHit_longest hybrid hwide he
  have hle := findLongestCacheHit_length he
  have henough : g.spec.isFull = true ∨ curr / g.spec.blockSize ≤ hs.length := by
    by_contra hnot
    rw [not_or, Bool.not_eq_true, Nat.not_le] at hnot
    rw [findLongestCacheHit_eq_none hybrid hnot.1 _ _ _ hnot.2] at he
    cases he
  obtain ⟨rows', he', -, -, haligned⟩ := findLongestCacheHit_shape k.pool hybrid g.groupIds false
    lcm henough
  rw [he] at he'
  obtain rfl := Option.some.inj he'
  refine ⟨(Nat.le_div_iff_mul_le hpos).mp hle, haligned, ⟨hs, hhs, ?_⟩, fun m hm hlcm hacc' => ?_⟩
  · rwa [Nat.mul_div_cancel _ hpos]
  · obtain ⟨hs', hhs', hacc'⟩ := hacc'
    rw [hhs] at hhs'
    obtain rfl := Option.some.inj hhs'
    have hmul := Nat.div_mul_cancel (hdvd.trans hlcm)
    rw [← hmul]
    exact Nat.mul_le_mul_right _ (hlongest _ (Nat.div_le_div_right hm) (by rwa [hmul]) hacc')

/-- What a pass from `curr` to `curr'` has found out: no length that all groups accept is above
`curr'`, and the groups accept `curr'` if it is `curr`. Full attention and the last group always
accept it. -/
structure Narrowed (k : KVCacheManager) (lcm : ℕ) (hashes : List Bytes)
    (gs : List AttentionGroup) (curr curr' : ℕ) : Prop where
  le : curr' ≤ curr
  dvd : lcm ∣ curr'
  keeps : ∀ n ≤ curr, lcm ∣ n → (∀ g ∈ gs, Accepted k hashes g n) → n ≤ curr'
  same : curr' = curr → ∀ g ∈ gs, Accepted k hashes g curr
  full : ∀ g ∈ gs, g.spec.isFull = true → Accepted k hashes g curr'
  last : ∀ g ∈ gs.getLast?, Accepted k hashes g curr'

/-- A group that brings the length from `curr` to `mid` and is all right there, then the others. -/
theorem Narrowed.cons {mid : ℕ} (hg : LooksUp k lcm hashes g curr mid)
    (h : Narrowed k lcm hashes gs mid curr') : Narrowed k lcm hashes (g :: gs) curr curr' := by
  have hmid : curr' = curr → mid = curr := fun heq => le_antisymm hg.le (heq ▸ h.le)
  refine ⟨h.le.trans hg.le, h.dvd, fun n hn hdvd hacc => ?_, fun heq g' hg' => ?_,
    fun g' hg' hfull => ?_, fun g' hg' => ?_⟩
  · have hn' := hg.longest n hn hdvd (hacc g mem_cons_self)
    exact h.keeps n hn' hdvd fun g' hg' => hacc g' (mem_cons_of_mem _ hg')
  · rcases mem_cons.mp hg' with rfl | hg'
    · exact hmid heq ▸ hg.accepted
    · exact hmid heq ▸ h.same (heq.trans (hmid heq).symm) g' hg'
  · rcases mem_cons.mp hg' with rfl | hg'
    · exact hg.accepted.of_le hfull h.le
    · exact h.full g' hg' hfull
  · cases gs with
    | nil =>
      cases hg'
      -- nothing follows, so nothing is dropped any more
      have hle := h.keeps mid (Nat.le_refl _) hg.dvd (by simp)
      exact le_antisymm h.le hle ▸ hg.accepted
    | cons g1 gs =>
      exact h.last g' hg'

/-- The pass needs of its groups what a single lookup needs. -/
structure Searchable (k : KVCacheManager) (lcm n : ℕ) (gs : List AttentionGroup) : Prop where
  groups : PassGroups k lcm n gs
  wide : ∀ g ∈ gs, g.spec.kind.Wide
  noEagle : k.useEagle = false

theorem Searchable.tail (h : Searchable k lcm n (g :: gs)) : Searchable k lcm n gs :=
  ⟨h.groups.tail, fun g' hg' => h.wide g' (mem_cons_of_mem _ hg'), h.noEagle⟩

theorem hybridPass_cons (hgs : Searchable k lcm n (g :: gs)) (hnew : ¬ Reused hits g)
    (he : k.hybridPass lcm hashes (g :: gs) curr hits = some q) :
    ∃ mid rows, LooksUp k lcm hashes g curr mid ∧
      k.hybridPass lcm hashes gs mid (setColumns k.pool.nullBlock rows 0 g.groupIds hits) =
        some q := by
  have he := (if_neg hnew).symm.trans he
  obtain ⟨hs, hhs, he⟩ := Option.bind_eq_some_iff.mp he
  obtain ⟨rows, hrows, he⟩ := Option.bind_eq_some_iff.mp he
  exact ⟨_, rows, looksUp_of_find (hgs.groups.hybrid g mem_cons_self)
    (hgs.wide g mem_cons_self) hgs.noEagle (hgs.groups.dvd g mem_cons_self) hhs hrows, he⟩

/-- **A pass narrows the length**, if the groups that it does not look up again accept it. -/
theorem hybridPass_narrows (hgs : Searchable k lcm n gs) (hdvd : lcm ∣ curr)
    (hused : ∀ g ∈ gs, Reused hits g → Accepted k hashes g curr)
    (he : k.hybridPass lcm hashes gs curr hits = some q) : Narrowed k lcm hashes gs curr q.1 := by
  induction gs generalizing curr hits with
  | nil =>
    cases he
    exact ⟨Nat.le_refl _, hdvd, fun _ hn _ _ => hn, by simp, by simp, by simp⟩
  | cons g gs ih =>
    by_cases hreused : Reused hits g
    · have hcount : curr / g.spec.blockSize * g.spec.blockSize = curr :=
        Nat.div_mul_cancel ((hgs.groups.dvd g mem_cons_self).trans hdvd)
      rw [hybridPass_reused hreused, hcount] at he
      have h := ih hgs.tail hdvd (fun g' hg' => hused g' (mem_cons_of_mem _ hg')) he
      exact h.cons ⟨Nat.le_refl _, hdvd, hused g mem_cons_self hreused, fun _ hm _ _ => hm⟩
    · obtain ⟨mid, rows, hmid, he⟩ := hybridPass_cons hgs hreused he
      refine Narrowed.cons hmid (ih hgs.tail hmid.dvd (fun g' hg' hr => ?_) he)
      -- the lists of the other groups are as before
      have hr' := (reused_setColumns hgs.groups hg').mp hr
      exact (hused g' (mem_cons_of_mem _ hg') hr').of_le hr'.1 hmid.le

/-! ## The loop -/

/-- The longest aligned length up to `n` that all groups accept. -/
structure Longest (k : KVCacheManager) (lcm : ℕ) (hashes : List Bytes) (gs : List AttentionGroup)
    (n hitLength : ℕ) : Prop where
  le : hitLength ≤ n
  dvd : lcm ∣ hitLength
  accepted : ∀ g ∈ gs, Accepted k hashes g hitLength
  longest : ∀ m ≤ n, lcm ∣ m → (∀ g ∈ gs, Accepted k hashes g m) → m ≤ hitLength

theorem Narrowed.longest (h : Narrowed k lcm hashes gs curr curr')
    (hall : ∀ g ∈ gs, Accepted k hashes g curr') : Longest k lcm hashes gs curr curr' :=
  ⟨h.le, h.dvd, hall, h.keeps⟩

/-- The longest length below a narrowed one is the longest one. -/
theorem Longest.of_narrowed (h : Narrowed k lcm hashes gs curr curr')
    (hl : Longest k lcm hashes gs curr' n) : Longest k lcm hashes gs curr n :=
  ⟨hl.le.trans h.le, hl.dvd, hl.accepted,
    fun m hm hdvd hacc => hl.longest m (h.keeps m hm hdvd hacc) hdvd hacc⟩

/-- A pass that does not shorten the hit has found it. -/
theorem Narrowed.longest_same (h : Narrowed k lcm hashes gs curr curr') (hle : curr ≤ curr') :
    Longest k lcm hashes gs curr curr := by
  obtain rfl : curr' = curr := le_antisymm h.le hle
  exact h.longest (h.same rfl)

theorem hybridLoop_longest (fuel : ℕ) (hgs : Searchable k lcm n gs) (hdvd : lcm ∣ curr)
    (hfuel : curr ≤ fuel) (hfull : ∀ g ∈ gs, g.spec.isFull = true → Accepted k hashes g curr)
    (he : k.hybridLoop gs lcm false hashes fuel curr hits = some q) :
    Longest k lcm hashes gs curr q.1 := by
  induction curr using Nat.strong_induction_on generalizing fuel hits with
  | _ curr ih =>
    obtain ⟨q', hpass, hcases⟩ := hybridLoop_cases he
    have h := hybridPass_narrows hgs hdvd (fun g hg hr => hfull g hg hr.1) hpass
    rcases hcases with ⟨hle, rfl⟩ | ⟨hlt, hleft, -⟩ | ⟨f, rfl, -, hlt, he⟩
    · exact h.longest_same hle
    · rcases hleft with rfl | hsimple
      · omega
      · cases hsimple
    · exact (ih q'.1 hlt f h.dvd (by omega) h.full he).of_narrowed h

/-- The first pass looks every group up. -/
theorem Hybrid.firstPass_narrows (h : k.Hybrid)
    (hgs : Searchable k k.lcmBlockSize k.managers.length k.attentionGroups)
    (hnone : ∀ g, ¬ Reused hits g)
    (he : k.hybridPass k.lcmBlockSize hashes k.attentionGroups curr hits = some q) :
    Narrowed k k.lcmBlockSize hashes k.attentionGroups curr q.1 := by
  have hseveral := h.several
  cases heq : k.attentionGroups with
  | nil =>
    rw [heq] at hseveral
    cases hseveral
  | cons g gs =>
    rw [heq] at hgs he
    obtain ⟨mid, rows, hmid, he⟩ := hybridPass_cons hgs (hnone g) he
    refine Narrowed.cons hmid (hybridPass_narrows hgs.tail hmid.dvd (fun g' hg' hr => ?_) he)
    exact absurd ((reused_setColumns hgs.groups hg').mp hr) (hnone g')

/-- Of two groups, the first of full attention, one pass finds the longest length. -/
theorem Narrowed.longest_simple (hsimple : k.isSimpleHybrid = true)
    (h : Narrowed k lcm hashes k.attentionGroups curr curr') :
    Longest k lcm hashes k.attentionGroups curr curr' := by
  rw [isSimpleHybrid, Bool.and_eq_true, decide_eq_true_eq] at hsimple
  obtain ⟨f, o, hgs⟩ := length_eq_two.mp hsimple.1
  apply h.longest
  rw [hgs] at h hsimple ⊢
  intro g hg
  rcases mem_cons.mp hg with rfl | hg
  · exact h.full g mem_cons_self hsimple.2
  · rw [mem_singleton.mp hg]
    exact h.last o rfl

theorem Hybrid.search_longest (h : k.Hybrid)
    (hgs : Searchable k k.lcmBlockSize k.managers.length k.attentionGroups)
    (he : k.search hashes n n = some q) :
    Longest k k.lcmBlockSize hashes k.attentionGroups n q.1 := by
  obtain ⟨q', hpass, hcases⟩ := hybridLoop_cases he
  have hpassed := h.firstPass_narrows hgs (not_reused_replicate _) hpass
  rcases hcases with ⟨hle, rfl⟩ | ⟨hlt, hleft, rfl⟩ | ⟨f, rfl, -, hlt, he⟩
  · exact hpassed.longest_same hle
  · exact hpassed.longest_simple (hleft.resolve_left (by omega))
  · exact (hybridLoop_longest f hgs hpassed.dvd (by omega) hpassed.full he).of_narrowed hpassed

end

/-- `find_longest_cache_hit` returns the longest aligned length within the given one that all
attention groups accept. -/
def LongestHit (k : KVCacheManager) (hashes : List Bytes) (maxCacheHitLength : ℕ) : Prop :=
  ∃ hits hitLength, k.hybridHits hashes maxCacheHitLength = some (hits, hitLength) ∧
    Longest k k.lcmBlockSize hashes k.attentionGroups maxCacheHitLength hitLength

/-- **Hybrid hits are the longest possible** without EAGLE, for every cache content and every list
of hashes that covers the first group; with fewer hashes the search raises. -/
theorem longestHit_iff_coversFirst {k : KVCacheManager} (h : k.Hybrid)
    (heagle : k.useEagle = false) (hwide : ∀ m ∈ k.managers, m.spec.kind.Wide) (hashes : List Bytes)
    (maxCacheHitLength : ℕ) :
    LongestHit k hashes maxCacheHitLength ↔ CoversFirst k hashes maxCacheHitLength := by
  constructor
  · rintro ⟨hits, hitLength, hhits, -⟩
    exact h.coversFirst_of_hits hhits
  · intro hcovers
    have hgs : Searchable k k.lcmBlockSize k.managers.length k.attentionGroups := by
      refine ⟨h.passGroups, fun g hg => ?_, heagle⟩
      obtain ⟨i, hi⟩ := exists_mem_of_ne_nil _ (h.passGroups.nonempty g hg)
      obtain ⟨m, hm, hspec⟩ := exists_manager hg hi
      exact hspec ▸ hwide m (mem_of_getElem? hm)
    obtain ⟨q, hsearch⟩ : ∃ q, k.search hashes maxCacheHitLength maxCacheHitLength = some q := by
      cases hsimple : k.isSimpleHybrid with
      | true =>
        obtain ⟨n', hits, hsearch, -⟩ := h.search_simple hcovers hsimple
        exact ⟨_, hsearch⟩
      | false =>
        obtain ⟨n', hits, hsearch, -⟩ := h.search_settled hcovers hsimple
        exact ⟨_, hsearch⟩
    refine ⟨(cutFirst k.attentionGroups q.1 q.2).map (·.getD []), q.1, ?_,
      h.search_longest hgs hsearch⟩
    rw [hybridHits_eq, hsearch]
    rfl

/-- A sliding window, and mamba with blocks of two tokens. -/
def slidingMambaConfig : KVCacheConfig where
  numBlocks := 17
  specs := [⟨.slidingWindow 3, 1, 0, Nat.one_pos, by decide⟩,
    ⟨.mamba .all 0, 2, 0, Nat.two_pos, by decide⟩]
  maxModelLen := 100
  hashBlockSize := 1
  enableCaching := true
  useEagle := false

/-- The first group is looked up from the right and there is no hash. -/
theorem missing_hashes_raise : ∃ k, init slidingMambaConfig = some k ∧ k.Hybrid ∧
    (∀ m ∈ k.managers, m.spec.kind.Wide) ∧ k.useEagle = false ∧ ¬ LongestHit k [] 4 := by
  obtain ⟨k, hk, hhybrid, hwide, heagle, hnone⟩ : ∃ k ∈ init slidingMambaConfig, k.Hybrid ∧
      (∀ m ∈ k.managers, m.spec.kind.Wide) ∧ k.useEagle = false ∧ k.hybridHits [] 4 = none := by
    decide +kernel
  refine ⟨k, hk, hhybrid, hwide, heagle, ?_⟩
  rintro ⟨hits, hitLength, hhits, -⟩
  rw [hnone] at hhits
  cases hhits

/-- After a request of four tokens, a longer one with the same beginning hits all four. -/
theorem second_request_hits_longest : ∃ k0 k, init slidingMambaConfig = some k0 ∧
    k0.step (.allocateSlots (promptOf 0 4) true { numNewTokens := 4 }) = some k ∧
    LongestHit k (digests 6) 5 ∧ (k.hybridHits (digests 6) 5).map (·.2) = some 4 := by
  obtain ⟨k0, hk0, k, hk, hhybrid, hwide, heagle, hcovers, hlen⟩ : ∃ k0 ∈ init slidingMambaConfig,
      ∃ k ∈ k0.step (.allocateSlots (promptOf 0 4) true { numNewTokens := 4 }), k.Hybrid ∧
        (∀ m ∈ k.managers, m.spec.kind.Wide) ∧ k.useEagle = false ∧
        CoversFirst k (digests 6) 5 ∧ (k.hybridHits (digests 6) 5).map (·.2) = some 4 := by
    decide +kernel
  exact ⟨k0, k, hk0, hk, (longestHit_iff_coversFirst hhybrid heagle hwide _ _).mpr hcovers, hlen⟩

end KVCacheManager

end Nvllm.KVCache
