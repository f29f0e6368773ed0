import Mathlib.Data.List.Perm.Basic
import Mathlib.Data.Rat.Floor
import Nvllm.Lib.Dict

/-! # Cache policies of the CPU offloading manager

A `CachePolicy` keeps the offloaded blocks by hash and decides which of them are evicted.
`LRUCachePolicy` has one list, `ARCCachePolicy` has two lists of blocks (`t1`, `t2`), two lists of
hashes that were evicted from them (`b1`, `b2`) and a target size for `t1`. The lists are
dictionaries in the order of use. The float `target_t1_size` is a rational number here, and the
rounding of its arithmetic is a parameter.

`entries` are the blocks of a policy. Each operation is described by what it does to them, up to
their order.
-/

namespace Nvllm.Offload

open List Option

/-- The status of an offloaded block: `-1` while it is not ready, then the number of transfers that
read it. -/
structure BlockStatus where
  refCnt : ℤ
  blockId : ℕ
  deriving DecidableEq, Repr

namespace BlockStatus

def init (blockId : ℕ) : BlockStatus := ⟨-1, blockId⟩

def isReady (block : BlockStatus) : Bool := decide (0 ≤ block.refCnt)

/-- Assigns to `ref_cnt`, a field of 32 bits. -/
def setRefCnt (block : BlockStatus) (n : ℤ) : BlockStatus :=
  { block with refCnt := n.bmod (2 ^ 32) }

@[simp] theorem blockId_setRefCnt (block : BlockStatus) (n : ℤ) :
    (block.setRefCnt n).blockId = block.blockId := rfl

theorem refCnt_setRefCnt (block : BlockStatus) {n : ℤ} (h0 : 0 ≤ n) (h : n < 2 ^ 31) :
    (block.setRefCnt n).refCnt = n := by
  show n.bmod (2 ^ 32) = n
  rw [Int.bmod]
  omega

end BlockStatus

variable {H : Type} [DecidableEq H]

/-- The block may be evicted. -/
def isCandidate (excluded : List H) (e : H × BlockStatus) : Bool :=
  decide (e.2.refCnt = 0) && decide (e.1 ∉ excluded)

/-! ## LRU -/

structure LRUCachePolicy (H : Type) where
  blocks : Dict H BlockStatus

namespace LRUCachePolicy

def touchLoop : List H → LRUCachePolicy H → LRUCachePolicy H
  | [], p => p
  | h :: hs, p => touchLoop hs ⟨p.blocks.moveToEnd h⟩

def evict (p : LRUCachePolicy H) (n : ℕ) (excluded : List H) :
    Option (List (H × BlockStatus) × LRUCachePolicy H) :=
  let candidates := (p.blocks.entries.filter (isCandidate excluded)).take n
  if candidates.length < n then none
  else some (candidates, ⟨(candidates.map Prod.fst).foldl Dict.erase p.blocks⟩)

end LRUCachePolicy

/-! ## ARC -/

/-- The rounding of float arithmetic. Rounding to the nearest double is monotone and keeps zero. -/
structure Rounding where
  round : ℚ → ℚ
  mono : Monotone round
  zero : round 0 = 0

/-- Exact arithmetic. -/
def Rounding.exact : Rounding := ⟨id, monotone_id, rfl⟩

structure ARCCachePolicy (H : Type) where
  cacheCapacity : ℕ
  targetT1Size : ℚ := 0
  t1 : Dict H BlockStatus := ∅
  t2 : Dict H BlockStatus := ∅
  b1 : Dict H Unit := ∅
  b2 : Dict H Unit := ∅

namespace ARCCachePolicy

def get (p : ARCCachePolicy H) (h : H) : Option BlockStatus := (p.t1.get? h).or (p.t2.get? h)

def insert (p : ARCCachePolicy H) (h : H) (block : BlockStatus) : ARCCachePolicy H :=
  { p with t1 := p.t1.set h block, b1 := p.b1.erase h, b2 := p.b2.erase h }

def remove (p : ARCCachePolicy H) (h : H) : ARCCachePolicy H :=
  if p.t1.contains h then { p with t1 := p.t1.erase h } else { p with t2 := p.t2.erase h }

/-- The body of the loop of `touch`: a quotient, a sum and a difference are rounded. -/
def touchOne (R : Rounding) (p : ARCCachePolicy H) (h : H) : ARCCachePolicy H :=
  match p.t1.get? h with
  | some block =>
    -- a block that was just prepared to be stored is not really touched twice
    if block.isReady then { p with t1 := p.t1.erase h, t2 := p.t2.set h block }
    else { p with t1 := (p.t1.erase h).set h block }
  | none =>
    if p.t2.contains h then { p with t2 := p.t2.moveToEnd h }
    else if p.b1.contains h then
      let delta : ℚ := max 1 (R.round (p.b2.entries.length / p.b1.entries.length))
      { p with
        targetT1Size := min (R.round (p.targetT1Size + delta)) p.cacheCapacity
        b1 := p.b1.moveToEnd h }
    else if p.b2.contains h then
      let delta : ℚ := max 1 (R.round (p.b1.entries.length / p.b2.entries.length))
      { p with
        targetT1Size := max (R.round (p.targetT1Size - delta)) 0
        b2 := p.b2.moveToEnd h }
    else p

def touchLoop (R : Rounding) : List H → ARCCachePolicy H → ARCCachePolicy H
  | [], p => p
  | h :: hs, p => touchLoop R hs (p.touchOne R h)

/-- The loop of `evict` that collects `n` more candidates; each says whether it is from `t1`. -/
def collect (p : ARCCachePolicy H) (excluded : List H) :
    ℕ → ℤ → List ((H × BlockStatus) × Bool) → Option (List ((H × BlockStatus) × Bool))
  | 0, _, candidates => some candidates
  | n + 1, virtualT1Size, candidates =>
    let select (d : Dict H BlockStatus) : Option (H × BlockStatus) :=
      d.entries.find? (isCandidate (excluded ++ candidates.map fun c => c.1.1))
    match if ⌊p.targetT1Size⌋ ≤ virtualT1Size then select p.t1 else none with
    | some e => p.collect excluded n (virtualT1Size - 1) (candidates ++ [(e, true)])
    | none =>
      match select p.t2 with
      | some e => p.collect excluded n virtualT1Size (candidates ++ [(e, false)])
      | none => none

/-- The loop of `evict` that applies the evictions. -/
def evictLoop : List ((H × BlockStatus) × Bool) → ARCCachePolicy H → ARCCachePolicy H
  | [], p => p
  | ((h, _), true) :: cs, p => evictLoop cs { p with t1 := p.t1.erase h, b1 := p.b1.set h () }
  | ((h, _), false) :: cs, p => evictLoop cs { p with t2 := p.t2.erase h, b2 := p.b2.set h () }

/-- Cuts the lists of evicted hashes to the capacity. -/
def trimGhosts (p : ARCCachePolicy H) : ARCCachePolicy H :=
  { p with
    b1 := p.b1.dropFirst (p.b1.entries.length - p.cacheCapacity)
    b2 := p.b2.dropFirst (p.b2.entries.length - p.cacheCapacity) }

def evict (p : ARCCachePolicy H) (n : ℕ) (excluded : List H) :
    Option (List (H × BlockStatus) × ARCCachePolicy H) :=
  if n = 0 then some ([], p)
  else do
    let candidates ← p.collect excluded n p.t1.entries.length []
    return (candidates.map Prod.fst, (evictLoop candidates p).trimGhosts)

end ARCCachePolicy

/-! ## Either policy -/

inductive PolicyName
  | lru
  | arc
  deriving DecidableEq, Repr

inductive CachePolicy (H : Type)
  | lru (p : LRUCachePolicy H)
  | arc (p : ARCCachePolicy H)

namespace CachePolicy

def init (name : PolicyName) (cacheCapacity : ℕ) : CachePolicy H :=
  match name with
  | .lru => .lru ⟨∅⟩
  | .arc => .arc { cacheCapacity }

def get (p : CachePolicy H) (h : H) : Option BlockStatus :=
  match p with
  | lru p => p.blocks.get? h
  | arc p => p.get h

def insert (p : CachePolicy H) (h : H) (block : BlockStatus) : CachePolicy H :=
  match p with
  | lru p => lru ⟨p.blocks.set h block⟩
  | arc p => arc (p.insert h block)

/-- `remove`; a `KeyError` for LRU if the hash is not there. -/
def remove (p : CachePolicy H) (h : H) : Option (CachePolicy H) :=
  match p with
  | lru p => if p.blocks.contains h then some (lru ⟨p.blocks.erase h⟩) else none
  | arc p => some (arc (p.remove h))

def touch (R : Rounding) (p : CachePolicy H) (blockHashes : List H) : CachePolicy H :=
  match p with
  | lru p => lru (LRUCachePolicy.touchLoop blockHashes.reverse p)
  | arc p => arc (ARCCachePolicy.touchLoop R blockHashes.reverse p)

/-- `evict`: the evicted blocks, or nothing if there are fewer than `n`. -/
def evict (p : CachePolicy H) (n : ℕ) (excluded : List H) :
    Option (List (H × BlockStatus) × CachePolicy H) :=
  match p with
  | lru p => (p.evict n excluded).map fun r => (r.1, lru r.2)
  | arc p => (p.evict n excluded).map fun r => (r.1, arc r.2)

/-- An assignment to the block object that `get` returns. -/
def assign (p : CachePolicy H) (h : H) (block : BlockStatus) : CachePolicy H :=
  match p with
  | lru p => lru ⟨p.blocks.set h block⟩
  | arc p =>
    if p.t1.contains h then arc { p with t1 := p.t1.set h block }
    else arc { p with t2 := p.t2.set h block }

/-- The blocks with their hashes. -/
def entries (p : CachePolicy H) : List (H × BlockStatus) :=
  match p with
  | lru p => p.blocks.entries
  | arc p => p.t1.entries ++ p.t2.entries

/-- Each hash has one block. -/
def Ok (p : CachePolicy H) : Prop := (p.entries.map Prod.fst).Nodup

/-! ## What the operations do to the blocks -/

variable {p : CachePolicy H} {h : H} {b : BlockStatus}

theorem get_eq_lookup (p : CachePolicy H) (h : H) : p.get h = Dict.lookup h p.entries := by
  cases p with
  | lru p => rfl
  | arc p => exact Dict.lookup_append.symm

theorem get_eq_none_iff : p.get h = none ↔ h ∉ p.entries.map Prod.fst := by
  rw [get_eq_lookup, Dict.lookup_eq_none_iff]

theorem mem_of_get (hb : p.get h = some b) : (h, b) ∈ p.entries := by
  cases p with
  | lru p => exact Dict.mem_of_get? hb
  | arc p =>
    rcases or_eq_some_iff.mp hb with h1 | ⟨-, h2⟩
    · exact mem_append_left _ (Dict.mem_of_get? h1)
    · exact mem_append_right _ (Dict.mem_of_get? h2)

theorem Ok.get_of_mem (hp : p.Ok) (hb : (h, b) ∈ p.entries) : p.get h = some b := by
  cases hg : p.get h with
  | none => exact absurd (mem_map_of_mem hb) (get_eq_none_iff.mp hg)
  | some b' =>
    have he := inj_on_of_nodup_map hp (mem_of_get hg) hb rfl
    exact congrArg (fun e => some e.2) he

omit [DecidableEq H] in
/-- Policies with the same blocks. -/
theorem Ok.of_perm {p' : CachePolicy H} (hp : p.Ok) (h : p'.entries.Perm p.entries) : p'.Ok :=
  ((h.map Prod.fst).nodup_iff).mpr hp

/-- `get`, once the entries are known up to their order. -/
theorem Ok.get_eq (hp : p.Ok) {es : List (H × BlockStatus)} (hes : p.entries.Perm es) (h : H) :
    p.get h = Dict.lookup h es := by
  rw [get_eq_lookup]
  exact Dict.lookup_perm hes hp h

theorem perm_insert (hb : p.get h = none) (b : BlockStatus) :
    (p.insert h b).entries.Perm ((h, b) :: p.entries) := by
  cases p with
  | lru p =>
    show (p.blocks.set h b).entries.Perm _
    rw [Dict.entries_set_of_new b hb]
    exact perm_append_singleton _ _
  | arc p =>
    show ((p.t1.set h b).entries ++ p.t2.entries).Perm ((h, b) :: (p.t1.entries ++ p.t2.entries))
    rw [Dict.entries_set_of_new b (or_eq_none_iff.mp hb).1]
    exact (perm_append_singleton _ _).append_right _

theorem Ok.insert (hp : p.Ok) (hb : p.get h = none) (b : BlockStatus) : (p.insert h b).Ok := by
  rw [Ok, ((perm_insert hb b).map Prod.fst).nodup_iff, map_cons, nodup_cons]
  exact ⟨get_eq_none_iff.mp hb, hp⟩

/-- A block of ARC is in the first list or in the second. -/
theorem get_arc {p : ARCCachePolicy H} (hb : (arc p).get h = some b) :
    (p.t1.contains h = true ∧ p.t1.get? h = some b) ∨
      (¬ p.t1.contains h = true ∧ p.t2.get? h = some b) := by
  change (p.t1.get? h).or (p.t2.get? h) = some b at hb
  rw [Dict.contains]
  cases h1 : p.t1.get? h with
  | some b1 =>
    rw [h1, some_or] at hb
    exact .inl ⟨rfl, hb⟩
  | none =>
    rw [h1, none_or] at hb
    exact .inr ⟨Bool.false_ne_true, hb⟩

/-- An assignment replaces one block. -/
theorem perm_assign (hb : p.get h = some b) (b' : BlockStatus) :
    ∃ es, p.entries.Perm ((h, b) :: es) ∧ (p.assign h b').entries.Perm ((h, b') :: es) := by
  cases p with
  | lru p => exact ⟨_, Dict.perm_erase hb, Dict.perm_set b'⟩
  | arc p =>
    rcases get_arc hb with ⟨hc, hb⟩ | ⟨hc, hb⟩
    · rw [assign, if_pos hc]
      exact ⟨(p.t1.erase h).entries ++ p.t2.entries, (Dict.perm_erase hb).append_right _,
        (Dict.perm_set b').append_right _⟩
    · rw [assign, if_neg hc]
      refine ⟨p.t1.entries ++ (p.t2.erase h).entries, ?_, ?_⟩
      · exact ((Dict.perm_erase hb).append_left _).trans perm_middle
      · exact ((Dict.perm_set b').append_left _).trans perm_middle

theorem Ok.assign (hp : p.Ok) (hb : p.get h = some b) (b' : BlockStatus) : (p.assign h b').Ok := by
  obtain ⟨es, hes, hes'⟩ := perm_assign hb b'
  rw [Ok, (hes'.map Prod.fst).nodup_iff]
  exact (hes.map Prod.fst).nodup_iff.mp hp

theorem Ok.get_assign (hp : p.Ok) (hb : p.get h = some b) (b' : BlockStatus) (k : H) :
    (p.assign h b').get k = if k = h then some b' else p.get k := by
  obtain ⟨es, hes, hes'⟩ := perm_assign hb b'
  rw [(hp.assign hb b').get_eq hes', hp.get_eq hes, Dict.lookup, Dict.lookup]
  by_cases hk : k = h
  · rw [if_pos hk.symm, if_pos hk]
  · rw [if_neg (Ne.symm hk), if_neg hk, if_neg (Ne.symm hk)]

theorem remove_eq (hb : p.get h = some b) :
    ∃ p', p.remove h = some p' ∧ p.entries.Perm ((h, b) :: p'.entries) := by
  cases p with
  | lru p =>
    have hc : p.blocks.contains h = true := by
      rw [Dict.contains, show p.blocks.get? h = some b from hb]
      rfl
    exact ⟨lru ⟨p.blocks.erase h⟩, if_pos hc, Dict.perm_erase hb⟩
  | arc p =>
    refine ⟨arc (p.remove h), rfl, ?_⟩
    rcases get_arc hb with ⟨hc, hb⟩ | ⟨hc, hb⟩
    · rw [ARCCachePolicy.remove, if_pos hc]
      exact (Dict.perm_erase hb).append_right _
    · rw [ARCCachePolicy.remove, if_neg hc]
      exact ((Dict.perm_erase hb).append_left _).trans perm_middle

/-! ### Touching -/

theorem perm_touchLoop_lru (hs : List H) (p : LRUCachePolicy H) :
    (LRUCachePolicy.touchLoop hs p).blocks.entries.Perm p.blocks.entries := by
  induction hs generalizing p with
  | nil => exact .refl _
  | cons h hs ih => exact (ih _).trans (Dict.perm_moveToEnd _ _)

theorem perm_touchOne (R : Rounding) {p : ARCCachePolicy H} (hp : Ok (arc p)) (h : H) :
    (entries (arc (p.touchOne R h))).Perm (entries (arc p)) := by
  simp only [ARCCachePolicy.touchOne]
  split
  · rename_i b hb
    split
    · -- the block moves from `t1` to `t2`
      have hnew : p.t2.get? h = none := by
        cases h2 : p.t2.get? h with
        | none => rfl
        | some b2 =>
          rw [Ok, entries, map_append, nodup_append] at hp
          exact absurd rfl (hp.2.2 h (mem_map_of_mem (Dict.mem_of_get? hb)) h
            (mem_map_of_mem (Dict.mem_of_get? h2)))
      show ((p.t1.erase h).entries ++ (p.t2.set h b).entries).Perm (p.t1.entries ++ p.t2.entries)
      rw [Dict.entries_set_of_new b hnew, ← append_assoc]
      exact (perm_append_singleton _ _).trans
        (((Dict.perm_erase hb).append_right _).symm)
    · show (((p.t1.erase h).set h b).entries ++ p.t2.entries).Perm (p.t1.entries ++ p.t2.entries)
      rw [Dict.entries_set_of_new b (Dict.get?_erase_self _ _)]
      exact ((perm_append_singleton _ _).trans (Dict.perm_erase hb).symm).append_right _
  · split
    · exact (Dict.perm_moveToEnd _ _).append_left _
    · split
      · exact .refl _
      · split <;> exact .refl _

theorem perm_touchLoop_arc (R : Rounding) (hs : List H) {p : ARCCachePolicy H} (hp : Ok (arc p)) :
    (entries (arc (ARCCachePolicy.touchLoop R hs p))).Perm (entries (arc p)) := by
  induction hs generalizing p with
  | nil => exact .refl _
  | cons h hs ih =>
    have hone := perm_touchOne R hp h
    exact (ih (hp.of_perm hone)).trans hone

theorem Ok.perm_touch (hp : p.Ok) (R : Rounding) (hs : List H) :
    (p.touch R hs).entries.Perm p.entries := by
  cases p with
  | lru p => exact perm_touchLoop_lru _ p
  | arc p => exact perm_touchLoop_arc R _ hp

/-! ### Evicting -/

theorem evict_lru {p p' : LRUCachePolicy H} {n : ℕ} {excluded : List H}
    {evicted : List (H × BlockStatus)} (h : p.evict n excluded = some (evicted, p')) :
    p.blocks.entries.Perm (evicted ++ p'.blocks.entries) ∧ evicted.length = n ∧
      ∀ e ∈ evicted, isCandidate excluded e = true := by
  rw [LRUCachePolicy.evict] at h
  split at h
  · cases h
  · cases h
    have hsub := (take_sublist n _).trans
      (filter_sublist (l := p.blocks.entries) (p := isCandidate excluded))
    refine ⟨Dict.perm_foldl_erase (fun e he => hsub.subset he)
      ((hsub.map Prod.fst).nodup p.blocks.nodup), ?_, ?_⟩
    · have hle := length_take_le n (p.blocks.entries.filter (isCandidate excluded))
      omega
    · exact fun e he => (mem_filter.mp (mem_of_mem_take he)).2

/-- What `evict` of ARC has collected: distinct blocks that may be evicted, each with the list it is
in. -/
structure Collected (p : ARCCachePolicy H) (excluded : List H)
    (cs : List ((H × BlockStatus) × Bool)) : Prop where
  stored : ∀ c ∈ cs, c.1 ∈ (if c.2 then p.t1 else p.t2).entries
  candidate : ∀ c ∈ cs, isCandidate excluded c.1 = true
  nodup : (cs.map fun c => c.1.1).Nodup

theorem Collected.snoc {p : ARCCachePolicy H} {excluded : List H}
    {cs : List ((H × BlockStatus) × Bool)} (hc : Collected p excluded cs) {e : H × BlockStatus}
    (fromT1 : Bool) (hmem : e ∈ (if fromT1 then p.t1 else p.t2).entries)
    (he : isCandidate (excluded ++ cs.map fun c => c.1.1) e = true) :
    Collected p excluded (cs ++ [(e, fromT1)]) := by
  simp only [isCandidate, Bool.and_eq_true, decide_eq_true_eq, mem_append, not_or] at he
  constructor
  · intro c hcs
    rcases mem_append.mp hcs with hcs | hcs
    · exact hc.stored c hcs
    · rw [mem_singleton.mp hcs]
      exact hmem
  · intro c hcs
    rcases mem_append.mp hcs with hcs | hcs
    · exact hc.candidate c hcs
    · rw [mem_singleton.mp hcs]
      simp [isCandidate, he.1, he.2.1]
  · rw [map_append, map_singleton, nodup_append]
    refine ⟨hc.nodup, nodup_singleton _, ?_⟩
    intro k hk k' hk' heq
    rw [mem_singleton.mp hk'] at heq
    exact he.2.2 (heq ▸ hk)

theorem collect_collected {p : ARCCachePolicy H} {excluded : List H} {n : ℕ} {v : ℤ}
    {cs cs' : List ((H × BlockStatus) × Bool)} (h : p.collect excluded n v cs = some cs')
    (hc : Collected p excluded cs) : Collected p excluded cs' ∧ cs'.length = cs.length + n := by
  induction n generalizing v cs with
  | zero =>
    cases h
    exact ⟨hc, rfl⟩
  | succ n ih =>
    rw [ARCCachePolicy.collect] at h
    split at h
    · rename_i e he
      obtain ⟨-, he⟩ := ite_none_right_eq_some.mp he
      have hsnoc := hc.snoc true (mem_of_find?_eq_some he) (find?_some he)
      obtain ⟨hc', hlen⟩ := ih h hsnoc
      rw [length_append, length_singleton] at hlen
      exact ⟨hc', by omega⟩
    · split at h
      · rename_i e he
        have hsnoc := hc.snoc false (mem_of_find?_eq_some he) (find?_some he)
        obtain ⟨hc', hlen⟩ := ih h hsnoc
        rw [length_append, length_singleton] at hlen
        exact ⟨hc', by omega⟩
      · cases h

theorem perm_evictLoop {cs : List ((H × BlockStatus) × Bool)} {p : ARCCachePolicy H}
    (hst : ∀ c ∈ cs, c.1 ∈ (if c.2 then p.t1 else p.t2).entries)
    (hnd : (cs.map fun c => c.1.1).Nodup) :
    (entries (arc p)).Perm (cs.map Prod.fst ++ entries (arc (ARCCachePolicy.evictLoop cs p))) := by
  induction cs generalizing p with
  | nil => exact .refl _
  | cons c cs ih =>
    obtain ⟨⟨h, b⟩, fromT1⟩ := c
    rw [map_cons, nodup_cons] at hnd
    have hmem := hst _ mem_cons_self
    -- the other candidates stay where they are
    have hkeep : ∀ c ∈ cs, ∀ d : Dict H BlockStatus, c.1 ∈ d.entries →
        c.1 ∈ (d.erase h).entries := by
      intro c hc d hd
      have hne : c.1.1 ≠ h := fun heq => hnd.1 (mem_map.mpr ⟨c, hc, heq⟩)
      exact mem_filter.mpr ⟨hd, by simpa using hne⟩
    cases fromT1 with
    | true =>
      have hperm : (entries (arc p)).Perm
          ((h, b) :: entries (arc { p with t1 := p.t1.erase h, b1 := p.b1.set h () })) :=
        (Dict.perm_erase (Dict.get?_of_mem hmem)).append_right _
      refine hperm.trans ((ih (fun c hc => ?_) hnd.2).cons _)
      have hc' := hst c (mem_cons_of_mem _ hc)
      cases hflag : c.2 with
      | true => exact hkeep c hc p.t1 (by rw [hflag] at hc'; exact hc')
      | false => rw [hflag] at hc'; exact hc'
    | false =>
      have hperm : (entries (arc p)).Perm
          ((h, b) :: entries (arc { p with t2 := p.t2.erase h, b2 := p.b2.set h () })) :=
        ((Dict.perm_erase (Dict.get?_of_mem hmem)).append_left _).trans perm_middle
      refine hperm.trans ((ih (fun c hc => ?_) hnd.2).cons _)
      have hc' := hst c (mem_cons_of_mem _ hc)
      cases hflag : c.2 with
      | true => rw [hflag] at hc'; exact hc'
      | false => exact hkeep c hc p.t2 (by rw [hflag] at hc'; exact hc')

theorem evict_arc {p p' : ARCCachePolicy H} {n : ℕ} {excluded : List H}
    {evicted : List (H × BlockStatus)} (h : p.evict n excluded = some (evicted, p')) :
    (entries (arc p)).Perm (evicted ++ entries (arc p')) ∧ evicted.length = n ∧
      ∀ e ∈ evicted, isCandidate excluded e = true := by
  rw [ARCCachePolicy.evict] at h
  split at h
  · rename_i hn
    cases h
    exact ⟨.refl _, hn.symm, fun e he => absurd he not_mem_nil⟩
  · obtain ⟨cs, hcs, h⟩ := bind_eq_some_iff.mp h
    cases h
    obtain ⟨hc, hlen⟩ := collect_collected hcs
      ⟨fun c hc => absurd hc not_mem_nil, fun c hc => absurd hc not_mem_nil,
        nodup_nil⟩
    refine ⟨perm_evictLoop hc.stored hc.nodup, ?_, ?_⟩
    · rw [length_map, hlen, length_nil, Nat.zero_add]
    · intro e he
      obtain ⟨c, hcmem, rfl⟩ := mem_map.mp he
      exact hc.candidate c hcmem

/-- **Eviction** takes `n` of the blocks; nobody reads them and none of them is excluded. -/
theorem evict_spec {p' : CachePolicy H} {n : ℕ} {excluded : List H}
    {evicted : List (H × BlockStatus)} (h : p.evict n excluded = some (evicted, p')) :
    p.entries.Perm (evicted ++ p'.entries) ∧ evicted.length = n ∧
      ∀ e ∈ evicted, e.2.refCnt = 0 ∧ e.1 ∉ excluded := by
  have hcand (e : H × BlockStatus) (he : isCandidate excluded e = true) :
      e.2.refCnt = 0 ∧ e.1 ∉ excluded := by
    simpa [isCandidate] using he
  cases p with
  | lru p =>
    obtain ⟨⟨ev, q⟩, hq, h⟩ := map_eq_some_iff.mp h
    cases h
    obtain ⟨hperm, hlen, hall⟩ := evict_lru hq
    exact ⟨hperm, hlen, fun e he => hcand e (hall e he)⟩
  | arc p =>
    obtain ⟨⟨ev, q⟩, hq, h⟩ := map_eq_some_iff.mp h
    cases h
    obtain ⟨hperm, hlen, hall⟩ := evict_arc hq
    exact ⟨hperm, hlen, fun e he => hcand e (hall e he)⟩

end CachePolicy

end Nvllm.Offload
