import Mathlib.Data.List.Nodup
import Nvllm.Lib.Deal

/-! # Slots under context parallelism

The ranks of a context-parallel group share one block table. A block of the table stands for a
block on every rank, so it holds `block_size * world_size` tokens; they are dealt out to the ranks
in units of `interleave` tokens. `_compute_slot_mapping_kernel` gives each token its slot or the pad
id, `get_dcp_local_seq_lens` says how many tokens a rank holds, by two independent formulas.
-/

namespace Nvllm.Worker

open Deal List

/-- The constants of the kernel. Lengths and sizes are `int32` there and stay in range. -/
structure ContextParallel where
  blockSize : ℕ
  worldSize : ℕ
  interleave : ℕ
  blockSize_pos : 0 < blockSize
  worldSize_pos : 0 < worldSize
  interleave_dvd : interleave ∣ blockSize

/-- `PAD_SLOT_ID`. -/
def padSlotId : ℤ := -1

/-- `get_dcp_local_seq_lens` for one length and one rank. -/
def dcpLocalSeqLen (seqLen dcpSize rank interleave : ℤ) : ℤ :=
  let base := seqLen / interleave / dcpSize * interleave
  let remainder := seqLen - base * dcpSize
  base + min (max (remainder - rank * interleave) 0) interleave

/-- One row for each length, with one entry for each rank or for the given one. -/
def getDcpLocalSeqLens (seqLens : List ℤ) (dcpSize : ℕ) (dcpRank : Option ℕ) (interleave : ℕ) :
    List (List ℤ) :=
  let rankOffsets := match dcpRank with
    | none => range dcpSize
    | some rank => [rank]
  seqLens.map fun seqLen => rankOffsets.map fun (rank : ℕ) =>
    dcpLocalSeqLen seqLen dcpSize rank interleave

namespace ContextParallel

variable (c : ContextParallel)

def virtualBlockSize : ℕ := c.blockSize * c.worldSize

/-- The body of the kernel for one token. `none` is a load beyond the row of the request. -/
def slotId (rank : ℕ) (blockTable : List ℕ) (pos : ℕ) : Option ℤ := do
  let blockIndex := pos / c.virtualBlockSize
  let blockNumber ← blockTable[blockIndex]?
  let virtualBlockOffset := pos - blockIndex * c.virtualBlockSize
  let isLocal := virtualBlockOffset / c.interleave % c.worldSize = rank
  let localBlockOffset :=
    virtualBlockOffset / (c.worldSize * c.interleave) * c.interleave +
      virtualBlockOffset % c.interleave
  return if isLocal then (blockNumber * c.blockSize + localBlockOffset : ℕ) else padSlotId

/-- The program of one request. -/
def slotMapping (rank : ℕ) (blockTable positions : List ℕ) : Option (List ℤ) :=
  positions.mapM (c.slotId rank blockTable)

/-- The index of a slot on its rank: `block_size` for each block of the row before that of the
slot, and the offset in the block. -/
def localIndex (blockTable : List ℕ) (slot : ℤ) : ℕ :=
  c.blockSize * blockTable.idxOf (slot.toNat / c.blockSize) + slot.toNat % c.blockSize

/-- Slots and lengths agree for a request of `seqLen` tokens. -/
structure Agrees (blockTable : List ℕ) (seqLen : ℕ) (lens : ℕ → ℕ) : Prop where
  oneRank : ∀ pos < seqLen, ∃! rank, rank < c.worldSize ∧
    ∃ slot, c.slotId rank blockTable pos = some slot ∧ slot ≠ padSlotId
  inOrder : ∀ rank < c.worldSize, ∃ slots,
    c.slotMapping rank blockTable (range seqLen) = some slots ∧
      (slots.filter (· ≠ padSlotId)).map (c.localIndex blockTable) = range (lens rank) ∧
      (slots.filter (· ≠ padSlotId)).Nodup
  returned : getDcpLocalSeqLens [seqLen] c.worldSize none c.interleave =
      [(range c.worldSize).map fun rank => (lens rank : ℤ)] ∧
    ∀ rank < c.worldSize,
      getDcpLocalSeqLens [seqLen] c.worldSize (some rank) c.interleave = [[(lens rank : ℤ)]]
  total : ∑ rank ∈ Finset.range c.worldSize, lens rank = seqLen

variable {c} {pos : ℕ} {blockTable : List ℕ}

/-- **One token**: it has a slot on its own rank only, and the slot has the number of the token. -/
theorem slotId_spec (rank : ℕ) (hnodup : blockTable.Nodup)
    (h : pos < blockTable.length * c.virtualBlockSize) :
    ∃ slot, c.slotId rank blockTable pos = some slot ∧
      (slot ≠ padSlotId ↔ holder c.worldSize c.interleave pos = rank) ∧
      (holder c.worldSize c.interleave pos = rank →
        c.localIndex blockTable slot = number c.worldSize c.interleave pos) := by
  obtain ⟨m, hm⟩ := c.interleave_dvd
  have hpos := c.blockSize_pos
  have hsize : c.virtualBlockSize = c.interleave * m * c.worldSize := by rw [virtualBlockSize, hm]
  have hget := getElem?_eq_getElem (Nat.div_lt_of_lt_mul (by rwa [Nat.mul_comm]) :
    pos / c.virtualBlockSize < blockTable.length)
  have hoffset : pos - pos / c.virtualBlockSize * c.virtualBlockSize =
      pos % c.virtualBlockSize := by
    have := Nat.div_add_mod' pos c.virtualBlockSize
    omega
  have hholder : pos % c.virtualBlockSize / c.interleave % c.worldSize =
      holder c.worldSize c.interleave pos := by rw [hsize, holder_mod]
  have hlt : number c.worldSize c.interleave (pos % c.virtualBlockSize) < c.blockSize := by
    rw [hsize, hm]
    rw [hm] at hpos
    exact number_mod_lt (Nat.pos_of_mul_pos_right hpos) (Nat.pos_of_mul_pos_left hpos) pos
  have hindex := number_div_add_mod (W := c.worldSize) (I := c.interleave) (m := m) pos
  rw [← hsize, ← hm] at hindex
  simp only [slotId, hget, hoffset, Option.bind_eq_bind, Option.bind_some, Option.pure_def]
  rw [← number, hholder]
  refine ⟨_, rfl, ?_, fun hr => ?_⟩
  · split_ifs with hr
    · simp only [hr, iff_true, padSlotId]
      omega
    · simp [hr]
  · rw [if_pos hr, localIndex, Int.toNat_natCast, Nat.mul_comm _ c.blockSize,
      Nat.mul_add_div hpos, Nat.div_eq_of_lt hlt, Nat.add_zero, hnodup.idxOf_getElem,
      Nat.mul_add_mod, Nat.mod_eq_of_lt hlt, hindex]

/-- The slots of a request on one rank. -/
theorem slotMapping_spec (rank : ℕ) (positions : List ℕ) (hnodup : blockTable.Nodup)
    (h : ∀ pos ∈ positions, pos < blockTable.length * c.virtualBlockSize) :
    ∃ slots, c.slotMapping rank blockTable positions = some slots ∧
      (slots.filter (· ≠ padSlotId)).map (c.localIndex blockTable) =
        (positions.filter (holder c.worldSize c.interleave · = rank)).map
          (number c.worldSize c.interleave) := by
  induction positions with
  | nil => exact ⟨[], rfl, rfl⟩
  | cons pos positions ih =>
    obtain ⟨slot, hslot, hpad, hindex⟩ := slotId_spec rank hnodup (h pos mem_cons_self)
    obtain ⟨slots, hslots, hmap⟩ := ih fun p hp => h p (mem_cons_of_mem _ hp)
    rw [slotMapping] at hslots
    refine ⟨slot :: slots, by simp [slotMapping, mapM_cons, hslot, hslots], ?_⟩
    by_cases hr : holder c.worldSize c.interleave pos = rank
    · rw [filter_cons_of_pos (by simpa using hpad.mpr hr), filter_cons_of_pos (by simpa using hr),
        map_cons, map_cons, hmap, hindex hr]
    · rw [filter_cons_of_neg (by simpa using fun h => hr (hpad.mp h)),
        filter_cons_of_neg (by simpa using hr), hmap]

/-- **Slot mapping and local lengths agree** for every request whose blocks are distinct. -/
theorem slots_agree_with_lens (c : ContextParallel) {blockTable : List ℕ} {seqLen : ℕ}
    (hnodup : blockTable.Nodup) (h : seqLen ≤ blockTable.length * c.virtualBlockSize) :
    c.Agrees blockTable seqLen (share c.worldSize c.interleave seqLen) := by
  have hW := c.worldSize_pos
  have hI := Nat.pos_of_dvd_of_pos c.interleave_dvd c.blockSize_pos
  refine ⟨fun pos hpos => ?_, fun rank hrank => ?_, ?_, sum_share hW hI seqLen⟩
  · refine ⟨holder c.worldSize c.interleave pos, ⟨Nat.mod_lt _ hW, ?_⟩, ?_⟩
    · obtain ⟨slot, hslot, hpad, -⟩ := slotId_spec _ hnodup (hpos.trans_le h)
      exact ⟨slot, hslot, hpad.mpr rfl⟩
    · rintro rank ⟨-, slot, hslot, hne⟩
      obtain ⟨slot', hslot', hpad, -⟩ := slotId_spec rank hnodup (hpos.trans_le h)
      cases hslot.symm.trans hslot'
      exact (hpad.mp hne).symm
  · obtain ⟨slots, hslots, hmap⟩ := slotMapping_spec rank (range seqLen) hnodup
      fun pos hpos => (mem_range.mp hpos).trans_le h
    rw [map_number hW hI seqLen hrank] at hmap
    exact ⟨slots, hslots, hmap, .of_map (c.localIndex blockTable) (hmap ▸ nodup_range)⟩
  · simp [getDcpLocalSeqLens, dcpLocalSeqLen, share_eq_clip hW hI]

/-- Seven tokens on two ranks, in blocks of two and units of two, the last of which is not full. -/
theorem seven_tokens_on_two_ranks :
    (⟨2, 2, 2, by decide, by decide, by decide⟩ : ContextParallel).Agrees [5, 3] 7
      (share 2 2 7) :=
  slots_agree_with_lens _ (by decide) (by decide)

end ContextParallel

end Nvllm.Worker
