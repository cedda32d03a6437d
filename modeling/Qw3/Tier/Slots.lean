import Mathlib.Tactic.NormNum
import Qw3.Lib.SlotPool

/-!
# The slots of the host tiers

`PinnedKvTier` keeps blocks in page-locked host memory, `NvmeKvTier` in a file.
Both hand out a fixed number of slots, remember the owner of each and evict the
least recently used block when none is free.  The file tier also numbers its
placements, so that a release that comes late can be told from one of the
placement that is there now.

* `PinnedKvTier` — the tier under its `LegacyLru` policy.
* `NvmeKvTier` — the tier, direct-mapped or not.
* `NvmeKvTier.Moves` — what one step of it can do; `NvmeKvTier.step_moves`.
-/

namespace Qw3.Tier

/-- `static_cast<int32_t>` of an unsigned number. -/
def toInt32 (n : ℕ) : ℤ := (n : ℤ).bmod (2 ^ 32)

theorem toInt32_of_lt {n : ℕ} (h : n < 2 ^ 31) : toInt32 n = n := by
  unfold toInt32
  rw [Int.bmod_def]
  omega

/-- `slot_count_` of a tier of `total` bytes. -/
def slotCountOf (total slot : ℕ) : ℕ :=
  if 0 < slot ∧ slot ≤ total then total / slot % 2 ^ 32 else 0

/-- The free list with all slots: the back of the vector, slot 0, is first. -/
def freshSlots (n : ℕ) : List ℤ := (List.range n).map toInt32

/-- `PinnedSlotPlacement` and `NvmeSlotPlacement`. -/
structure SlotPlacement where
  slot : ℤ := -1
  evictedBlock : ℤ := -1
  deriving DecidableEq, Repr

/-! ## The pinned tier -/

/-- `PinnedKvTier`, without the heat of the other policy. -/
structure PinnedKvTier where
  slotCount : ℕ
  pool : SlotPool ℕ ℤ

namespace PinnedKvTier

/-- The constructed tier. -/
def initial (totalBytes slotBytes : ℕ) : PinnedKvTier :=
  let n := slotCountOf totalBytes slotBytes
  ⟨n, .initial (freshSlots n)⟩

variable (t : PinnedKvTier) (b : ℕ)

/-- `touch(block_id)`. -/
def touch : PinnedKvTier := { t with pool := t.pool.touch b }

/-- `place_block(block_id)`. -/
def placeBlock : SlotPlacement × PinnedKvTier :=
  match t.pool.owner b with
  | some slot => ({ slot }, t)
  | none =>
      match t.pool.take b with
      | none => ({}, t)
      | some (slot, pool) => ({ slot }, { t with pool })

/-- `replace_lru(block_id)`. -/
def replaceLru : SlotPlacement × PinnedKvTier :=
  match t.pool.recent with
  | [] => ({}, t)
  | victim :: _ =>
      match t.pool.owner victim with
      | none => ({}, { t with pool := t.pool.eraseRecent victim })
      | some slot =>
          ({ slot, evictedBlock := toInt32 victim },
            { t with pool := t.pool.replace victim b slot })

/-- `place_block_evicting(block_id)`. -/
def placeBlockEvicting : SlotPlacement × PinnedKvTier :=
  match t.pool.owner b with
  | some slot => ({ slot }, t.touch b)
  | none => if t.pool.free ≠ [] then t.placeBlock b else t.replaceLru b

/-- `place_block_replacing(block_id)`. -/
def placeBlockReplacing : SlotPlacement × PinnedKvTier :=
  match t.pool.owner b with
  | some slot => ({ slot }, t.touch b)
  | none => t.replaceLru b

/-- `record_selected(block_id)`. -/
def recordSelected : PinnedKvTier := if (t.pool.owner b).isSome then t.touch b else t

/-- `release_block(block_id)`; `forget_block` does no more to the slots. -/
def releaseBlock : PinnedKvTier := { t with pool := t.pool.release b }

/-- `clear()`. -/
def clear : PinnedKvTier := { t with pool := .initial (freshSlots t.slotCount) }

end PinnedKvTier

/-! ## The file tier -/

/-- `NvmeKvTierConfig`, as far as the slots depend on it. -/
structure NvmeKvTierConfig where
  dir : String
  totalBytes : ℕ
  slotBytes : ℕ
  directMapped : Bool := false
  deriving DecidableEq, Repr

/-- A tier that has its file, hands out slots from a free list and numbers them
within `int32_t`. -/
structure NvmeKvTierConfig.Slotted (c : NvmeKvTierConfig) : Prop where
  indirect : c.directMapped = false
  opened : c.dir ≠ ""
  count_le : slotCountOf c.totalBytes c.slotBytes ≤ 2 ^ 31

/-- `NvmeAllocation`. -/
structure NvmeAllocation where
  blockId : ℕ
  slot : ℤ := -1
  generation : ℕ := 0
  deriving DecidableEq, Repr

/-- The metadata of `NvmeKvTier`. -/
structure NvmeKvTier where
  directMapped : Bool
  slotCount : ℕ
  pool : SlotPool ℕ ℤ
  slotGenerations : ℤ → ℕ
  allocationSequence : ℕ

namespace NvmeKvTier

/-- The constructed tier.  Without a directory there is no file, and the
constructor returns before it fills the free list. -/
def initial (c : NvmeKvTierConfig) : NvmeKvTier :=
  let n := slotCountOf c.totalBytes c.slotBytes
  ⟨c.directMapped, n,
    .initial (if n = 0 ∨ c.dir = "" ∨ c.directMapped then [] else freshSlots n), fun _ => 0, 0⟩

variable (t : NvmeKvTier) (b : ℕ)

/-- The tier with other slots. -/
def withPool (pool : SlotPool ℕ ℤ) : NvmeKvTier := { t with pool }

/-- A new placement in `slot`: it is numbered by `++allocation_sequence_`. -/
def placed (pool : SlotPool ℕ ℤ) (slot : ℤ) : NvmeKvTier :=
  { t with
    pool
    slotGenerations := Function.update t.slotGenerations slot (t.allocationSequence + 1)
    allocationSequence := t.allocationSequence + 1 }

/-- `touch_locked(block_id)`. -/
def touchLocked : NvmeKvTier := if t.directMapped then t else t.withPool (t.pool.touch b)

/-- `place_block_locked(block_id)`, the body of `place_block`. -/
def placeBlock : SlotPlacement × NvmeKvTier :=
  if t.directMapped then
    if t.slotCount ≤ b then ({}, t)
    else
      ({ slot := toInt32 b },
        t.withPool { t.pool with owner := Function.update t.pool.owner b (some (toInt32 b)) })
  else
    match t.pool.owner b with
    | some slot => ({ slot }, t.touchLocked b)
    | none =>
        match t.pool.take b with
        | none => ({}, t)
        | some (slot, pool) => ({ slot }, t.placed pool slot)

/-- `place_block_evicting(block_id)`. -/
def placeBlockEvicting : SlotPlacement × NvmeKvTier :=
  let out := t.placeBlock b
  if 0 ≤ out.1.slot ∨ out.2.pool.free ≠ [] then out
  else
    match out.2.pool.recent with
    | [] => out
    | victim :: _ =>
        match out.2.pool.owner victim with
        | none => (out.1, out.2.withPool (out.2.pool.eraseRecent victim))
        | some slot =>
            ({ slot, evictedBlock := toInt32 victim },
              out.2.placed (out.2.pool.replace victim b slot) slot)

/-- A block gives up its slot.  A direct-mapped tier has no free list. -/
def unmapped : NvmeKvTier :=
  if t.directMapped then
    t.withPool { t.pool with owner := Function.update t.pool.owner b none }
  else t.withPool (t.pool.release b)

/-- `release_block(block_id)`. -/
def releaseBlock : NvmeKvTier := if (t.pool.owner b).isSome then t.unmapped b else t

/-- `allocation(block_id)`. -/
def allocation : NvmeAllocation :=
  match t.pool.owner b with
  | none => { blockId := b }
  | some slot => ⟨b, slot, t.slotGenerations slot⟩

/-- `try_allocation(block_id, out)`; nothing is written where the lock is taken. -/
def tryAllocation (locked : Bool) : Option NvmeAllocation :=
  if locked then some (t.allocation b) else none

/-- `try_release_allocation(a)`: whether it got the lock, and the tier. -/
def tryReleaseAllocation (a : NvmeAllocation) (locked : Bool) : Bool × NvmeKvTier :=
  if !locked then (false, t)
  else if t.directMapped ∨ a.slot < 0 then (true, t)
  else if t.pool.owner a.blockId ≠ some a.slot ∨ t.slotGenerations a.slot ≠ a.generation then
    (true, t)
  else (true, t.unmapped a.blockId)

/-- `clear()`.  It leaves the generations and their sequence. -/
def clear : NvmeKvTier :=
  t.withPool (.initial (if t.directMapped then [] else freshSlots t.slotCount))

/-! ### Its steps -/

/-- The steps under the lock of the metadata.  `write_block` places, writes and
touches, `read_block` looks up, reads and touches: each is two steps, and the
second one is a `touch`. -/
inductive Action
  | placeBlock (b : ℕ)
  | placeBlockEvicting (b : ℕ)
  | releaseBlock (b : ℕ)
  | writeBlock (b : ℕ)
  | readBlock (b : ℕ)
  | touch (b : ℕ)
  | clear
  | allocation (b : ℕ)
  | tryAllocation (b : ℕ) (locked : Bool)
  | tryReleaseAllocation (a : NvmeAllocation) (locked : Bool)
  deriving DecidableEq, Repr

/-- The tier after a step. -/
def step : Action → NvmeKvTier
  | .placeBlock b => (t.placeBlock b).2
  | .placeBlockEvicting b => (t.placeBlockEvicting b).2
  | .releaseBlock b => t.releaseBlock b
  | .writeBlock b => (t.placeBlock b).2
  | .touch b => t.touchLocked b
  | .clear => t.clear
  | .tryReleaseAllocation a locked => (t.tryReleaseAllocation a locked).2
  | .readBlock _ | .allocation _ | .tryAllocation _ _ => t

/-- What a step other than `touch` can do where the tier is not direct-mapped. -/
inductive Moves (t : NvmeKvTier) : NvmeKvTier → Prop
  | refl : Moves t t
  | touched (b : ℕ) (h : t.pool.owner b ≠ none) : Moves t (t.withPool (t.pool.touch b))
  | taken (b : ℕ) (slot : ℤ) (pool : SlotPool ℕ ℤ) (hb : t.pool.owner b = none)
      (h : t.pool.take b = some (slot, pool)) : Moves t (t.placed pool slot)
  | replaced (victim b : ℕ) (slot : ℤ) (hb : t.pool.owner b = none)
      (h : t.pool.owner victim = some slot) :
      Moves t (t.placed (t.pool.replace victim b slot) slot)
  | dropped (victim : ℕ) (rest : List ℕ) (h : t.pool.recent = victim :: rest)
      (hv : t.pool.owner victim = none) : Moves t (t.withPool (t.pool.eraseRecent victim))
  | released (b : ℕ) : Moves t (t.withPool (t.pool.release b))
  | cleared : Moves t (t.withPool (.initial (freshSlots t.slotCount)))

section Steps

variable {t : NvmeKvTier} (hd : t.directMapped = false)
include hd

theorem touchLocked_eq (b : ℕ) : t.touchLocked b = t.withPool (t.pool.touch b) := by
  simp [touchLocked, hd]

theorem unmapped_eq (b : ℕ) : t.unmapped b = t.withPool (t.pool.release b) := by
  simp [unmapped, hd]

theorem placeBlock_of_some {b : ℕ} {slot : ℤ} (hb : t.pool.owner b = some slot) :
    t.placeBlock b = ({ slot }, t.withPool (t.pool.touch b)) := by
  simp [placeBlock, hd, hb, touchLocked_eq hd]

theorem placeBlock_of_take {b : ℕ} {slot : ℤ} {pool : SlotPool ℕ ℤ} (hb : t.pool.owner b = none)
    (h : t.pool.take b = some (slot, pool)) :
    t.placeBlock b = ({ slot }, t.placed pool slot) := by
  simp [placeBlock, hd, hb, h]

theorem placeBlock_of_full {b : ℕ} (hb : t.pool.owner b = none) (h : t.pool.take b = none) :
    t.placeBlock b = ({}, t) := by
  simp [placeBlock, hd, hb, h]

theorem placeBlock_moves (b : ℕ) : Moves t (t.placeBlock b).2 := by
  cases hb : t.pool.owner b with
  | some slot =>
      rw [placeBlock_of_some hd hb]
      exact .touched b (by simp [hb])
  | none =>
      cases ht : t.pool.take b with
      | none =>
          rw [placeBlock_of_full hd hb ht]
          exact .refl
      | some taken =>
          rw [placeBlock_of_take hd hb ht]
          exact .taken b taken.1 taken.2 hb ht

end Steps

/-! ### The partition -/

/-- Slots are numbered apart as long as their count fits in 32 bits. -/
theorem freshSlots_nodup {n : ℕ} (h : n ≤ 2 ^ 32) : (freshSlots n).Nodup := by
  apply List.Nodup.map_on _ List.nodup_range
  intro i hi j hj heq
  have hi := List.mem_range.mp hi
  have hj := List.mem_range.mp hj
  unfold toInt32 at heq
  rw [Int.bmod_def, Int.bmod_def] at heq
  omega

theorem mem_freshSlots {n : ℕ} (h : n ≤ 2 ^ 31) {slot : ℤ} :
    slot ∈ freshSlots n ↔ 0 ≤ slot ∧ slot < n := by
  unfold freshSlots
  rw [List.mem_map]
  constructor
  · rintro ⟨i, hi, rfl⟩
    have hi := List.mem_range.mp hi
    rw [toInt32_of_lt (by omega)]
    omega
  · rintro ⟨hnonneg, hlt⟩
    refine ⟨slot.toNat, List.mem_range.mpr (by omega), ?_⟩
    rw [toInt32_of_lt (by omega), Int.toNat_of_nonneg hnonneg]

/-- A tier with a free list whose slots are numbers of an `int32_t`: each slot is
free or owned, once. -/
structure Slotted (t : NvmeKvTier) : Prop where
  indirect : t.directMapped = false
  count_le : t.slotCount ≤ 2 ^ 31
  partition : t.pool.Partition (freshSlots t.slotCount)

/-- Where a slot is found no block is evicted. -/
theorem placeBlockEvicting_of_slot {t : NvmeKvTier} {b : ℕ}
    (hslot : 0 ≤ (t.placeBlock b).1.slot) : t.placeBlockEvicting b = t.placeBlock b := by
  show (if _ then _ else _) = _
  rw [if_pos (.inl hslot)]

/-- A tier that is not direct-mapped and whose slots, those that are owned and the
one that is taken next, are indices of its generations. -/
structure Indexed (t : NvmeKvTier) : Prop where
  indirect : t.directMapped = false
  owned : ∀ {b slot}, t.pool.owner b = some slot → 0 ≤ slot
  next : ∀ {slot}, t.pool.free.head? = some slot → 0 ≤ slot

section Indexed

variable {t u : NvmeKvTier} (h : Indexed t)
include h

theorem Indexed.placeBlockEvicting_of_some {b : ℕ} {slot : ℤ} (hb : t.pool.owner b = some slot) :
    t.placeBlockEvicting b = ({ slot }, t.withPool (t.pool.touch b)) := by
  have hplace := placeBlock_of_some h.indirect hb
  rw [placeBlockEvicting_of_slot (by rw [hplace]; exact h.owned hb), hplace]

theorem Indexed.placeBlockEvicting_of_take {b : ℕ} {slot : ℤ} {pool : SlotPool ℕ ℤ}
    (hb : t.pool.owner b = none) (ht : t.pool.take b = some (slot, pool)) :
    t.placeBlockEvicting b = ({ slot }, t.placed pool slot) := by
  have hplace := placeBlock_of_take h.indirect hb ht
  have hslot : t.pool.free.head? = some slot := by
    rw [(SlotPool.take_eq_some ht).1]
    rfl
  rw [placeBlockEvicting_of_slot (by rw [hplace]; exact h.next hslot), hplace]

/-- No slot is free: the head of the recency list is replaced. -/
theorem Indexed.placeBlockEvicting_of_full {b : ℕ} (hb : t.pool.owner b = none)
    (hfree : t.pool.free = []) :
    t.placeBlockEvicting b =
      match t.pool.recent with
      | [] => ({}, t)
      | victim :: _ =>
          match t.pool.owner victim with
          | none => ({}, t.withPool (t.pool.eraseRecent victim))
          | some slot =>
              ({ slot, evictedBlock := toInt32 victim },
                t.placed (t.pool.replace victim b slot) slot) := by
  unfold placeBlockEvicting
  simp only [placeBlock_of_full h.indirect hb (SlotPool.take_eq_none.mpr hfree), hfree]
  rw [if_neg (by simp)]

theorem Indexed.placeBlockEvicting_moves (b : ℕ) : Moves t (t.placeBlockEvicting b).2 := by
  cases hb : t.pool.owner b with
  | some slot =>
      rw [h.placeBlockEvicting_of_some hb]
      exact .touched b (by simp [hb])
  | none =>
      cases ht : t.pool.take b with
      | some taken =>
          rw [h.placeBlockEvicting_of_take hb ht]
          exact .taken b taken.1 taken.2 hb ht
      | none =>
          rw [h.placeBlockEvicting_of_full hb (SlotPool.take_eq_none.mp ht)]
          split
          · exact .refl
          · next victim rest hrecent =>
              split
              · next hv => exact .dropped victim rest hrecent hv
              · next slot hv => exact .replaced victim b slot hb hv

omit h in
theorem tryReleaseAllocation_moves (hd : t.directMapped = false) (a : NvmeAllocation)
    (locked : Bool) : Moves t (t.tryReleaseAllocation a locked).2 := by
  unfold tryReleaseAllocation
  split_ifs
  · exact .refl
  · exact .refl
  · exact .refl
  · rw [unmapped_eq hd]
    exact .released a.blockId

omit h in
theorem Moves.slotCount_eq (hm : Moves t u) : u.slotCount = t.slotCount := by
  cases hm <;> rfl

omit h in
/-- Every step is a touch or one of the moves; where it may evict, the slots are
looked at. -/
theorem step_moves (hd : t.directMapped = false) (a : Action)
    (hevict : ∀ b, a = .placeBlockEvicting b → Indexed t) :
    (∃ b, a = .touch b ∧ t.step a = t.withPool (t.pool.touch b)) ∨ Moves t (t.step a) := by
  cases a with
  | touch b => exact .inl ⟨b, rfl, touchLocked_eq hd b⟩
  | placeBlock b => exact .inr (placeBlock_moves hd b)
  | writeBlock b => exact .inr (placeBlock_moves hd b)
  | placeBlockEvicting b => exact .inr ((hevict b rfl).placeBlockEvicting_moves b)
  | tryReleaseAllocation a locked => exact .inr (tryReleaseAllocation_moves hd a locked)
  | readBlock b => exact .inr .refl
  | allocation b => exact .inr .refl
  | tryAllocation b locked => exact .inr .refl
  | releaseBlock b =>
      right
      show Moves t (if _ then _ else _)
      split_ifs
      · rw [unmapped_eq hd]
        exact .released b
      · exact .refl
  | clear =>
      right
      show Moves t (t.withPool (.initial (if t.directMapped then [] else _)))
      rw [hd]
      exact .cleared

theorem Indexed.step_moves (a : Action) :
    (∃ b, a = .touch b ∧ t.step a = t.withPool (t.pool.touch b)) ∨ Moves t (t.step a) :=
  NvmeKvTier.step_moves h.indirect a fun _ _ => h

end Indexed

section Slotted

variable {t u : NvmeKvTier} (h : Slotted t)
include h

theorem Slotted.owned {b : ℕ} {slot : ℤ} (hb : t.pool.owner b = some slot) :
    0 ≤ slot ∧ slot < t.slotCount :=
  (mem_freshSlots h.count_le).mp (h.partition.owned_mem hb)

theorem Slotted.free {slot : ℤ} (hslot : slot ∈ t.pool.free) : 0 ≤ slot ∧ slot < t.slotCount :=
  (mem_freshSlots h.count_le).mp ((h.partition.mem_iff slot).mpr (.inl hslot))

theorem Slotted.indexed : Indexed t where
  indirect := h.indirect
  owned hb := (h.owned hb).1
  next hslot := (h.free (List.mem_of_head? hslot)).1

theorem Slotted.moves (hm : Moves t u) : Slotted u := by
  have hp := h.partition
  cases hm with
  | refl => exact h
  | touched b _ => exact ⟨h.indirect, h.count_le, hp.touch b⟩
  | taken b slot pool hb ht => exact ⟨h.indirect, h.count_le, hp.take hb ht⟩
  | replaced victim b slot hb hv => exact ⟨h.indirect, h.count_le, hp.replace hb hv⟩
  | dropped victim rest hrecent hv => exact ⟨h.indirect, h.count_le, hp.congr rfl rfl⟩
  | released b => exact ⟨h.indirect, h.count_le, hp.release b⟩
  | cleared => exact ⟨h.indirect, h.count_le, .initial (freshSlots_nodup (h.count_le.trans (by norm_num)))⟩

theorem Slotted.slotCount_step (a : Action) : (t.step a).slotCount = t.slotCount := by
  rcases h.indexed.step_moves a with ⟨b, -, hstep⟩ | hm
  · rw [hstep]
    rfl
  · exact hm.slotCount_eq

theorem Slotted.step (a : Action) : Slotted (t.step a) := by
  rcases h.indexed.step_moves a with ⟨b, -, hstep⟩ | hm
  · rw [hstep]
    exact ⟨h.indirect, h.count_le, h.partition.touch b⟩
  · exact h.moves hm

end Slotted

theorem Slotted.initial {c : NvmeKvTierConfig} (h : c.Slotted) : Slotted (initial c) := by
  constructor
  · exact h.indirect
  · exact h.count_le
  · show SlotPool.Partition (freshSlots (slotCountOf c.totalBytes c.slotBytes))
      (.initial (if _ then _ else _))
    split_ifs with hempty
    · -- Without slots both lists are empty.
      rcases hempty with hempty | hempty | hempty
      · rw [hempty]
        exact .initial List.nodup_nil
      · exact absurd hempty h.opened
      · exact absurd hempty (by simp [h.indirect])
    · exact .initial (freshSlots_nodup (h.count_le.trans (by norm_num)))

end NvmeKvTier

end Qw3.Tier
