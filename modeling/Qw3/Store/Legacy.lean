import Qw3.Store.Selection

/-!
# The legacy store

`kvmem_store.cpp` without a repository: the blocks of a history that is never
reused, appended at the end and truncated from it.  The blocks from `blockCount`
on do not exist.
-/

namespace Qw3.Store

open Qw3.Repository (uint32Max)

/-- `KvMemStoreConfig`. -/
structure LegacyConfig extends StoreConfig where
  selection : SelectionConfig
  deriving DecidableEq, Repr

/-- The store without a repository. -/
structure Legacy where
  config : LegacyConfig
  blockCount : ℕ
  blocks : ℕ → KvMemBlock
  totalTokens : ℕ

namespace Legacy

/-- The constructed store. -/
def initial (c : LegacyConfig) : Legacy := ⟨c, 0, fun _ => {}, 0⟩

variable (s : Legacy)

/-- `blocks_[i]`, where it exists. -/
def block? (i : ℕ) : Option KvMemBlock := if i < s.blockCount then some (s.blocks i) else none

/-- One block changes; an identity out of range is ignored. -/
def modify (i : ℕ) (f : KvMemBlock → KvMemBlock) : Legacy :=
  if i < s.blockCount then { s with blocks := Function.update s.blocks i (f (s.blocks i)) } else s

/-! ## Appending and truncating -/

/-- `register_append` extends the trailing partial block: the store, and the
tokens that remain. -/
def extendLast (n : ℕ) : Legacy × ℕ :=
  let i := s.blockCount - 1
  let last := s.blocks i
  let take := min (s.config.blockTokens - last.nTokens) n
  if 0 < s.blockCount ∧ last.nTokens < s.config.blockTokens then
    ({ s with
        blocks := Function.update s.blocks i { last with nTokens := last.nTokens + take }
        totalTokens := s.totalTokens + take }, n - take)
  else (s, n)

/-- `register_append` pushes blocks until no token remains; each takes at least
one, so `fuel` blocks are enough for `fuel` tokens. -/
def pushBlocks : ℕ → ℕ → Legacy → Legacy
  | 0, _, s => s
  | fuel + 1, remaining, s =>
      if remaining = 0 then s
      else
        let b : KvMemBlock :=
          { origPosStart := s.totalTokens
            nTokens := min s.config.blockTokens remaining
            bakedPos := s.totalTokens }
        pushBlocks fuel (remaining - b.nTokens)
          { s with
            blockCount := s.blockCount + 1
            blocks := Function.update s.blocks s.blockCount b
            totalTokens := s.totalTokens + b.nTokens }

/-- `register_append(n)`. -/
def registerAppend (n : ℕ) : Except StoreError Legacy :=
  if uint32Max < s.totalTokens + n then throw .legacyOverflow
  else
    let extended := s.extendLast n
    pure (pushBlocks extended.2 extended.2 extended.1)

/-- `truncate_to` pops the blocks past the position, from the last on. -/
def popPast (position : ℕ) : ℕ → Legacy → List KvMemBlock × Legacy
  | 0, s => ([], s)
  | n + 1, s =>
      let b := s.blocks n
      if position ≤ b.origPosStart then
        let more := popPast position n
          { s with blockCount := n, totalTokens := s.totalTokens - b.nTokens }
        (b :: more.1, more.2)
      else ([], s)

/-- `truncate_to` shrinks the block the position lies in. -/
def shrinkLast (position : ℕ) : Legacy :=
  let i := s.blockCount - 1
  let last := s.blocks i
  let keep := position - last.origPosStart
  if 0 < s.blockCount ∧ position < last.origPosStart + last.nTokens then
    { s with
      blocks := Function.update s.blocks i { last with nTokens := keep }
      totalTokens := s.totalTokens - (last.nTokens - keep) }
  else s

/-- `truncate_to(position)`: the dropped blocks, and the store. -/
def truncateTo (position : ℕ) : List KvMemBlock × Legacy :=
  if s.totalTokens ≤ position then ([], s)
  else
    let popped := popPast position s.blockCount s
    (popped.1, popped.2.shrinkLast position)

/-! ## Selections, tiers and flags -/

/-- `set_selection(ids, force_raw_refresh)`. -/
def setSelection (ids : List ℕ) (force : Bool) : KvMemPlan × Legacy :=
  let packed := setSelectionImpl s.config.selection force s.blockCount ids s.blocks
  (packed.1, { s with blocks := packed.2 })

/-- `clear_working_set()`. -/
def clearWorkingSet : Legacy :=
  { s with blocks := fun i => { s.blocks i with inWorkingSet := false } }

/-- `set_block_tier(id, tier, cpu_slot, nvme_slot)`. -/
def setBlockTier (id : ℕ) (tier : KvTier) (cpuSlot nvmeSlot : ℤ) : Legacy :=
  s.modify id fun b => b.setTier s.config.optimizeStageOut tier cpuSlot nvmeSlot

/-- `set_block_cpu_copy(id, cpu_slot)`. -/
def setBlockCpuCopy (id : ℕ) (cpuSlot : ℤ) : Legacy :=
  s.modify id fun b => { b with cpuSlot := cpuSlot }

/-- `set_block_ssd_backing(id, nvme_slot, clean)`. -/
def setBlockSsdBacking (id : ℕ) (nvmeSlot : ℤ) (clean : Bool) : Legacy :=
  s.modify id fun b => { b with nvmeSlot := nvmeSlot, ssdClean := clean && decide (0 ≤ nvmeSlot) }

/-- `set_block_io_in_flight(id, in_flight)`. -/
def setBlockIoInFlight (id : ℕ) (inFlight : Bool) : Legacy :=
  s.modify id fun b => { b with inFlight := inFlight }

/-- `set_block_baked_pos(id, baked_pos)`. -/
def setBlockBakedPos (id : ℕ) (bakedPos : ℤ) : Legacy :=
  s.modify id fun b => { b with bakedPos := bakedPos }

/-- `record_block_rerope(id, baked_pos)`. -/
def recordBlockRerope (id : ℕ) (bakedPos : ℤ) : Legacy := s.modify id fun b => b.rerope bakedPos

end Legacy

/-! ## The machine -/

/-- A call of a legacy store. -/
inductive LegacyAction
  | registerAppend (n : ℕ)
  | truncateTo (position : ℕ)
  | setSelection (ids : List ℕ) (force : Bool)
  | clearWorkingSet
  | setBlockTier (id : ℕ) (tier : KvTier) (cpuSlot nvmeSlot : ℤ)
  | setBlockCpuCopy (id : ℕ) (cpuSlot : ℤ)
  | setBlockSsdBacking (id : ℕ) (nvmeSlot : ℤ) (clean : Bool)
  | setBlockIoInFlight (id : ℕ) (inFlight : Bool)
  | setBlockBakedPos (id : ℕ) (bakedPos : ℤ)
  | recordBlockRerope (id : ℕ) (bakedPos : ℤ)
  deriving DecidableEq, Repr

/-- A call takes effect; `none` where it throws. -/
def Legacy.step (s : Legacy) : LegacyAction → Option Legacy
  | .registerAppend n => (s.registerAppend n).toOption
  | .truncateTo position => some (s.truncateTo position).2
  | .setSelection ids force => some (s.setSelection ids force).2
  | .clearWorkingSet => some s.clearWorkingSet
  | .setBlockTier id tier cpuSlot nvmeSlot => some (s.setBlockTier id tier cpuSlot nvmeSlot)
  | .setBlockCpuCopy id cpuSlot => some (s.setBlockCpuCopy id cpuSlot)
  | .setBlockSsdBacking id nvmeSlot clean => some (s.setBlockSsdBacking id nvmeSlot clean)
  | .setBlockIoInFlight id inFlight => some (s.setBlockIoInFlight id inFlight)
  | .setBlockBakedPos id bakedPos => some (s.setBlockBakedPos id bakedPos)
  | .recordBlockRerope id bakedPos => some (s.recordBlockRerope id bakedPos)

/-- The machine of a legacy store.  With blocks of no size `register_append`
would not return. -/
def legacyMachine : Machine Legacy LegacyAction where
  init s := ∃ c : LegacyConfig, 0 < c.blockTokens ∧ s = .initial c
  step := Legacy.step

end Qw3.Store
