import Qw3.Store.Model

/-!
# The working set

`set_selection_impl`: the selected blocks are packed into the window in
chronological order; whatever else is resident is staged out.

* `remapOf` — the move of one block to its window position.
* `selectLoop`, `stagedOut` — the two passes over the blocks.
* `not_skip_and_refresh` — the consistency check of the source never fires.
-/

namespace Qw3.Store

/-- `KvMemStoreConfig`, as far as a selection depends on it. -/
structure SelectionConfig where
  optimizeStageIn : Bool
  immutableSourceK : Bool
  immutableRefreshRemaps : ℕ
  immutableRefreshAbsDeltaTokens : ℕ
  immutableMaxBakedPosition : ℕ
  deriving DecidableEq, Repr

/-- `KvMemRemap`. -/
structure KvMemRemap where
  blockId : ℕ
  nTokens : ℕ
  fromBase : ℤ
  toBase : ℤ
  workingKResident : Bool
  skip : Bool
  rawRefresh : Bool
  deriving DecidableEq, Repr

/-- `KvMemPlan`, without its counters. -/
structure KvMemPlan where
  stageOut : List ℕ
  stageIn : List ℕ
  remaps : List KvMemRemap
  totalWindowTokens : ℕ
  deriving DecidableEq, Repr

/-- `static_cast<int32_t>`. -/
def toInt32 (x : ℤ) : ℤ := x.bmod (2 ^ 32)

/-- One of the limits of immutable source K is reached. -/
def refreshLimit (c : SelectionConfig) (window : ℕ) (b : KvMemBlock) : Bool :=
  let delta := (b.bakedPos - window).natAbs
  let limit := c.immutableRefreshAbsDeltaTokens
  decide (0 < c.immutableRefreshRemaps ∧ c.immutableRefreshRemaps ≤ b.remapCount) ||
    decide (0 < limit ∧ (limit ≤ b.remapAbsDelta ∨ limit - min b.remapAbsDelta limit ≤ delta)) ||
    decide (0 < c.immutableMaxBakedPosition ∧
      (b.bakedPos < 0 ∨ (c.immutableMaxBakedPosition : ℤ) < b.bakedPos + b.nTokens))

/-- The remap of a selected block to a window position. -/
def remapOf (c : SelectionConfig) (force : Bool) (id window : ℕ) (b : KvMemBlock) : KvMemRemap :=
  let cold := decide (b.tier ≠ .gpu) || !c.optimizeStageIn
  let same := decide (b.bakedPos = window)
  { blockId := id
    nTokens := b.nTokens
    fromBase := toInt32 b.bakedPos
    toBase := toInt32 window
    workingKResident := !cold
    skip := same && (!c.immutableSourceK || !cold) && !force
    rawRefresh := c.immutableSourceK &&
      (((cold || !same) && (cold || refreshLimit c window b)) || force) }

/-- A remap never both keeps the working K and rebuilds it. -/
theorem not_skip_and_refresh (c : SelectionConfig) (force : Bool) (id window : ℕ) (b : KvMemBlock) :
    ¬ ((remapOf c force id window b).skip = true ∧
      (remapOf c force id window b).rawRefresh = true) := by
  unfold remapOf
  dsimp only
  cases force <;> cases c.immutableSourceK <;> cases c.optimizeStageIn <;>
    cases decide (b.tier ≠ .gpu) <;> cases decide (b.bakedPos = window) <;> simp

/-- The block after its remap. -/
def KvMemBlock.remapped (b : KvMemBlock) (rm : KvMemRemap) (window : ℕ) : KvMemBlock :=
  { b with
    inWorkingSet := true
    bakedPos := window
    remapCount := if rm.skip then b.remapCount else if rm.rawRefresh then 0 else b.remapCount + 1
    remapAbsDelta := if rm.skip then b.remapAbsDelta else if rm.rawRefresh then 0
      else b.remapAbsDelta + (b.bakedPos - window).natAbs }

/-- Whether the stage-out pass moves a block out of the GPU. -/
def leavesGpu (c : SelectionConfig) (selected : Bool) (b : KvMemBlock) : Bool :=
  decide (b.tier = .gpu) && (!selected || !c.optimizeStageIn)

/-- A block after the stage-out pass of a legacy store. -/
def KvMemBlock.stagedOut (c : SelectionConfig) (selected : Bool) (b : KvMemBlock) : KvMemBlock :=
  if leavesGpu c selected b then { b with inWorkingSet := false } else b

/-- The packing loop over the selected blocks. -/
def selectLoop (c : SelectionConfig) (force : Bool) :
    List ℕ → ℕ → (ℕ → KvMemBlock) → KvMemPlan × (ℕ → KvMemBlock)
  | [], window, blocks => (⟨[], [], [], window⟩, blocks)
  | id :: rest, window, blocks =>
      let b := blocks id
      let rm := remapOf c force id window b
      let more := selectLoop c force rest (window + b.nTokens)
        (Function.update blocks id (b.remapped rm window))
      ({ more.1 with
          stageIn := if b.inWorkingSet then more.1.stageIn else id :: more.1.stageIn
          remaps := rm :: more.1.remaps }, more.2)

/-- `set_selection_impl` of a legacy store with `n` blocks. -/
def setSelectionImpl (c : SelectionConfig) (force : Bool) (n : ℕ) (ids : List ℕ)
    (blocks : ℕ → KvMemBlock) : KvMemPlan × (ℕ → KvMemBlock) :=
  let selected := (List.range n).filter fun i => i ∈ ids
  let out := (List.range n).filter fun i => leavesGpu c (decide (i ∈ ids)) (blocks i)
  let packed := selectLoop c force selected 0 fun i => (blocks i).stagedOut c (decide (i ∈ ids))
  ({ packed.1 with stageOut := out }, packed.2)

end Qw3.Store
