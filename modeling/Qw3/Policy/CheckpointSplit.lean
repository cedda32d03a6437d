import Mathlib.Data.UInt

/-!
# The checkpoint split of a warm prompt

`kvmem_prefix_reuse_policy.hpp`: where the prefill of a prompt stops to take the
checkpoint that the next turn starts from.

* `branchSafePromptCheckpointSplit`, `querySafePromptCheckpointSplit`,
  `checkpointOutsideQuery` — the source's; `branchSafeTarget` is the split before
  it is clamped to the warm resume point.
* `querySafeSplit` — **the split stays usable**.
-/

namespace Qw3.Policy

/-- `kShortTailGuard`. -/
def shortTailGuard : UInt64 := 4

/-- The block size that is meant. -/
def effectiveBlock (blockTokens : UInt32) : UInt64 :=
  (if blockTokens = 0 then 1 else blockTokens).toUInt64

/-- The distance of `p` to the next multiple of the block size. -/
def blockGap (p bt : UInt64) : UInt64 := (bt - p % bt) % bt

/-- The split before it is clamped: one block before the last boundary, or a few
tokens before the end of a short prompt. -/
def branchSafeTarget (promptEnd bt : UInt64) : UInt64 :=
  if promptEnd > bt then
    let lastBoundary := (promptEnd - 1) / bt * bt
    if lastBoundary ≥ bt then lastBoundary - bt else 0
  else if promptEnd > shortTailGuard then promptEnd - shortTailGuard
  else 0

/-- `kvmem_branch_safe_prompt_checkpoint_split`. -/
def branchSafePromptCheckpointSplit (promptEnd prefillBase : UInt64) (blockTokens : UInt32) :
    UInt64 :=
  if promptEnd ≤ prefillBase then 0
  else
    let bt := effectiveBlock blockTokens
    let split := branchSafeTarget promptEnd bt
    if split < prefillBase then
      let gap := blockGap prefillBase bt
      if gap < promptEnd - prefillBase then prefillBase + gap else 0
    else if split ≥ promptEnd then 0
    else split

/-- `kvmem_query_safe_prompt_checkpoint_split`. -/
def querySafePromptCheckpointSplit (promptEnd prefillBase : UInt64) (blockTokens : UInt32)
    (queryBegin queryEnd : UInt64) : UInt64 :=
  let split := branchSafePromptCheckpointSplit promptEnd prefillBase blockTokens
  if queryEnd ≤ queryBegin then split
  else
    let bt := effectiveBlock blockTokens
    let replayBoundary := queryBegin / bt * bt
    if split > replayBoundary ∧ split < queryEnd ∧ replayBoundary ≥ prefillBase ∧
        replayBoundary < promptEnd then
      let gap := blockGap queryEnd bt
      if replayBoundary = 0 ∧ queryEnd < promptEnd ∧ gap < promptEnd - queryEnd ∧
          queryEnd + gap ≥ prefillBase then queryEnd + gap
      else replayBoundary
    else split

/-- `kvmem_checkpoint_outside_query`. -/
def checkpointOutsideQuery (position queryBegin queryEnd : UInt64) (blockTokens : UInt32) : Bool :=
  let bt := effectiveBlock blockTokens
  queryEnd ≤ queryBegin ∨ position ≤ queryBegin / bt * bt ∨ position ≥ queryEnd

variable {p promptEnd prefillBase queryBegin queryEnd : UInt64} {blockTokens : UInt32}

/-! ## The arithmetic -/

theorem effectiveBlock_toNat (blockTokens : UInt32) :
    (effectiveBlock blockTokens).toNat = max blockTokens.toNat 1 := by
  unfold effectiveBlock
  by_cases h : blockTokens = 0
  · subst h
    rfl
  · have hpos : blockTokens.toNat ≠ 0 := fun h0 => h (UInt32.toNat_inj.mp h0)
    rw [if_neg h, UInt32.toNat_toUInt64]
    omega

/-- A position that is advanced by less than what is left. -/
theorem advance_mem {gap : UInt64} (h : p < promptEnd) (hgap : gap < promptEnd - p) :
    p ≤ p + gap ∧ p + gap < promptEnd := by
  have hsize := promptEnd.toNat_lt
  rw [UInt64.lt_iff_toNat_lt] at h hgap
  rw [UInt64.toNat_sub_of_le _ _ (UInt64.le_iff_toNat_le.mpr h.le)] at hgap
  have hadd : (p + gap).toNat = p.toNat + gap.toNat := by
    rw [UInt64.toNat_add, Nat.mod_eq_of_lt (by omega)]
  rw [UInt64.le_iff_toNat_le, UInt64.lt_iff_toNat_lt, hadd]
  omega

/-! ## The split -/

/-- The branch-safe split is zero, or lies in what is prefilled. -/
theorem branchSafe_mem (promptEnd prefillBase : UInt64) (blockTokens : UInt32) :
    branchSafePromptCheckpointSplit promptEnd prefillBase blockTokens = 0 ∨
      prefillBase ≤ branchSafePromptCheckpointSplit promptEnd prefillBase blockTokens ∧
        branchSafePromptCheckpointSplit promptEnd prefillBase blockTokens < promptEnd := by
  unfold branchSafePromptCheckpointSplit
  by_cases hend : promptEnd ≤ prefillBase
  · rw [if_pos hend]
    exact Or.inl rfl
  · rw [if_neg hend]
    rw [UInt64.not_le] at hend
    dsimp only
    split
    next =>
      split
      next hgap => exact Or.inr (advance_mem hend hgap)
      next => exact Or.inl rfl
    next hbase =>
      split
      next => exact Or.inl rfl
      next hlt => exact Or.inr ⟨UInt64.not_lt.mp hbase, UInt64.not_le.mp hlt⟩

/-- The split is zero, or lies in what is prefilled. -/
theorem querySafe_mem (promptEnd prefillBase : UInt64) (blockTokens : UInt32)
    (queryBegin queryEnd : UInt64) :
    querySafePromptCheckpointSplit promptEnd prefillBase blockTokens queryBegin queryEnd = 0 ∨
      prefillBase ≤ querySafePromptCheckpointSplit promptEnd prefillBase blockTokens queryBegin
          queryEnd ∧
        querySafePromptCheckpointSplit promptEnd prefillBase blockTokens queryBegin queryEnd <
          promptEnd := by
  have hsplit := branchSafe_mem promptEnd prefillBase blockTokens
  unfold querySafePromptCheckpointSplit
  dsimp only
  split
  next => exact hsplit
  next =>
    split
    next hclamp =>
      obtain ⟨-, -, hbase, hend⟩ := hclamp
      split
      next hgap =>
        obtain ⟨-, hlt, hgap, hle⟩ := hgap
        exact Or.inr ⟨hle, (advance_mem hlt hgap).2⟩
      next => exact Or.inr ⟨hbase, hend⟩
    next => exact hsplit

/-- The split does not fall between the replay boundary and the end of the query. -/
theorem querySafe_outside (hbase : prefillBase ≤ queryBegin / effectiveBlock blockTokens *
      effectiveBlock blockTokens)
    (hend : queryBegin / effectiveBlock blockTokens * effectiveBlock blockTokens < promptEnd) :
    checkpointOutsideQuery
      (querySafePromptCheckpointSplit promptEnd prefillBase blockTokens queryBegin queryEnd)
      queryBegin queryEnd blockTokens = true := by
  unfold querySafePromptCheckpointSplit checkpointOutsideQuery
  dsimp only
  rw [decide_eq_true_eq]
  by_cases hquery : queryEnd ≤ queryBegin
  · exact Or.inl hquery
  · refine Or.inr ?_
    rw [if_neg hquery]
    split
    next hclamp =>
      split
      next hgap => exact Or.inr (advance_mem hgap.2.1 hgap.2.2.1).1
      next => exact Or.inl (UInt64.le_refl _)
    next hclamp =>
      -- the split is not strictly between the two
      by_cases hle : branchSafePromptCheckpointSplit promptEnd prefillBase blockTokens ≤
          queryBegin / effectiveBlock blockTokens * effectiveBlock blockTokens
      · exact Or.inl hle
      · refine Or.inr ?_
        by_contra hlt
        exact hclamp ⟨UInt64.not_le.mp hle, UInt64.not_le.mp hlt, hbase, hend⟩

/-- The last multiple of the block size before the end of a prompt. -/
theorem lastBoundary_toNat (bt : UInt64) (hpos : 0 < promptEnd.toNat) :
    ((promptEnd - 1) / bt * bt).toNat = (promptEnd.toNat - 1) / bt.toNat * bt.toNat := by
  have hone : (1 : UInt64) ≤ promptEnd := UInt64.le_iff_toNat_le.mpr hpos
  have hsize := promptEnd.toNat_lt
  have hle := Nat.div_mul_le_self (promptEnd.toNat - 1) bt.toNat
  rw [UInt64.toNat_mul, UInt64.toNat_div, UInt64.toNat_sub_of_le _ _ hone]
  exact Nat.mod_eq_of_lt (lt_of_le_of_lt hle (by omega))

/-- A prompt of more than two blocks is split at a block boundary, and more than one
full block is left. -/
theorem branchSafeTarget_spec {bt : UInt64} (hbt : 0 < bt.toNat)
    (hlong : 2 * bt.toNat < promptEnd.toNat) :
    bt.toNat ∣ (branchSafeTarget promptEnd bt).toNat ∧
      (branchSafeTarget promptEnd bt).toNat + bt.toNat < promptEnd.toNat := by
  have hpos : 0 < promptEnd.toNat := by omega
  have hlast := lastBoundary_toNat bt hpos
  have hle := Nat.div_mul_le_self (promptEnd.toNat - 1) bt.toNat
  have htwo : 2 ≤ (promptEnd.toNat - 1) / bt.toNat := by
    rw [Nat.le_div_iff_mul_le hbt]
    omega
  have hmul := Nat.mul_le_mul_right bt.toNat htwo
  have hge : bt ≤ (promptEnd - 1) / bt * bt := by
    rw [UInt64.le_iff_toNat_le, hlast]
    omega
  have hsub : (branchSafeTarget promptEnd bt).toNat =
      (promptEnd.toNat - 1) / bt.toNat * bt.toNat - bt.toNat := by
    unfold branchSafeTarget
    rw [if_pos (UInt64.lt_iff_toNat_lt.mpr (by omega))]
    dsimp only
    rw [if_pos hge, UInt64.toNat_sub_of_le _ _ hge, hlast]
  rw [hsub]
  refine ⟨?_, by omega⟩
  exact Nat.dvd_sub (Nat.dvd_mul_left _ _) (dvd_refl _)

/-- **The split of a warm prompt stays usable**: it is zero or lies in what is
prefilled; it is outside of a query whose aligned start is prefilled; and without a
query, a long prompt is split at a block boundary that no rewrite of the last block
reaches. -/
theorem querySafeSplit (promptEnd prefillBase : UInt64) (blockTokens : UInt32)
    (queryBegin queryEnd : UInt64) :
    let split := querySafePromptCheckpointSplit promptEnd prefillBase blockTokens queryBegin queryEnd
    let bt := effectiveBlock blockTokens
    (split = 0 ∨ prefillBase ≤ split ∧ split < promptEnd) ∧
      (prefillBase ≤ queryBegin / bt * bt → queryBegin / bt * bt < promptEnd →
        checkpointOutsideQuery split queryBegin queryEnd blockTokens = true) ∧
      (2 * bt.toNat < promptEnd.toNat → queryEnd ≤ queryBegin →
        prefillBase ≤ branchSafeTarget promptEnd bt →
          bt.toNat ∣ split.toNat ∧ bt.toNat < promptEnd.toNat - split.toNat ∧
            ∀ rewritten ≤ bt.toNat, split.toNat ≤ promptEnd.toNat - rewritten) := by
  intro split bt
  refine ⟨querySafe_mem _ _ _ _ _, querySafe_outside, ?_⟩
  intro hlong hquery hbase
  have hbt : 0 < bt.toNat := by
    rw [effectiveBlock_toNat]
    omega
  obtain ⟨hdvd, hlt⟩ := branchSafeTarget_spec hbt hlong
  rw [UInt64.le_iff_toNat_le] at hbase
  have hsplit : split = branchSafeTarget promptEnd bt := by
    change querySafePromptCheckpointSplit promptEnd prefillBase blockTokens queryBegin queryEnd = _
    unfold querySafePromptCheckpointSplit branchSafePromptCheckpointSplit
    dsimp only
    rw [if_pos hquery, if_neg, if_neg, if_neg]
    · rw [ge_iff_le, UInt64.le_iff_toNat_le]
      change ¬ promptEnd.toNat ≤ (branchSafeTarget promptEnd bt).toNat
      omega
    · rw [UInt64.lt_iff_toNat_lt]
      change ¬ (branchSafeTarget promptEnd bt).toNat < prefillBase.toNat
      omega
    · rw [UInt64.le_iff_toNat_le]
      omega
  rw [hsplit]
  refine ⟨hdvd, by omega, ?_⟩
  intro rewritten hle
  omega

/-- A query in the third block of a prompt of 300 tokens: the split, at 192, would
fall into it, and goes back to 128. -/
theorem querySafeSplit_blocks : querySafePromptCheckpointSplit 300 64 64 130 250 = 128 ∧
    checkpointOutsideQuery (querySafePromptCheckpointSplit 300 64 64 130 250) 130 250 64 = true :=
  ⟨by decide, (querySafeSplit 300 64 64 130 250).2.1 (by decide) (by decide)⟩

end Qw3.Policy
