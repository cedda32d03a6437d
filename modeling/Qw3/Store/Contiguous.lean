import Qw3.Store.Backing

/-!
# The blocks of a legacy history

Without a repository the blocks lie one behind the other: block `i` begins at `i`
times the block size, and only the last one can be partial.

* `Legacy.Contiguous` — the history as one interval cut into blocks.
* `contiguous_invariant` — in every reachable state.
-/

namespace Qw3.Store

namespace Legacy

variable {s t : Legacy}

/-- The history is one interval from zero on, cut into blocks. -/
structure Contiguous (s : Legacy) : Prop where
  block_pos : 0 < s.config.blockTokens
  there : ∀ i, i < s.blockCount ↔ i * s.config.blockTokens < s.totalTokens
  origPosStart : ∀ i < s.blockCount, (s.blocks i).origPosStart = i * s.config.blockTokens
  nTokens : ∀ i < s.blockCount,
    (s.blocks i).nTokens = min s.config.blockTokens (s.totalTokens - i * s.config.blockTokens)

namespace Contiguous

/-- The history ends within its last block. -/
theorem total_le (h : s.Contiguous) : s.totalTokens ≤ s.blockCount * s.config.blockTokens := by
  have hend := (h.there s.blockCount).not
  rw [not_lt] at hend
  exact not_lt.mp (hend.mp le_rfl)

/-- Every block but the last is full. -/
theorem full (h : s.Contiguous) {i : ℕ} (hi : i + 1 < s.blockCount) :
    (s.blocks i).nTokens = s.config.blockTokens := by
  have hlt := (h.there (i + 1)).mp hi
  rw [Nat.succ_mul] at hlt
  rw [h.nTokens i (by omega)]
  omega

/-- Only where a block is and how long it is counts. -/
theorem congr (h : s.Contiguous) (hconfig : t.config = s.config)
    (hcount : t.blockCount = s.blockCount) (htotal : t.totalTokens = s.totalTokens)
    (hextent : ∀ i, (t.blocks i).extent = (s.blocks i).extent) : t.Contiguous := by
  have hfields : ∀ i, (t.blocks i).origPosStart = (s.blocks i).origPosStart ∧
      (t.blocks i).nTokens = (s.blocks i).nTokens := by
    intro i
    have heq := hextent i
    unfold KvMemBlock.extent at heq
    simp only [Prod.mk.injEq] at heq
    exact heq.2.2
  constructor
  case block_pos =>
    rw [hconfig]
    exact h.block_pos
  case there =>
    intro i
    rw [hconfig, hcount, htotal]
    exact h.there i
  case origPosStart =>
    intro i hi
    rw [hcount] at hi
    rw [hconfig, (hfields i).1]
    exact h.origPosStart i hi
  case nTokens =>
    intro i hi
    rw [hcount] at hi
    rw [hconfig, htotal, (hfields i).2]
    exact h.nTokens i hi

theorem modify (h : s.Contiguous) (id : ℕ) {f : KvMemBlock → KvMemBlock}
    (hf : (f (s.blocks id)).extent = (s.blocks id).extent) : (s.modify id f).Contiguous := by
  unfold Legacy.modify
  split_ifs
  · refine h.congr rfl rfl rfl ?_
    intro i
    dsimp only
    by_cases hi : i = id
    · rw [hi, Function.update_self]
      exact hf
    · rw [Function.update_of_ne hi]
  · exact h

/-- The last block may end elsewhere in its room. -/
theorem setLast (h : s.Contiguous) {k total : ℕ} {b : KvMemBlock} (hk : s.blockCount = k + 1)
    (hstart : b.origPosStart = k * s.config.blockTokens)
    (htokens : b.nTokens = total - k * s.config.blockTokens)
    (hlow : k * s.config.blockTokens < total)
    (hhigh : total ≤ k * s.config.blockTokens + s.config.blockTokens) :
    ({ s with blocks := Function.update s.blocks k b, totalTokens := total } :
      Legacy).Contiguous := by
  refine ⟨h.block_pos, fun i => ?_, fun i hi => ?_, fun i hi => ?_⟩
  · dsimp only
    -- A later block would begin past the end of the last one.
    rcases Nat.lt_or_ge k i with hi | hi
    · have hle : (k + 1) * s.config.blockTokens ≤ i * s.config.blockTokens :=
        Nat.mul_le_mul_right _ hi
      rw [Nat.succ_mul] at hle
      omega
    · have hle := Nat.mul_le_mul_right s.config.blockTokens hi
      omega
  · dsimp only
    by_cases hik : i = k
    · rw [hik, Function.update_self]
      exact hstart
    · rw [Function.update_of_ne hik]
      exact h.origPosStart i hi
  · dsimp only at hi ⊢
    by_cases hik : i = k
    · rw [hik, Function.update_self]
      omega
    · rw [Function.update_of_ne hik, h.full (by omega)]
      have hle : (i + 1) * s.config.blockTokens ≤ k * s.config.blockTokens :=
        Nat.mul_le_mul_right _ (by omega)
      rw [Nat.succ_mul] at hle
      omega

/-! ## Appending -/

/-- The trailing block is filled up: it is full, or nothing remains. -/
theorem extendLast (h : s.Contiguous) (n : ℕ) : (s.extendLast n).1.Contiguous ∧
    ((s.extendLast n).2 = 0 ∨
      (s.extendLast n).1.totalTokens = (s.extendLast n).1.blockCount *
        (s.extendLast n).1.config.blockTokens) := by
  have hpos := h.block_pos
  have htotal := h.total_le
  unfold Legacy.extendLast
  dsimp only
  split_ifs with hpartial
  · obtain ⟨hcount, hlt⟩ := hpartial
    obtain ⟨k, hk⟩ : ∃ k, s.blockCount = k + 1 := ⟨s.blockCount - 1, by omega⟩
    have hlast : s.blockCount - 1 = k := by omega
    have hthere := (h.there k).mp (by omega)
    have htokens := h.nTokens k (by omega)
    rw [hlast] at hlt ⊢
    rw [hk, Nat.succ_mul] at htotal
    dsimp only
    refine ⟨h.setLast hk (h.origPosStart k (by omega)) ?_ ?_ ?_, ?_⟩
    · dsimp only
      omega
    · omega
    · omega
    · rw [hk, Nat.succ_mul]
      omega
  · refine ⟨h, ?_⟩
    dsimp only
    rcases Nat.eq_zero_or_pos s.blockCount with hzero | hcount
    · right
      rw [hzero, Nat.zero_mul] at htotal ⊢
      omega
    · right
      have hlast : s.config.blockTokens ≤ (s.blocks (s.blockCount - 1)).nTokens := by
        by_contra hlt
        exact hpartial ⟨hcount, not_le.mp hlt⟩
      have hthere := (h.there (s.blockCount - 1)).mp (by omega)
      rw [h.nTokens _ (by omega)] at hlast
      obtain ⟨k, hk⟩ : ∃ k, s.blockCount = k + 1 := ⟨s.blockCount - 1, by omega⟩
      rw [hk, Nat.add_sub_cancel] at hlast hthere
      rw [hk, Nat.succ_mul] at htotal ⊢
      omega

/-- New blocks follow a history whose last block is full. -/
theorem pushBlocks (fuel remaining : ℕ) (h : s.Contiguous)
    (hfull : remaining = 0 ∨ s.totalTokens = s.blockCount * s.config.blockTokens) :
    (pushBlocks fuel remaining s).Contiguous := by
  induction fuel generalizing remaining s with
  | zero => exact h
  | succ fuel ih =>
      unfold Legacy.pushBlocks
      split_ifs with hzero
      · exact h
      · have hpos := h.block_pos
        have htotal := hfull.resolve_left hzero
        dsimp only
        apply ih
        · refine ⟨hpos, ?_, ?_, ?_⟩
          · intro i
            dsimp only
            rcases Nat.lt_trichotomy i s.blockCount with hi | hi | hi
            · have hlt := (h.there i).mp hi
              omega
            · rw [hi, ← htotal]
              omega
            · have hle : (s.blockCount + 1) * s.config.blockTokens ≤ i * s.config.blockTokens :=
                Nat.mul_le_mul_right _ hi
              rw [Nat.succ_mul] at hle
              omega
          · intro i hi
            dsimp only at hi ⊢
            by_cases hnew : i = s.blockCount
            · rw [hnew, Function.update_self]
              exact htotal
            · rw [Function.update_of_ne hnew]
              exact h.origPosStart i (by omega)
          · intro i hi
            dsimp only at hi ⊢
            by_cases hnew : i = s.blockCount
            · rw [hnew, Function.update_self, ← htotal]
              dsimp only
              omega
            · have hle : (i + 1) * s.config.blockTokens ≤ s.blockCount * s.config.blockTokens :=
                Nat.mul_le_mul_right _ (by omega)
              rw [Nat.succ_mul] at hle
              rw [Function.update_of_ne hnew, h.nTokens i (by omega)]
              omega
        · dsimp only
          rw [Nat.succ_mul]
          omega

/-! ## Truncating -/

/-- The last blocks are dropped. -/
theorem popPast (position n : ℕ) (h : s.Contiguous) (hn : s.blockCount = n) :
    (popPast position n s).2.Contiguous := by
  induction n generalizing s with
  | zero => exact h
  | succ n ih =>
      unfold Legacy.popPast
      dsimp only
      split_ifs
      · apply ih
        · have htokens := h.nTokens n (by omega)
          have hlt := (h.there n).mp (by omega)
          have htotal := h.total_le
          rw [hn, Nat.succ_mul] at htotal
          refine ⟨h.block_pos, ?_, ?_, ?_⟩
          · intro i
            dsimp only
            have hend : s.totalTokens - (s.blocks n).nTokens = n * s.config.blockTokens := by omega
            rw [hend]
            exact (Nat.mul_lt_mul_right h.block_pos).symm
          · intro i hi
            exact h.origPosStart i (Nat.lt_trans hi (by rw [hn]; exact Nat.lt_succ_self n))
          · intro i hi
            dsimp only at hi ⊢
            have hle : (i + 1) * s.config.blockTokens ≤ n * s.config.blockTokens :=
              Nat.mul_le_mul_right _ hi
            rw [Nat.succ_mul] at hle
            rw [h.full (by omega)]
            omega
        · rfl
      · exact h

/-- The block the position lies in is cut. -/
theorem shrinkLast {position : ℕ} (h : s.Contiguous)
    (hlast : 0 < s.blockCount → (s.blocks (s.blockCount - 1)).origPosStart < position) :
    (s.shrinkLast position).Contiguous := by
  unfold Legacy.shrinkLast
  dsimp only
  split_ifs with hwithin
  · obtain ⟨hcount, hlt⟩ := hwithin
    obtain ⟨k, hk⟩ : ∃ k, s.blockCount = k + 1 := ⟨s.blockCount - 1, by omega⟩
    have hindex : s.blockCount - 1 = k := by omega
    have hstart := h.origPosStart k (by omega)
    have htokens := h.nTokens k (by omega)
    have hthere := (h.there k).mp (by omega)
    have htotal := h.total_le
    have hposition := hlast hcount
    rw [hk, Nat.succ_mul] at htotal
    rw [hindex] at hlt hposition ⊢
    have hend : s.totalTokens - ((s.blocks k).nTokens - (position - (s.blocks k).origPosStart)) =
        position := by omega
    rw [hend]
    refine h.setLast hk hstart ?_ ?_ ?_
    · dsimp only
      omega
    · omega
    · omega
  · exact h

theorem truncateTo (h : s.Contiguous) (position : ℕ) : (s.truncateTo position).2.Contiguous := by
  unfold Legacy.truncateTo
  split_ifs
  · exact h
  · have hpopped := h.popPast position s.blockCount rfl
    obtain ⟨-, hlast⟩ := popPast_last position s.blockCount s rfl
    rw [← popPast_blocks position s.blockCount s] at hlast
    exact hpopped.shrinkLast hlast

/-! ## Every run -/

/-- **A call of a legacy store.** -/
theorem step {a : LegacyAction} (h : s.Contiguous) (hstep : s.step a = some t) : t.Contiguous := by
  cases a with
  | registerAppend n =>
      have hstep := toOption_eq_some hstep
      unfold Legacy.registerAppend at hstep
      split_ifs at hstep
      obtain rfl := Except.ok.inj hstep
      obtain ⟨hextended, hfull⟩ := h.extendLast n
      exact hextended.pushBlocks _ _ hfull
  | truncateTo position =>
      obtain rfl := Option.some.inj hstep
      exact h.truncateTo position
  | setSelection ids force =>
      obtain rfl := Option.some.inj hstep
      refine h.congr rfl rfl rfl ?_
      intro i
      exact (selectLoop_blocks _ _ _ _ _ i).trans (stagedOut_extent _ _ _)
  | clearWorkingSet =>
      obtain rfl := Option.some.inj hstep
      exact h.congr rfl rfl rfl fun i => rfl
  | setBlockTier id tier cpuSlot nvmeSlot =>
      obtain rfl := Option.some.inj hstep
      exact h.modify id (extent_of_sameExtent (.setTier _ _ _ _ _))
  | setBlockCpuCopy id cpuSlot =>
      obtain rfl := Option.some.inj hstep
      exact h.modify id rfl
  | setBlockSsdBacking id nvmeSlot clean =>
      obtain rfl := Option.some.inj hstep
      exact h.modify id rfl
  | setBlockIoInFlight id inFlight =>
      obtain rfl := Option.some.inj hstep
      exact h.modify id rfl
  | setBlockBakedPos id bakedPos =>
      obtain rfl := Option.some.inj hstep
      exact h.modify id rfl
  | recordBlockRerope id bakedPos =>
      obtain rfl := Option.some.inj hstep
      exact h.modify id (extent_of_sameExtent (.rerope _ _))

end Contiguous

/-- **The history of a legacy store is contiguous**, in every reachable state. -/
theorem contiguous_invariant : legacyMachine.Invariant Contiguous where
  init s hs := by
    obtain ⟨c, hpos, rfl⟩ := hs
    refine ⟨hpos, ?_, ?_, ?_⟩
    · intro i
      exact ⟨fun h => absurd h (Nat.not_lt_zero i), fun h => absurd h (Nat.not_lt_zero _)⟩
    · exact fun i hi => absurd hi (Nat.not_lt_zero i)
    · exact fun i hi => absurd hi (Nat.not_lt_zero i)
  step _ _ _ hs h := hs.step h

end Legacy

end Qw3.Store
