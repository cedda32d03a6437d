import Qw3.Store.WindowPlans

/-!
# Bounded drift of the working K

With immutable source K a block is rotated in place only so often and so far
before it is rebuilt from its raw K.

* `planned` — the displacements that a plan adds to a block's history.
* `Drift` — the counters of a block are its history since the last rebuild, and
  within the limits; `Drift.remapped` is the step.
* `legacyDrift`, `windowDrift` — the two stores with the histories.
* `boundedDrift`.
-/

namespace Qw3.Store

open Qw3.Repository (KvMemBlockHandle Repo)

/-- Immutable source K, with both limits set. -/
structure SelectionConfig.Limited (c : SelectionConfig) : Prop where
  immutableSourceK : c.immutableSourceK = true
  remaps_pos : 0 < c.immutableRefreshRemaps
  absDelta_pos : 0 < c.immutableRefreshAbsDeltaTokens

/-! ## One remap -/

/-- The displacements of a block since its last rebuild, after a plan: a rebuild
forgets them, a move that is not skipped adds one. -/
def planned (plan : KvMemPlan) (before after : ℕ → KvMemBlock) (moves : ℕ → List ℕ) (i : ℕ) :
    List ℕ :=
  match plan.remaps.find? fun rm : KvMemRemap => decide (rm.blockId = i) with
  | none => moves i
  | some rm =>
      if rm.rawRefresh then []
      else if rm.skip then moves i
      else ((before i).bakedPos - (after i).bakedPos).natAbs :: moves i

/-- The counters of a block are its history, and within the limits. -/
structure Drift (c : SelectionConfig) (b : KvMemBlock) (moves : List ℕ) : Prop where
  count : b.remapCount = moves.length
  total : b.remapAbsDelta = moves.sum
  count_le : b.remapCount ≤ c.immutableRefreshRemaps
  total_lt : b.remapAbsDelta < c.immutableRefreshAbsDeltaTokens

section Remap

variable {c : SelectionConfig} {force : Bool} {id window : ℕ} {b : KvMemBlock} {moves : List ℕ}

theorem Drift.nil (hc : c.Limited) (hcount : b.remapCount = 0) (htotal : b.remapAbsDelta = 0) :
    Drift c b [] where
  count := hcount
  total := htotal
  count_le := by
    rw [hcount]
    exact Nat.zero_le _
  total_lt := by
    rw [htotal]
    exact hc.absDelta_pos

theorem Drift.same {b' : KvMemBlock} (h : Drift c b moves) (hb : b.SameBlock True b') :
    Drift c b' moves := by
  obtain ⟨hcount, htotal, hle, hlt⟩ := h
  constructor
  · rw [hb.remapCount trivial, hcount]
  · rw [hb.remapAbsDelta trivial, htotal]
  · rw [hb.remapCount trivial]
    exact hle
  · rw [hb.remapAbsDelta trivial]
    exact hlt

/-- A move in place has room within both limits. -/
theorem room_of_move (hc : c.Limited) (hskip : (remapOf c force id window b).skip = false)
    (hraw : (remapOf c force id window b).rawRefresh = false) :
    b.remapCount < c.immutableRefreshRemaps ∧
      b.remapAbsDelta + (b.bakedPos - window).natAbs < c.immutableRefreshAbsDeltaTokens := by
  have hlimit : refreshLimit c window b = false := by
    unfold remapOf at hskip hraw
    dsimp only at hskip hraw
    rw [hc.immutableSourceK] at hskip hraw
    -- Neither forced nor cold nor in place: the limits were looked at.
    generalize (decide (b.tier ≠ .gpu) || !c.optimizeStageIn) = cold at hskip hraw
    generalize decide (b.bakedPos = (window : ℤ)) = same at hskip hraw
    generalize refreshLimit c window b = limit at hraw ⊢
    revert hskip hraw
    cases force <;> cases cold <;> cases same <;> cases limit <;> decide
  have hremaps := hc.remaps_pos
  have hdelta := hc.absDelta_pos
  unfold refreshLimit at hlimit
  dsimp only at hlimit
  rw [Bool.or_eq_false_iff, Bool.or_eq_false_iff, decide_eq_false_iff_not,
    decide_eq_false_iff_not] at hlimit
  obtain ⟨⟨hcount, htotal⟩, -⟩ := hlimit
  constructor
  · omega
  · omega

/-- **One remap keeps the drift within the limits.** -/
theorem Drift.remapped (hc : c.Limited) (h : Drift c b moves) :
    Drift c (b.remapped (remapOf c force id window b) window)
      (if (remapOf c force id window b).rawRefresh then []
        else if (remapOf c force id window b).skip then moves
        else (b.bakedPos - window).natAbs :: moves) := by
  unfold KvMemBlock.remapped
  cases hraw : (remapOf c force id window b).rawRefresh with
  | true =>
      have hskip : (remapOf c force id window b).skip = false := by
        rw [← Bool.not_eq_true]
        intro hskip
        exact not_skip_and_refresh c force id window b ⟨hskip, hraw⟩
      rw [hskip]
      exact .nil hc rfl rfl
  | false =>
      cases hskip : (remapOf c force id window b).skip with
      | true => exact ⟨h.count, h.total, h.count_le, h.total_lt⟩
      | false =>
          obtain ⟨hcount, htotal⟩ := room_of_move hc hskip hraw
          constructor
          · show b.remapCount + 1 = _
            rw [h.count]
            rfl
          · show b.remapAbsDelta + (b.bakedPos - window).natAbs = _
            rw [h.total, if_neg Bool.false_ne_true, if_neg Bool.false_ne_true, List.sum_cons,
              Nat.add_comm]
          · exact hcount
          · exact htotal

/-- Cold K is rebuilt. -/
theorem rawRefresh_of_cold (hc : c.Limited) (hcold : b.tier ≠ .gpu) :
    (remapOf c force id window b).rawRefresh = true := by
  unfold remapOf
  dsimp only
  rw [hc.immutableSourceK, decide_eq_true hcold]
  rfl

end Remap

/-! ## One selection -/

/-- What a plan says about its remaps: none both skips and rebuilds, and every
selected block below the GPU is rebuilt. -/
structure Rebuilds (w : WindowInput) (plan : KvMemPlan) : Prop where
  consistent : ∀ rm ∈ plan.remaps, ¬ (rm.skip = true ∧ rm.rawRefresh = true)
  cold : ∀ i < w.n, w.selected i = true → (w.blocks i).tier ≠ .gpu →
    ∃ rm ∈ plan.remaps, rm.blockId = i ∧ rm.rawRefresh = true

section Selection

variable {c : SelectionConfig} {force repository : Bool} {w : WindowInput} {ids : List ℕ}

theorem rebuilds (hc : c.Limited) (h : w.Lists ids) (hw : w.Ordered repository) :
    Rebuilds w (selectionImpl c force repository w.present w.n w.selected ids w.blocks).1 where
  consistent := by
    intro rm hrm
    obtain ⟨i, -, rfl⟩ := (mem_remaps h hw).mp hrm
    exact not_skip_and_refresh c force i _ _
  cold := by
    intro i hi hselected hcold
    exact ⟨_, (mem_remaps h hw).mpr ⟨i, (h.mem i).mpr ⟨hi, hselected⟩, rfl⟩, rfl,
      rawRefresh_of_cold hc hcold⟩

/-- The remap of a block in the plan. -/
theorem find_remap (h : w.Lists ids) (hw : w.Ordered repository) (i : ℕ) :
    (selectionImpl c force repository w.present w.n w.selected ids w.blocks).1.remaps.find?
      (fun rm : KvMemRemap => decide (rm.blockId = i)) =
        if i ∈ ids then some (remapOf c force i (w.tokensBefore i) (w.blocks i)) else none := by
  split_ifs with hi
  · cases hfind : (selectionImpl c force repository w.present w.n w.selected ids
        w.blocks).1.remaps.find? fun rm : KvMemRemap => decide (rm.blockId = i) with
    | none =>
        have hnone := List.find?_eq_none.mp hfind _ ((mem_remaps h hw).mpr ⟨i, hi, rfl⟩)
        exact absurd (decide_eq_true rfl) hnone
    | some rm =>
        obtain ⟨j, -, rfl⟩ := (mem_remaps h hw).mp (List.mem_of_find?_eq_some hfind)
        have hfound : decide ((remapOf c force j (w.tokensBefore j) (w.blocks j)).blockId = i) =
            true := List.find?_some (p := fun rm : KvMemRemap => decide (rm.blockId = i)) hfind
        have hj : j = i := of_decide_eq_true hfound
        rw [hj]
  · refine List.find?_eq_none.mpr ?_
    intro rm hrm hfound
    obtain ⟨j, hj, rfl⟩ := (mem_remaps h hw).mp hrm
    have hji : j = i := of_decide_eq_true hfound
    rw [hji] at hj
    exact hi hj

/-- **A selection keeps the drift of every block within the limits.** -/
theorem drift_selection (hc : c.Limited) (h : w.Lists ids) (hw : w.Ordered repository)
    {moves : ℕ → List ℕ} {i : ℕ} (hdrift : Drift c (w.blocks i) (moves i)) :
    Drift c ((selectionImpl c force repository w.present w.n w.selected ids w.blocks).2 i)
      (planned (selectionImpl c force repository w.present w.n w.selected ids w.blocks).1
        w.blocks (selectionImpl c force repository w.present w.n w.selected ids w.blocks).2
        moves i) := by
  unfold planned
  rw [find_remap h hw]
  by_cases hi : i ∈ ids
  · rw [if_pos hi, selectionImpl_selected h hw hi]
    exact hdrift.remapped hc
  · rw [if_neg hi, selectionImpl_other (h.nodup hw) hi]
    obtain ⟨v, hv⟩ := KvMemBlock.passed_eq c repository (w.present i) (w.selected i) (w.blocks i)
    rw [hv]
    exact ⟨hdrift.count, hdrift.total, hdrift.count_le, hdrift.total_lt⟩

end Selection

/-! ## The legacy store -/

/-- The calls that move a block's K outside a selection. -/
def LegacyAction.Bakes : LegacyAction → Prop
  | .setBlockBakedPos _ _ | .recordBlockRerope _ _ => True
  | _ => False

instance (a : LegacyAction) : Decidable a.Bakes := by
  unfold LegacyAction.Bakes
  split <;> infer_instance

namespace Legacy

/-- The histories of the blocks after a call; those of new blocks are empty. -/
def recordMoves (s : Legacy) (a : LegacyAction) (t : Legacy) (moves : ℕ → List ℕ) (i : ℕ) :
    List ℕ :=
  if s.blockCount ≤ i then []
  else
    match a with
    | .setSelection ids force => planned (s.setSelection ids force).1 s.blocks t.blocks moves i
    | _ => moves i

variable {s t : Legacy}

theorem pushBlocks_config (fuel remaining : ℕ) (s : Legacy) :
    (pushBlocks fuel remaining s).config = s.config := by
  induction fuel generalizing remaining s with
  | zero => rfl
  | succ fuel ih =>
      unfold pushBlocks
      split_ifs
      · rfl
      · dsimp only
        rw [ih]

/-- New blocks have not been moved. -/
theorem pushBlocks_new (fuel remaining : ℕ) (s : Legacy) {i : ℕ} (hi : s.blockCount ≤ i)
    (hlt : i < (pushBlocks fuel remaining s).blockCount) :
    ((pushBlocks fuel remaining s).blocks i).remapCount = 0 ∧
      ((pushBlocks fuel remaining s).blocks i).remapAbsDelta = 0 := by
  induction fuel generalizing remaining s with
  | zero => exact absurd hlt (Nat.not_lt.mpr hi)
  | succ fuel ih =>
      unfold pushBlocks at hlt ⊢
      split_ifs at hlt ⊢
      · exact absurd hlt (Nat.not_lt.mpr hi)
      · dsimp only at hlt ⊢
        by_cases hnew : i = s.blockCount
        · rw [pushBlocks_blocks _ _ _ (by rw [hnew]; exact Nat.lt_succ_self _), hnew]
          dsimp only
          rw [Function.update_self]
          exact ⟨rfl, rfl⟩
        · exact ih _ _ (Nat.lt_of_le_of_ne hi (Ne.symm hnew)) hlt

theorem extendLast_same (s : Legacy) (n i : ℕ) :
    (s.blocks i).SameBlock True ((s.extendLast n).1.blocks i) := by
  unfold extendLast
  dsimp only
  split_ifs
  · dsimp only
    by_cases hi : i = s.blockCount - 1
    · rw [hi, Function.update_self]
      exact ⟨rfl, rfl, fun _ => rfl, fun _ => rfl⟩
    · rw [Function.update_of_ne hi]
      exact .refl True _
  · exact .refl True _

theorem popPast_config (position n : ℕ) (s : Legacy) :
    (popPast position n s).2.config = s.config := by
  induction n generalizing s with
  | zero => rfl
  | succ n ih =>
      unfold popPast
      dsimp only
      split_ifs
      · exact ih _
      · rfl

theorem modify_same (s : Legacy) (id : ℕ) {f : KvMemBlock → KvMemBlock}
    (hf : (s.blocks id).SameBlock True (f (s.blocks id))) (i : ℕ) :
    (s.blocks i).SameBlock True ((s.modify id f).blocks i) := by
  unfold modify
  split_ifs
  · dsimp only
    by_cases hi : i = id
    · rw [hi, Function.update_self]
      exact hf
    · rw [Function.update_of_ne hi]
      exact .refl True _
  · exact .refl True _

/-- What a call other than a selection does to the drift counters: nothing, or
it makes new blocks. -/
structure Keeps (s t : Legacy) : Prop where
  config : t.config = s.config
  same : ∀ i < s.blockCount, (s.blocks i).SameBlock True (t.blocks i)
  new : ∀ i, s.blockCount ≤ i → i < t.blockCount →
    (t.blocks i).remapCount = 0 ∧ (t.blocks i).remapAbsDelta = 0

theorem Keeps.modify (s : Legacy) (id : ℕ) {f : KvMemBlock → KvMemBlock}
    (hf : (s.blocks id).SameBlock True (f (s.blocks id))) : Keeps s (s.modify id f) := by
  have hframe : (s.modify id f).config = s.config ∧ (s.modify id f).blockCount = s.blockCount := by
    unfold Legacy.modify
    split_ifs <;> exact ⟨rfl, rfl⟩
  refine ⟨hframe.1, fun i _ => modify_same s id hf i, ?_⟩
  intro i hi hlt
  rw [hframe.2] at hlt
  exact absurd hlt (Nat.not_lt.mpr hi)

theorem Keeps.registerAppend {n : ℕ} (h : s.registerAppend n = .ok t) : Keeps s t := by
  unfold Legacy.registerAppend at h
  split_ifs at h
  obtain rfl := Except.ok.inj h
  have hcount := extendLast_blockCount s n
  constructor
  · rw [pushBlocks_config]
    unfold extendLast
    dsimp only
    split_ifs <;> rfl
  · intro i hi
    rw [pushBlocks_blocks _ _ _ (by rw [hcount]; exact hi)]
    exact extendLast_same s n i
  · intro i hi hlt
    exact pushBlocks_new _ _ _ (by rw [hcount]; exact hi) hlt

theorem Keeps.truncateTo (s : Legacy) (position : ℕ) : Keeps s (s.truncateTo position).2 := by
  unfold Legacy.truncateTo
  split_ifs
  · exact ⟨rfl, fun _ _ => .refl True _, fun i hi hlt => absurd hlt (Nat.not_lt.mpr hi)⟩
  · obtain ⟨hle, -⟩ := popPast_last position s.blockCount s rfl
    have hblocks := popPast_blocks position s.blockCount s
    have hconfig := popPast_config position s.blockCount s
    generalize popPast position s.blockCount s = popped at hle hblocks hconfig ⊢
    unfold shrinkLast
    dsimp only
    split_ifs
    · refine ⟨hconfig, ?_, fun i hi hlt => absurd hlt (Nat.not_lt.mpr (hle.trans hi))⟩
      intro i _
      dsimp only
      rw [hblocks]
      by_cases hi : i = popped.2.blockCount - 1
      · rw [hi, Function.update_self]
        exact ⟨rfl, rfl, fun _ => rfl, fun _ => rfl⟩
      · rw [Function.update_of_ne hi]
        exact .refl True _
    · refine ⟨hconfig, ?_, fun i hi hlt => absurd hlt (Nat.not_lt.mpr (hle.trans hi))⟩
      intro i _
      rw [hblocks]
      exact .refl True _

theorem keeps_step {a : LegacyAction} (hbakes : ¬ a.Bakes)
    (hselects : ∀ ids force, a ≠ .setSelection ids force) (h : s.step a = some t) : Keeps s t := by
  cases a with
  | registerAppend n => exact .registerAppend (toOption_eq_some h)
  | truncateTo position =>
      obtain rfl := Option.some.inj h
      exact .truncateTo s position
  | setSelection ids force => exact absurd rfl (hselects ids force)
  | clearWorkingSet =>
      obtain rfl := Option.some.inj h
      exact ⟨rfl, fun _ _ => ⟨rfl, rfl, fun _ => rfl, fun _ => rfl⟩,
        fun i hi hlt => absurd hlt (Nat.not_lt.mpr hi)⟩
  | setBlockTier id tier cpuSlot nvmeSlot =>
      obtain rfl := Option.some.inj h
      exact .modify s id (.setTier _ _ _ _)
  | setBlockCpuCopy id cpuSlot =>
      obtain rfl := Option.some.inj h
      exact .modify s id ⟨rfl, rfl, fun _ => rfl, fun _ => rfl⟩
  | setBlockSsdBacking id nvmeSlot clean =>
      obtain rfl := Option.some.inj h
      exact .modify s id ⟨rfl, rfl, fun _ => rfl, fun _ => rfl⟩
  | setBlockIoInFlight id inFlight =>
      obtain rfl := Option.some.inj h
      exact .modify s id ⟨rfl, rfl, fun _ => rfl, fun _ => rfl⟩
  | setBlockBakedPos id bakedPos => exact absurd trivial hbakes
  | recordBlockRerope id bakedPos => exact absurd trivial hbakes

end Legacy

/-- The legacy store with the histories of its blocks. -/
def legacyDrift : Machine (Legacy × (ℕ → List ℕ)) LegacyAction :=
  (legacyMachine.restrict fun _ a => ¬ a.Bakes).withHistory (fun _ => []) Legacy.recordMoves

/-- The drift of every block of a legacy store. -/
def LegacyDrifts (p : Legacy × (ℕ → List ℕ)) : Prop :=
  p.1.config.selection.Limited →
    ∀ i < p.1.blockCount, Drift p.1.config.selection (p.1.blocks i) (p.2 i)

theorem legacyDrift_invariant : legacyDrift.Invariant fun p => p.1.Contiguous ∧ LegacyDrifts p where
  init p hp := by
    refine ⟨Legacy.contiguous_invariant.init p.1 hp.1, ?_⟩
    obtain ⟨c, -, heq⟩ := hp.1
    intro _ i hi
    rw [heq] at hi
    exact absurd hi (Nat.not_lt_zero i)
  step p a q hp h := by
    obtain ⟨t, hstep, rfl⟩ := Machine.withHistory_step.mp h
    obtain ⟨hbakes, hstep⟩ := Machine.restrict_step.mp hstep
    obtain ⟨hcontiguous, hdrifts⟩ := hp
    refine ⟨hcontiguous.step hstep, ?_⟩
    intro hlimited i hi
    dsimp only at hlimited hi ⊢
    unfold Legacy.recordMoves
    by_cases hselects : ∃ ids force, a = .setSelection ids force
    · obtain ⟨ids, force, rfl⟩ := hselects
      obtain rfl := Option.some.inj hstep
      have hold : ¬ p.1.blockCount ≤ i := Nat.not_le.mpr hi
      rw [if_neg hold]
      exact drift_selection hlimited (hcontiguous.lists ids) (p.1.windowInput_ordered ids)
        (hdrifts hlimited i hi)
    · have hkeeps := Legacy.keeps_step hbakes (fun ids force heq => hselects ⟨ids, force, heq⟩) hstep
      rw [hkeeps.config] at hlimited ⊢
      split_ifs with hnew
      · obtain ⟨hcount, htotal⟩ := hkeeps.new i hnew hi
        exact .nil hlimited hcount htotal
      · have hdrift := (hdrifts hlimited i (Nat.not_le.mp hnew)).same
          (hkeeps.same i (Nat.not_le.mp hnew))
        cases a with
        | setSelection ids force => exact absurd ⟨ids, force, rfl⟩ hselects
        | _ => exact hdrift

/-! ## The bounded store -/

/-- The calls that move a block's K outside a selection. -/
def WindowAction.Bakes : WindowAction → Prop
  | .call (.setBlockBakedPos _ _ _) | .call (.recordBlockRerope _ _ _) => True
  | _ => False

instance (a : WindowAction) : Decidable a.Bakes := by
  unfold WindowAction.Bakes
  split <;> infer_instance

/-- The histories of the blocks after a call; that of a slot with a new block is
empty. -/
def State.recordMoves (c : SelectionConfig) (s : State) (a : WindowAction) (t : State)
    (moves : ℕ → List ℕ) (i : ℕ) : List ℕ :=
  if (t.blocks i).repositoryGeneration ≠ (s.blocks i).repositoryGeneration then []
  else
    match a with
    | .setRepositorySelection handles force =>
        match s.setRepositorySelection c handles force with
        | .ok p => planned p.1 s.blocks t.blocks moves i
        | .error _ => moves i
    | _ => moves i

/-- The bounded store with the histories of its blocks. -/
def windowDrift (c : SelectionConfig) : Machine (State × (ℕ → List ℕ)) WindowAction :=
  ((windowMachine c).restrict fun _ a => ¬ a.Bakes).withHistory (fun _ => []) (State.recordMoves c)

section Bounded

variable {c : SelectionConfig} {s t : State} {moves : ℕ → List ℕ} {i : ℕ}

/-- A call that leaves a block the same leaves its history alone. -/
theorem recordMoves_same {a : WindowAction}
    (hselects : ∀ handles force, a ≠ .setRepositorySelection handles force)
    (hsame : (s.blocks i).SameBlock True (t.blocks i)) : s.recordMoves c a t moves i = moves i := by
  unfold State.recordMoves
  rw [if_neg (not_not.mpr hsame.generation)]
  cases a with
  | setRepositorySelection handles force => exact absurd rfl (hselects handles force)
  | _ => rfl

theorem recordMoves_fresh {a : WindowAction} (hfresh : (s.blocks i).Fresh (t.blocks i)) :
    s.recordMoves c a t moves i = [] :=
  if_pos hfresh.generation.ne'

/-- **One call keeps the drift of every block within the limits.** -/
theorem drift_windowStep (hc : c.Limited) (hs : s.Inv) (hi : s.Identified) {a : WindowAction}
    (hbakes : ¬ a.Bakes) (h : s.windowStep c a = some t)
    (hdrift : Drift c (s.blocks i) (moves i)) :
    Drift c (t.blocks i) (s.recordMoves c a t moves i) := by
  cases a with
  | call a =>
      have hreropes : ¬ a.Reropes := by
        intro hreropes
        cases a with
        | recordBlockRerope id bakedPos generation => exact hbakes trivial
        | _ => exact hreropes
      rcases identity_step hs h i with hsame | hfresh
      · have hsame : (s.blocks i).SameBlock True (t.blocks i) :=
          ⟨hsame.generation, hsame.logicalId, fun _ => hsame.remapCount hreropes,
            fun _ => hsame.remapAbsDelta hreropes⟩
        rw [recordMoves_same (fun _ _ heq => by cases heq) hsame]
        exact hdrift.same hsame
      · rw [recordMoves_fresh hfresh]
        exact .nil hc hfresh.remapCount hfresh.remapAbsDelta
  | setRepositorySelection handles force =>
      obtain ⟨plan, hselect⟩ := windowStep_select h
      have hmild := Mild.setRepositorySelection hs.ok hselect
      unfold State.recordMoves
      rw [if_neg (not_not.mpr (hmild.extent i).repositoryGeneration)]
      dsimp only
      rw [hselect]
      obtain ⟨old, r, hleases, rfl, hseats, -⟩ := setRepositorySelection_eq_ok hselect
      dsimp only
      rw [hseats.blocks]
      exact drift_selection hc (hi.lists hs (selectionLeases_spec hs.ok hleases))
        (State.windowInput_ordered hs r handles) hdrift
  | clearWorkingSet =>
      have hseats := (clearRepositoryWorkingSet_eq_ok (toOption_eq_some h)).1
      have hsame : (s.blocks i).SameBlock True (t.blocks i) := by
        rw [hseats.blocks]
        exact ⟨rfl, rfl, fun _ => rfl, fun _ => rfl⟩
      rw [recordMoves_same (fun _ _ heq => by cases heq) hsame]
      exact hdrift.same hsame

theorem windowDrift_invariant (hc : c.Limited) : (windowDrift c).Invariant fun p =>
    (p.1.Inv ∧ p.1.Identified) ∧ ∀ i, Drift c (p.1.blocks i) (p.2 i) where
  init p hp := by
    refine ⟨(window_invariant c).init p.1 hp.1, ?_⟩
    obtain ⟨⟨config, r, -, heq⟩, hmoves⟩ := hp
    intro i
    rw [heq, hmoves]
    exact .nil hc rfl rfl
  step p a q hp h := by
    obtain ⟨t, hstep, rfl⟩ := Machine.withHistory_step.mp h
    obtain ⟨hbakes, hstep⟩ := Machine.restrict_step.mp hstep
    obtain ⟨⟨hs, hi⟩, hdrift⟩ := hp
    refine ⟨(window_invariant c).step _ _ _ ⟨hs, hi⟩ hstep, ?_⟩
    intro i
    exact drift_windowStep hc hs hi hbakes hstep (hdrift i)

end Bounded

/-! ## Both -/

/-- **Bounded drift of the working K.** -/
theorem boundedDrift :
    (∀ p, legacyDrift.Reachable p → LegacyDrifts p) ∧
    (∀ c : SelectionConfig, c.Limited → ∀ p, (windowDrift c).Reachable p →
      ∀ i, Drift c (p.1.blocks i) (p.2 i)) ∧
    (∀ (s : Legacy) (ids : List ℕ) (force : Bool), legacyMachine.Reachable s →
      s.config.selection.Limited →
        Rebuilds (s.windowInput ids) (s.setSelection ids force).1) ∧
    ∀ (c : SelectionConfig) (s t : State) (handles : List KvMemBlockHandle) (force : Bool)
      (plan : KvMemPlan), c.Limited → (windowMachine c).Reachable s →
      s.setRepositorySelection c handles force = .ok (plan, t) →
        ∃ old r, s.selectionLeases handles = .ok (old, r) ∧
          Rebuilds (s.windowInput r handles) plan := by
  refine ⟨?_, ?_, ?_, ?_⟩
  · intro p hp
    exact (legacyDrift_invariant.reachable hp).2
  · intro c hc p hp
    exact ((windowDrift_invariant hc).reachable hp).2
  · intro s ids force hs hc
    exact rebuilds hc ((Legacy.contiguous_invariant.reachable hs).lists ids)
      (s.windowInput_ordered ids)
  · intro c s t handles force plan hc hs h
    obtain ⟨hinv, hidentified⟩ := (window_invariant c).reachable hs
    obtain ⟨old, r, hleases, rfl, -, -⟩ := setRepositorySelection_eq_ok h
    exact ⟨old, r, hleases, rebuilds hc
      (hidentified.lists hinv (selectionLeases_spec hinv.ok hleases))
      (State.windowInput_ordered hinv r handles)⟩

/-- Two moves in place, and no third. -/
def twoMoves : SelectionConfig := ⟨true, true, 2, 100, 0⟩

theorem twoMoves_limited : twoMoves.Limited := ⟨rfl, by decide, by decide⟩

/-- Block 1 moves to the front, and back; and it is selected below the GPU. -/
theorem boundedDrift_afterMoves :
    (∃ p, legacyDrift.Reachable p ∧ p.2 1 = [4, 4] ∧ Drift twoMoves (p.1.blocks 1) (p.2 1)) ∧
    (∃ p, (windowDrift twoMoves).Reachable p ∧ p.2 1 = [4, 4] ∧
      Drift twoMoves (p.1.blocks 1) (p.2 1)) ∧
    (∃ s : Legacy, legacyMachine.Reachable s ∧ (s.blocks 1).tier = .cpu ∧
      Rebuilds (s.windowInput [1]) (s.setSelection [1] false).1) ∧
    ∃ (s t : State) (plan : KvMemPlan) (old : List KvMemBlockHandle) (r : Repo),
      (windowMachine twoMoves).Reachable s ∧ (s.blocks 1).tier = .cpu ∧
      s.selectionLeases [⟨1, 2⟩] = .ok (old, r) ∧
      s.setRepositorySelection twoMoves [⟨1, 2⟩] false = .ok (plan, t) ∧
      Rebuilds (s.windowInput r [⟨1, 2⟩]) plan := by
  refine ⟨?_, ?_, ?_, ?_⟩
  · have hrun : (legacyDrift.run (.initial ⟨⟨4, true⟩, twoMoves⟩, fun _ => [])
        [.registerAppend 10, .setSelection [1] false, .setSelection [0, 1] false]).any (fun p =>
          decide (p.1.config.selection = twoMoves ∧ 1 < p.1.blockCount ∧ p.2 1 = [4, 4])) =
            true := by
      decide +kernel
    obtain ⟨p, hp, hcheck⟩ := legacyDrift.exists_reachable
      ⟨⟨⟨⟨4, true⟩, twoMoves⟩, by decide, rfl⟩, rfl⟩ hrun
    obtain ⟨hconfig, hlt, hmoves⟩ := of_decide_eq_true hcheck
    have hdrift := boundedDrift.1 p hp (hconfig ▸ twoMoves_limited) 1 hlt
    rw [hconfig] at hdrift
    exact ⟨p, hp, hmoves, hdrift⟩
  · have hrun : ((windowDrift twoMoves).run (State.initial ⟨4, true⟩ ⟨4, 4⟩, fun _ => [])
        [.call (.prepareAppend 10 0), .call (.commitAppend 10),
          .setRepositorySelection [⟨1, 2⟩] false,
          .setRepositorySelection [⟨0, 1⟩, ⟨1, 2⟩] false]).any (fun p =>
          decide (p.2 1 = [4, 4])) = true := by
      decide +kernel
    obtain ⟨p, hp, hcheck⟩ := (windowDrift twoMoves).exists_reachable
      ⟨⟨_, _, validConfig_small, rfl⟩, rfl⟩ hrun
    exact ⟨p, hp, of_decide_eq_true hcheck, boundedDrift.2.1 twoMoves twoMoves_limited p hp 1⟩
  · have hrun : (legacyMachine.run (.initial ⟨⟨4, true⟩, twoMoves⟩)
        [.registerAppend 10, .setBlockTier 1 .cpu 0 (-1)]).any (fun s =>
          decide (s.config.selection = twoMoves ∧ (s.blocks 1).tier = .cpu)) = true := by
      decide +kernel
    obtain ⟨s, hs, hcheck⟩ := legacyMachine.exists_reachable
      ⟨⟨⟨4, true⟩, twoMoves⟩, by decide, rfl⟩ hrun
    obtain ⟨hconfig, hcpu⟩ := of_decide_eq_true hcheck
    exact ⟨s, hs, hcpu, boundedDrift.2.2.1 s [1] false hs (hconfig ▸ twoMoves_limited)⟩
  · have hrun : ((windowMachine twoMoves).run (State.initial ⟨4, true⟩ ⟨4, 4⟩)
        [.call (.prepareAppend 10 0), .call (.commitAppend 10),
          .call (.setBlockTier 1 .cpu 0 (-1) 2)]).any (fun s =>
          decide ((s.blocks 1).tier = .cpu) && (s.selectionLeases [⟨1, 2⟩]).toOption.isSome) =
            true := by
      decide +kernel
    obtain ⟨s, hs, hcheck⟩ := (windowMachine twoMoves).exists_reachable
      ⟨_, _, validConfig_small, rfl⟩ hrun
    rw [Bool.and_eq_true, decide_eq_true_iff] at hcheck
    obtain ⟨hcpu, hsome⟩ := hcheck
    cases hleases : s.selectionLeases [⟨1, 2⟩] with
    | error e => simp [hleases, Except.toOption] at hsome
    | ok p =>
        have hselect : ∃ plan t, s.setRepositorySelection twoMoves [⟨1, 2⟩] false =
            .ok (plan, t) := by
          unfold State.setRepositorySelection
          rw [hleases]
          exact ⟨_, _, rfl⟩
        obtain ⟨plan, t, hselect⟩ := hselect
        obtain ⟨old, r, hleases', hrebuilds⟩ :=
          boundedDrift.2.2.2 twoMoves s t _ false plan twoMoves_limited hs hselect
        rw [hleases] at hleases'
        obtain rfl := Except.ok.inj hleases'
        exact ⟨s, t, plan, old, r, hs, hcpu, hleases, hselect, hrebuilds⟩

end Qw3.Store
