import Qw3.Store.Contiguous
import Qw3.Store.Keeping
import Qw3.Store.RepositorySelection

/-!
# The window plans of the two stores

The plan of `set_selection` and of `set_repository_selection`, from every
reachable state.

* `Legacy.windowInput`, `State.windowInput` — what the plan depends on.
* `windowPlans` — the plan is right if and only if the window fits.
* `leftBehind` — a block below the GPU stays in the working set of a legacy
  store; `truncatedBase` — a position past 31 bits is cut.
-/

namespace Qw3.Store

open Qw3.Repository (KvMemBlockHandle Repo)

/-! ## Without a repository -/

/-- What `set_selection` is given. -/
def Legacy.windowInput (s : Legacy) (ids : List ℕ) : WindowInput where
  n := s.blockCount
  present _ := true
  selected i := decide (i ∈ ids)
  earlier i j := decide ((s.blocks i).origPosStart < (s.blocks j).origPosStart)
  blocks := s.blocks

theorem Legacy.windowInput_ordered (s : Legacy) (ids : List ℕ) :
    (s.windowInput ids).Ordered false where
  asymm i j h := by
    have hlt := of_decide_eq_true h
    exact decide_eq_false (Nat.lt_asymm hlt)
  legacy _ _ := rfl

/-- The blocks in the order of their indices are in the order of the history. -/
theorem Legacy.Contiguous.lists {s : Legacy} (h : s.Contiguous) (ids : List ℕ) :
    (s.windowInput ids).Lists ((List.range s.blockCount).filter fun i => i ∈ ids) where
  mem i := by
    rw [List.mem_filter, List.mem_range]
    exact Iff.rfl
  chronological := by
    refine (List.pairwise_lt_range.filter _).imp_of_mem ?_
    intro i j hi hj hlt
    have hi := List.mem_range.mp (List.mem_filter.mp hi).1
    have hj := List.mem_range.mp (List.mem_filter.mp hj).1
    apply decide_eq_true
    rw [h.origPosStart i hi, h.origPosStart j hj]
    exact Nat.mul_lt_mul_of_pos_right hlt h.block_pos

/-! ## With a repository -/

section Bounded

variable {s t : State} {handles : List KvMemBlockHandle}

theorem State.earlier_strictWeak (hs : s.Inv) : StrictWeak s.earlier := (s.pool_ok hs 0).earlier

theorem State.windowInput_ordered (hs : s.Inv) (r : Repo) (handles : List KvMemBlockHandle) :
    (s.windowInput r handles).Ordered true where
  asymm := (State.earlier_strictWeak hs).asymm
  legacy h := by cases h

/-- A handle that is selected names a slot. -/
theorem slot_lt_of_current {g : KvMemBlockHandle} (h : g = s.repositoryHandle g.slot)
    (hne : g.generation ≠ 0) : g.slot < s.blockCount := by
  by_contra hnot
  apply hne
  rw [h]
  unfold State.repositoryHandle
  rw [if_neg hnot]
  rfl

/-- Two selected slots without an order between them are one. -/
theorem eq_of_not_earlier (hi : s.Identified)
    (hcurrent : ∀ g ∈ handles, g = s.repositoryHandle g.slot ∧ g.generation ≠ 0 ∧
      (s.repo.record g.slot).handle = g) {g g' : KvMemBlockHandle} (hg : g ∈ handles)
    (hg' : g' ∈ handles) (h : s.earlier g.slot g'.slot = false)
    (h' : s.earlier g'.slot g.slot = false) : g.slot = g'.slot := by
  obtain ⟨heq, hne, hrecord⟩ := hcurrent g hg
  obtain ⟨heq', hne', hrecord'⟩ := hcurrent g' hg'
  have hlt := slot_lt_of_current heq hne
  have hlt' := slot_lt_of_current heq' hne'
  have hgeneration : (s.blocks g.slot).repositoryGeneration ≠ 0 := by
    rw [heq, State.repositoryHandle_of_lt hlt] at hne
    exact hne
  unfold State.earlier at h h'
  refine hi.eq_of_logicalId hlt hlt' (hrecord.trans heq) (hrecord'.trans heq') hgeneration ?_
  -- Neither position is below the other, so the identities decide.
  split_ifs at h h' with hposition hposition'
  · have hnot := of_decide_eq_false h
    have hnot' := of_decide_eq_false h'
    omega
  · omega
  · omega
  · have hnot := of_decide_eq_false h
    have hnot' := of_decide_eq_false h'
    omega

theorem State.Identified.lists (hs : s.Inv) (hi : s.Identified) {old : List KvMemBlockHandle}
    {r : Repo} (h : SelectionLeases s handles old r) :
    (s.windowInput r handles).Lists
      (sortUnique s.earlier (handles.map KvMemBlockHandle.slot)) where
  mem i := by
    rw [mem_sortUnique]
    show _ ↔ i < s.blockCount ∧ decide (i ∈ handles.map KvMemBlockHandle.slot) = true
    rw [decide_eq_true_iff]
    refine (and_iff_right_of_imp ?_).symm
    intro hmem
    obtain ⟨g, hg, rfl⟩ := List.mem_map.mp hmem
    obtain ⟨hcurrent, hne, -⟩ := h.handles g hg
    exact slot_lt_of_current hcurrent hne
  chronological := by
    have hweak := State.earlier_strictWeak hs
    apply pairwise_sortUnique hweak.asymm hweak.negTrans
    intro i hmem j hmem' hij hji
    obtain ⟨g, hg, rfl⟩ := List.mem_map.mp hmem
    obtain ⟨g', hg', rfl⟩ := List.mem_map.mp hmem'
    refine eq_of_not_earlier hi ?_ hg hg' hij hji
    intro f hf
    obtain ⟨hcurrent, hne, -, hrecord⟩ := h.handles f hf
    exact ⟨hcurrent, hne, hrecord⟩

theorem packed_windowPlan (hs : s.Inv) (hi : s.Identified) {c : SelectionConfig} {force : Bool}
    {old : List KvMemBlockHandle} {r : Repo} (h : SelectionLeases s handles old r) :
    WindowPlan c (s.windowInput r handles) (s.packed c force r handles).1
      (s.packed c force r handles).2 ↔ WindowFits true (s.windowInput r handles) :=
  windowPlan_iff (hi.lists hs h) (State.windowInput_ordered hs r handles)

end Bounded

/-! ## Both -/

/-- **When a window plan is right**: from every reachable state of a store, with
or without a repository. -/
theorem windowPlans (force : Bool) :
    (∀ (s : Legacy) (ids : List ℕ), legacyMachine.Reachable s →
      (WindowPlan s.config.selection (s.windowInput ids) (s.setSelection ids force).1
          (s.setSelection ids force).2.blocks ↔ WindowFits false (s.windowInput ids))) ∧
    ∀ (c : SelectionConfig) (s t : State) (handles : List KvMemBlockHandle) (plan : KvMemPlan),
      (windowMachine c).Reachable s →
      s.setRepositorySelection c handles force = .ok (plan, t) →
        ∃ old r, s.selectionLeases handles = .ok (old, r) ∧
          (WindowPlan c (s.windowInput r handles) plan t.blocks ↔
            WindowFits true (s.windowInput r handles)) := by
  constructor
  · intro s ids hs
    have hcontiguous := Legacy.contiguous_invariant.reachable hs
    exact windowPlan_iff (hcontiguous.lists ids) (s.windowInput_ordered ids)
  · intro c s t handles plan hs h
    obtain ⟨hinv, hidentified⟩ := (window_invariant c).reachable hs
    obtain ⟨old, r, hleases, rfl, hseats, -⟩ := setRepositorySelection_eq_ok h
    refine ⟨old, r, hleases, ?_⟩
    rw [hseats.blocks]
    exact packed_windowPlan hinv hidentified (selectionLeases_spec hinv.ok hleases)

/-- A block that is promoted and selected again, and two blocks of a bounded store
of which the later is named first, and twice. -/
theorem windowPlans_afterReselection :
    (∃ s : Legacy, legacyMachine.Reachable s ∧ (s.blocks 0).bakedPos ≠ (s.blocks 0).origPosStart ∧
      WindowPlan s.config.selection (s.windowInput [1, 0, 9]) (s.setSelection [1, 0, 9] false).1
        (s.setSelection [1, 0, 9] false).2.blocks) ∧
    ∃ (s t : State) (plan : KvMemPlan) (old : List KvMemBlockHandle) (r : Repo),
      (windowMachine smallLegacy.selection).Reachable s ∧
      s.selectionLeases [⟨1, 2⟩, ⟨0, 1⟩, ⟨1, 2⟩] = .ok (old, r) ∧
      s.setRepositorySelection smallLegacy.selection [⟨1, 2⟩, ⟨0, 1⟩, ⟨1, 2⟩] false =
        .ok (plan, t) ∧
      WindowPlan smallLegacy.selection (s.windowInput r [⟨1, 2⟩, ⟨0, 1⟩, ⟨1, 2⟩]) plan
        t.blocks := by
  constructor
  · have hrun : (legacyMachine.run (.initial smallLegacy)
        [.registerAppend 10, .setSelection [1, 2] false, .setBlockTier 0 .cpu 0 (-1),
          .setBlockTier 0 .gpu (-1) (-1), .setBlockBakedPos 0 4]).any (fun s =>
          decide ((s.blocks 0).bakedPos ≠ (s.blocks 0).origPosStart ∧
            WindowFits false (s.windowInput [1, 0, 9]))) = true := by
      decide +kernel
    obtain ⟨s, hs, hcheck⟩ := legacyMachine.exists_reachable ⟨smallLegacy, by decide, rfl⟩ hrun
    obtain ⟨hbaked, hfits⟩ := of_decide_eq_true hcheck
    exact ⟨s, hs, hbaked, ((windowPlans false).1 s _ hs).mpr hfits⟩
  · let fits : State → Bool := fun s =>
      match s.selectionLeases [⟨1, 2⟩, ⟨0, 1⟩, ⟨1, 2⟩] with
      | .ok p => decide (WindowFits true (s.windowInput p.2 [⟨1, 2⟩, ⟨0, 1⟩, ⟨1, 2⟩]))
      | .error _ => false
    have hrun : ((windowMachine smallLegacy.selection).run (State.initial ⟨4, true⟩ ⟨4, 4⟩)
        [.call (.prepareAppend 10 0), .call (.commitAppend 10),
          .setRepositorySelection [⟨2, 3⟩, ⟨1, 2⟩] false]).any fits = true := by
      decide +kernel
    obtain ⟨s, hs, hcheck⟩ := (windowMachine smallLegacy.selection).exists_reachable
      ⟨_, _, validConfig_small, rfl⟩ hrun
    cases hleases : s.selectionLeases [⟨1, 2⟩, ⟨0, 1⟩, ⟨1, 2⟩] with
    | error e => simp [fits, hleases] at hcheck
    | ok p =>
        simp only [fits, hleases] at hcheck
        have hselect : ∃ plan t, s.setRepositorySelection smallLegacy.selection
            [⟨1, 2⟩, ⟨0, 1⟩, ⟨1, 2⟩] false = .ok (plan, t) := by
          unfold State.setRepositorySelection
          rw [hleases]
          exact ⟨_, _, rfl⟩
        obtain ⟨plan, t, hselect⟩ := hselect
        obtain ⟨old, r, hleases', hiff⟩ := (windowPlans false).2 _ s t _ plan hs hselect
        rw [hleases] at hleases'
        obtain rfl := Except.ok.inj hleases'
        exact ⟨s, t, plan, old, r, hs, hleases, hselect, hiff.mpr (of_decide_eq_true hcheck)⟩

/-- A block of the window that went below the GPU is not selected again, and
stays in the working set; and a block past `INT32_MAX` has a negative
`from_base`. -/
theorem windowPlan_leftBehind :
    (∃ s : Legacy, legacyMachine.Reachable s ∧
      ((s.setSelection [0] false).2.blocks 1).inWorkingSet = true ∧
      ¬ WindowPlan s.config.selection (s.windowInput [0]) (s.setSelection [0] false).1
        (s.setSelection [0] false).2.blocks) ∧
    ∃ s : Legacy, legacyMachine.Reachable s ∧ (s.blocks 1).bakedPos = 2 ^ 31 ∧
      ((s.setSelection [1] false).1.remaps.map KvMemRemap.fromBase) = [-2 ^ 31] ∧
      ¬ WindowPlan s.config.selection (s.windowInput [1]) (s.setSelection [1] false).1
        (s.setSelection [1] false).2.blocks := by
  constructor
  · have hrun : (legacyMachine.run (.initial smallLegacy)
        [.registerAppend 8, .setSelection [0, 1] false, .setBlockTier 1 .cpu 0 (-1)]).any (fun s =>
          decide (1 < s.blockCount ∧
            ((s.setSelection [0] false).2.blocks 1).inWorkingSet = true)) = true := by
      decide +kernel
    obtain ⟨s, hs, hcheck⟩ := legacyMachine.exists_reachable ⟨smallLegacy, by decide, rfl⟩ hrun
    obtain ⟨hlt, hworking⟩ := of_decide_eq_true hcheck
    refine ⟨s, hs, hworking, ?_⟩
    intro hplan
    have hselected : decide (1 ∈ [0]) = true := (hplan.workingSet 1 hlt rfl).mp hworking
    exact absurd hselected (by decide)
  · have hrun : (legacyMachine.run (.initial ⟨⟨2 ^ 31, true⟩, smallLegacy.selection⟩)
        [.registerAppend (2 ^ 31 + 1)]).any (fun s =>
          decide ((s.blocks 1).bakedPos = 2 ^ 31 ∧ ((s.setSelection [1] false).1.remaps.map
            fun rm => (rm.blockId, rm.fromBase)) = [(1, -2 ^ 31)])) = true := by
      decide +kernel
    obtain ⟨s, hs, hcheck⟩ := legacyMachine.exists_reachable
      ⟨⟨⟨2 ^ 31, true⟩, smallLegacy.selection⟩, by decide, rfl⟩ hrun
    obtain ⟨hbaked, hremaps⟩ := of_decide_eq_true hcheck
    refine ⟨s, hs, hbaked, ?_, ?_⟩
    · have hmap := congrArg (List.map Prod.snd) hremaps
      rwa [List.map_map] at hmap
    · intro hplan
      have hmem : (1, -2 ^ 31) ∈ (s.setSelection [1] false).1.remaps.map
          fun rm => (rm.blockId, rm.fromBase) := by
        rw [hremaps]
        exact List.mem_singleton.mpr rfl
      obtain ⟨rm, hrm, heq⟩ := List.mem_map.mp hmem
      obtain ⟨hid, hfrom⟩ := Prod.mk.inj heq
      have hkept := hplan.fromBase rm hrm
      rw [hid, hfrom] at hkept
      have hbase := hkept.trans hbaked
      norm_num at hbase

end Qw3.Store
