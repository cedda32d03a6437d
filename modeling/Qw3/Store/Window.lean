import Mathlib.Algebra.Order.Ring.Int
import Qw3.Lib.SortUnique
import Qw3.Store.Selection

/-!
# The plan of a window

What a selection promises about its remaps and about the blocks it leaves, and
exactly when it keeps the promise.

* `selectionImpl` — `set_selection_impl` with or without a repository.
* `placed` — the selected blocks at their window positions; `selectLoop_spec`.
* `WindowPlan` — the promise; `WindowFits`, `windowPlan_iff` — it holds if and
  only if the positions fit 32 bits and no block is left behind in the working set.
-/

namespace Qw3.Store

/-! ## The selection -/

/-- A block after the stage-out pass of a store; in a repository, a slot that is
not live is passed over, and a block that is not selected leaves the working set. -/
def KvMemBlock.passed (c : SelectionConfig) (repository live selected : Bool) (b : KvMemBlock) :
    KvMemBlock :=
  if repository && !live then b
  else (if repository && !selected then { b with inWorkingSet := false } else b).stagedOut c selected

/-- `set_selection_impl`, from the sorted list of the selected blocks on. -/
def selectionImpl (c : SelectionConfig) (force repository : Bool) (live : ℕ → Bool) (n : ℕ)
    (nowSelected : ℕ → Bool) (ids : List ℕ) (blocks : ℕ → KvMemBlock) :
    KvMemPlan × (ℕ → KvMemBlock) :=
  let out := (List.range n).filter fun i =>
    (!repository || live i) && leavesGpu c (nowSelected i) (blocks i)
  let packed := selectLoop c force ids 0 fun i =>
    (blocks i).passed c repository (live i) (nowSelected i)
  ({ packed.1 with stageOut := out }, packed.2)

namespace KvMemBlock

variable (c : SelectionConfig) (repository live selected : Bool) (b : KvMemBlock)

/-- The pass touches the working set only. -/
theorem passed_eq : ∃ w, b.passed c repository live selected = { b with inWorkingSet := w } := by
  unfold passed stagedOut
  split_ifs
  · exact ⟨_, rfl⟩
  · exact ⟨_, rfl⟩
  · exact ⟨_, rfl⟩
  · exact ⟨_, rfl⟩
  · exact ⟨_, rfl⟩

theorem passed_nTokens : (b.passed c repository live selected).nTokens = b.nTokens := by
  obtain ⟨w, hw⟩ := passed_eq c repository live selected b
  rw [hw]

theorem remapOf_passed (force : Bool) (id window : ℕ) :
    remapOf c force id window (b.passed c repository live selected) =
      remapOf c force id window b := by
  obtain ⟨w, hw⟩ := passed_eq c repository live selected b
  rw [hw]
  rfl

end KvMemBlock

/-! ## Packing -/

/-- The tokens of a list of blocks. -/
def tokens (blocks : ℕ → KvMemBlock) (l : List ℕ) : ℕ := (l.map fun i => (blocks i).nTokens).sum

/-- Blocks with their window positions. -/
def placed (blocks : ℕ → KvMemBlock) : List ℕ → ℕ → List (ℕ × ℕ)
  | [], _ => []
  | id :: rest, window => (id, window) :: placed blocks rest (window + (blocks id).nTokens)

section Packing

variable {blocks blocks' : ℕ → KvMemBlock} {c : SelectionConfig} {force : Bool} {ids : List ℕ}
  {window : ℕ}

theorem placed_congr (h : ∀ i ∈ ids, (blocks' i).nTokens = (blocks i).nTokens) :
    placed blocks' ids window = placed blocks ids window := by
  induction ids generalizing window with
  | nil => rfl
  | cons id rest ih =>
      rw [placed, placed, h id List.mem_cons_self]
      exact congrArg _ (ih fun i hi => h i (List.mem_cons_of_mem _ hi))

theorem placed_fst : (placed blocks ids window).map Prod.fst = ids := by
  induction ids generalizing window with
  | nil => rfl
  | cons id rest ih => rw [placed, List.map_cons, ih]

/-- The position of each block: what the earlier ones take. -/
theorem placed_getElem? (k : ℕ) : (placed blocks ids window)[k]? =
    ids[k]?.map fun i => (i, window + tokens blocks (ids.take k)) := by
  induction ids generalizing window k with
  | nil => rfl
  | cons id rest ih =>
      cases k with
      | zero => rfl
      | succ k =>
          rw [placed, List.getElem?_cons_succ, List.getElem?_cons_succ, ih, List.take_succ_cons]
          unfold tokens
          rw [List.map_cons, List.sum_cons, Nat.add_assoc]

/-- **The packing loop.**  Each selected block is remapped once, as it was
before. -/
theorem selectLoop_spec (hids : ids.Nodup) :
    (selectLoop c force ids window blocks).1.remaps =
        (placed blocks ids window).map (fun p => remapOf c force p.1 p.2 (blocks p.1)) ∧
      (selectLoop c force ids window blocks).1.totalWindowTokens = window + tokens blocks ids ∧
      (∀ i ∉ ids, (selectLoop c force ids window blocks).2 i = blocks i) ∧
      ∀ p ∈ placed blocks ids window, (selectLoop c force ids window blocks).2 p.1 =
        (blocks p.1).remapped (remapOf c force p.1 p.2 (blocks p.1)) p.2 := by
  induction ids generalizing window blocks with
  | nil =>
      refine ⟨rfl, rfl, fun i _ => rfl, ?_⟩
      intro p hp
      cases hp
  | cons id rest ih =>
      obtain ⟨hid, hrest⟩ := List.nodup_cons.mp hids
      let b := (blocks id).remapped (remapOf c force id window (blocks id)) window
      have hother : ∀ i ∈ rest, Function.update blocks id b i = blocks i := by
        intro i hi
        apply Function.update_of_ne
        intro heq
        rw [heq] at hi
        exact hid hi
      have hplaced : placed (Function.update blocks id b) rest (window + (blocks id).nTokens) =
          placed blocks rest (window + (blocks id).nTokens) :=
        placed_congr fun i hi => congrArg KvMemBlock.nTokens (hother i hi)
      have hmem : ∀ p ∈ placed blocks rest (window + (blocks id).nTokens), p.1 ∈ rest := by
        intro p hp
        have hfst : p.1 ∈ (placed blocks rest (window + (blocks id).nTokens)).map Prod.fst :=
          List.mem_map_of_mem hp
        rwa [placed_fst] at hfst
      obtain ⟨hremaps, htotal, hkept, hmoved⟩ :=
        @ih (Function.update blocks id b) (window + (blocks id).nTokens) hrest
      rw [hplaced] at hremaps hmoved
      refine ⟨?_, ?_, ?_, ?_⟩
      · rw [placed, List.map_cons]
        refine congrArg _ (hremaps.trans ?_)
        refine List.map_congr_left ?_
        intro p hp
        rw [hother _ (hmem p hp)]
      · refine htotal.trans ?_
        have hsame : tokens (Function.update blocks id b) rest = tokens blocks rest := by
          unfold tokens
          exact congrArg _ (List.map_congr_left fun i hi =>
            congrArg KvMemBlock.nTokens (hother i hi))
        rw [hsame]
        unfold tokens
        rw [List.map_cons, List.sum_cons, Nat.add_assoc]
      · intro i hi
        rw [List.mem_cons, not_or] at hi
        obtain ⟨hne, hnot⟩ := hi
        exact (hkept i hnot).trans (Function.update_of_ne hne _ _)
      · intro p hp
        rcases List.mem_cons.mp hp with rfl | hp
        · exact (hkept id hid).trans (Function.update_self _ _ _)
        · refine (hmoved p hp).trans ?_
          rw [hother _ (hmem p hp)]

end Packing

/-! ## The promise -/

/-- What a selection is given: the blocks, which of them are there, which are
selected, and their order in the history. -/
structure WindowInput where
  n : ℕ
  present : ℕ → Bool
  selected : ℕ → Bool
  earlier : ℕ → ℕ → Bool
  blocks : ℕ → KvMemBlock

namespace WindowInput

variable (w : WindowInput)

/-- The blocks that the selection keeps. -/
def kept : List ℕ := (List.range w.n).filter w.selected

/-- The tokens of the selected blocks that are earlier than a block. -/
def tokensBefore (i : ℕ) : ℕ :=
  tokens w.blocks ((List.range w.n).filter fun j => w.selected j && w.earlier j i)

/-- The order of the history is strict; without a repository every block is
there. -/
structure Ordered (repository : Bool) : Prop where
  asymm : ∀ i j, w.earlier i j = true → w.earlier j i = false
  legacy : repository = false → ∀ i, w.present i = true

end WindowInput

/-- **The plan of a window.**  Each selected block has one remap, in
chronological order, from where it is baked to the end of the earlier ones; what
else is resident is staged out; only what is in place is skipped; and
afterwards the window is the working set. -/
structure WindowPlan (c : SelectionConfig) (w : WindowInput) (plan : KvMemPlan)
    (blocks' : ℕ → KvMemBlock) : Prop where
  chronological : (plan.remaps.map KvMemRemap.blockId).Pairwise fun i j => w.earlier i j = true
  members : ∀ i, i ∈ plan.remaps.map KvMemRemap.blockId ↔ i < w.n ∧ w.selected i = true
  toBase : ∀ rm ∈ plan.remaps, rm.toBase = w.tokensBefore rm.blockId
  total : plan.totalWindowTokens = tokens w.blocks w.kept
  fromBase : ∀ rm ∈ plan.remaps, rm.fromBase = (w.blocks rm.blockId).bakedPos
  stageOut : ∀ i, i ∈ plan.stageOut ↔ i < w.n ∧ w.present i = true ∧ (w.blocks i).tier = .gpu ∧
    (w.selected i = false ∨ c.optimizeStageIn = false)
  stageOut_nodup : plan.stageOut.Nodup
  skip : ∀ rm ∈ plan.remaps, rm.skip = true →
    (c.immutableSourceK = true → (w.blocks rm.blockId).tier = .gpu) ∧
      (w.blocks rm.blockId).bakedPos = rm.toBase
  baked : ∀ rm ∈ plan.remaps, (blocks' rm.blockId).bakedPos = rm.toBase
  workingSet : ∀ i < w.n, w.present i = true →
    ((blocks' i).inWorkingSet = true ↔ w.selected i = true)

/-- A position that a remap can hold. -/
def FitsInt32 (x : ℤ) : Prop := -2 ^ 31 ≤ x ∧ x < 2 ^ 31

instance (x : ℤ) : Decidable (FitsInt32 x) := inferInstanceAs (Decidable (_ ∧ _))

/-- When the promise is kept: the positions fit a remap, and a legacy store has
no block below the GPU that is left behind in the working set. -/
structure WindowFits (repository : Bool) (w : WindowInput) : Prop where
  fromBase : ∀ i < w.n, w.selected i = true → FitsInt32 (w.blocks i).bakedPos
  toBase : ∀ i < w.n, w.selected i = true → FitsInt32 (w.tokensBefore i)
  left : repository = false → ∀ i < w.n, (w.blocks i).inWorkingSet = true →
    w.selected i = false → (w.blocks i).tier = .gpu

instance (repository : Bool) (w : WindowInput) : Decidable (WindowFits repository w) :=
  decidable_of_iff ((∀ i < w.n, w.selected i = true → FitsInt32 (w.blocks i).bakedPos) ∧
      (∀ i < w.n, w.selected i = true → FitsInt32 (w.tokensBefore i)) ∧
      (repository = false → ∀ i < w.n, (w.blocks i).inWorkingSet = true →
        w.selected i = false → (w.blocks i).tier = .gpu))
    ⟨fun h => ⟨h.1, h.2.1, h.2.2⟩, fun h => ⟨h.fromBase, h.toBase, h.left⟩⟩

theorem toInt32_eq_iff {x : ℤ} : toInt32 x = x ↔ FitsInt32 x := by
  unfold toInt32 FitsInt32
  rw [Int.bmod_def]
  split_ifs
  · omega
  · omega

section Plan

variable {c : SelectionConfig} {force repository : Bool} {w : WindowInput} {ids : List ℕ}

/-- The list that is packed: the selected blocks in chronological order. -/
structure WindowInput.Lists (w : WindowInput) (ids : List ℕ) : Prop where
  mem : ∀ i, i ∈ ids ↔ i < w.n ∧ w.selected i = true
  chronological : ids.Pairwise fun i j => w.earlier i j = true

theorem WindowInput.Lists.nodup (h : w.Lists ids) (hw : w.Ordered repository) : ids.Nodup := by
  apply h.chronological.imp
  rintro i j hearlier rfl
  have hnot := hw.asymm i i hearlier
  rw [hearlier] at hnot
  cases hnot

/-- What precedes a block in the list is what is earlier. -/
theorem WindowInput.Lists.mem_take (h : w.Lists ids) (hw : w.Ordered repository) {k i j : ℕ}
    (hk : ids[k]? = some i) : j ∈ ids.take k ↔ j ∈ ids ∧ w.earlier j i = true := by
  obtain ⟨hlt, hget⟩ := List.getElem?_eq_some_iff.mp hk
  have hsplit : ids = ids.take k ++ i :: ids.drop (k + 1) := by
    rw [← hget, ← List.drop_eq_getElem_cons hlt, List.take_append_drop]
  have hpairwise := h.chronological
  rw [hsplit, List.pairwise_append] at hpairwise
  obtain ⟨-, hdrop, hacross⟩ := hpairwise
  constructor
  · intro hj
    exact ⟨List.mem_of_mem_take hj, hacross j hj i List.mem_cons_self⟩
  · rintro ⟨hj, hearlier⟩
    rw [hsplit, List.mem_append] at hj
    rcases hj with hj | hj
    · exact hj
    · exfalso
      have hnot := hw.asymm j i hearlier
      rcases List.mem_cons.mp hj with rfl | hj
      · rw [hearlier] at hnot
        cases hnot
      · rw [(List.pairwise_cons.mp hdrop).1 j hj] at hnot
        cases hnot

theorem tokens_perm {blocks : ℕ → KvMemBlock} {l l' : List ℕ} (h : l.Perm l') :
    tokens blocks l = tokens blocks l' := (h.map _).sum_nat

/-- The positions are the tokens of what is earlier. -/
theorem WindowInput.Lists.mem_placed (h : w.Lists ids) (hw : w.Ordered repository) {p : ℕ × ℕ} :
    p ∈ placed w.blocks ids 0 ↔ p.1 ∈ ids ∧ p.2 = w.tokensBefore p.1 := by
  have hposition : ∀ k i, ids[k]? = some i → tokens w.blocks (ids.take k) = w.tokensBefore i := by
    intro k i hk
    apply tokens_perm
    have hnodup := (h.nodup hw).sublist (List.take_sublist k ids)
    refine (List.perm_ext_iff_of_nodup hnodup (List.nodup_range.filter _)).mpr ?_
    intro j
    rw [h.mem_take hw hk, h.mem, List.mem_filter, List.mem_range, Bool.and_eq_true, and_assoc]
  constructor
  · intro hp
    obtain ⟨k, hk⟩ := List.mem_iff_getElem?.mp hp
    rw [placed_getElem?, Option.map_eq_some_iff] at hk
    obtain ⟨i, hk, rfl⟩ := hk
    exact ⟨List.mem_of_getElem? hk, by rw [Nat.zero_add, hposition k i hk]⟩
  · rintro ⟨hp, heq⟩
    obtain ⟨k, hk⟩ := List.mem_iff_getElem?.mp hp
    refine List.mem_iff_getElem?.mpr ⟨k, ?_⟩
    rw [placed_getElem?, hk, Option.map_some, Nat.zero_add, hposition k p.1 hk, ← heq]

/-! ## What the selection does -/

theorem mem_remaps (h : w.Lists ids) (hw : w.Ordered repository) {rm : KvMemRemap} :
    rm ∈ (selectionImpl c force repository w.present w.n w.selected ids w.blocks).1.remaps ↔
      ∃ i ∈ ids, rm = remapOf c force i (w.tokensBefore i) (w.blocks i) := by
  unfold selectionImpl
  dsimp only
  rw [(selectLoop_spec (h.nodup hw)).1, List.mem_map]
  have hplaced : placed (fun i => (w.blocks i).passed c repository (w.present i) (w.selected i))
      ids 0 = placed w.blocks ids 0 := by
    apply placed_congr
    intro i hi
    exact KvMemBlock.passed_nTokens ..
  rw [hplaced]
  constructor
  · rintro ⟨p, hp, rfl⟩
    obtain ⟨hi, heq⟩ := (h.mem_placed hw).mp hp
    exact ⟨p.1, hi, by rw [KvMemBlock.remapOf_passed, heq]⟩
  · rintro ⟨i, hi, rfl⟩
    refine ⟨(i, w.tokensBefore i), (h.mem_placed hw).mpr ⟨hi, rfl⟩, ?_⟩
    rw [KvMemBlock.remapOf_passed]

theorem remaps_blockId (hids : ids.Nodup) :
    (selectionImpl c force repository w.present w.n w.selected ids w.blocks).1.remaps.map
      KvMemRemap.blockId = ids := by
  unfold selectionImpl
  dsimp only
  rw [(selectLoop_spec hids).1, List.map_map]
  exact placed_fst

theorem selectionImpl_total (h : w.Lists ids) (hw : w.Ordered repository) :
    (selectionImpl c force repository w.present w.n w.selected ids w.blocks).1.totalWindowTokens =
      tokens w.blocks w.kept := by
  unfold selectionImpl
  dsimp only
  rw [(selectLoop_spec (h.nodup hw)).2.1, Nat.zero_add]
  have htokens : ∀ l : List ℕ,
      tokens (fun i => (w.blocks i).passed c repository (w.present i) (w.selected i)) l =
        tokens w.blocks l := by
    intro l
    refine congrArg List.sum (List.map_congr_left ?_)
    intro i _
    exact KvMemBlock.passed_nTokens ..
  rw [htokens]
  apply tokens_perm
  refine (List.perm_ext_iff_of_nodup (h.nodup hw) (List.nodup_range.filter _)).mpr ?_
  intro i
  rw [h.mem, List.mem_filter, List.mem_range]

/-- A selected block is remapped from where the pass left it. -/
theorem selectionImpl_selected (h : w.Lists ids) (hw : w.Ordered repository) {i : ℕ}
    (hi : i ∈ ids) :
    (selectionImpl c force repository w.present w.n w.selected ids w.blocks).2 i =
      (w.blocks i).remapped (remapOf c force i (w.tokensBefore i) (w.blocks i))
        (w.tokensBefore i) := by
  let passed := fun i => (w.blocks i).passed c repository (w.present i) (w.selected i)
  have hplaced : placed passed ids 0 = placed w.blocks ids 0 := by
    apply placed_congr
    intro i hi
    exact KvMemBlock.passed_nTokens ..
  have hmem : (i, w.tokensBefore i) ∈ placed passed ids 0 := by
    rw [hplaced]
    exact (h.mem_placed hw).mpr ⟨hi, rfl⟩
  refine ((selectLoop_spec (h.nodup hw)).2.2.2 _ hmem).trans ?_
  show (passed i).remapped (remapOf c force i (w.tokensBefore i) (passed i)) _ = _
  have hremap : remapOf c force i (w.tokensBefore i) (passed i) =
      remapOf c force i (w.tokensBefore i) (w.blocks i) := KvMemBlock.remapOf_passed ..
  rw [hremap]
  obtain ⟨v, hv⟩ := KvMemBlock.passed_eq c repository (w.present i) (w.selected i) (w.blocks i)
  show (KvMemBlock.passed c repository (w.present i) (w.selected i) (w.blocks i)).remapped _ _ = _
  rw [hv]
  rfl

/-- Any other block is as the pass left it. -/
theorem selectionImpl_other (hids : ids.Nodup) {i : ℕ} (hi : i ∉ ids) :
    (selectionImpl c force repository w.present w.n w.selected ids w.blocks).2 i =
      (w.blocks i).passed c repository (w.present i) (w.selected i) :=
  (selectLoop_spec hids).2.2.1 i hi

theorem mem_stageOut (hw : w.Ordered repository) {i : ℕ} :
    i ∈ (selectionImpl c force repository w.present w.n w.selected ids w.blocks).1.stageOut ↔
      i < w.n ∧ w.present i = true ∧ (w.blocks i).tier = .gpu ∧
        (w.selected i = false ∨ c.optimizeStageIn = false) := by
  unfold selectionImpl leavesGpu
  dsimp only
  rw [List.mem_filter, List.mem_range]
  have hpresent : (!repository || w.present i) = w.present i := by
    cases hrepository : repository with
    | false => rw [hw.legacy hrepository i]; rfl
    | true => rfl
  rw [hpresent, Bool.and_eq_true, Bool.and_eq_true, Bool.or_eq_true, Bool.not_eq_true',
    Bool.not_eq_true', decide_eq_true_iff]

/-- What is not selected and is present leaves the working set, but for a block
of a legacy store below the GPU. -/
theorem passed_inWorkingSet {live : Bool} (hlive : repository = true → live = true)
    {b : KvMemBlock} : (b.passed c repository live false).inWorkingSet = true ↔
      repository = false ∧ b.inWorkingSet = true ∧ b.tier ≠ .gpu := by
  unfold KvMemBlock.passed KvMemBlock.stagedOut leavesGpu
  cases repository with
  | false =>
      simp only [Bool.false_and, Bool.false_eq_true, if_false, Bool.not_false, Bool.true_or,
        Bool.and_true, decide_eq_true_eq, true_and]
      split_ifs with hgpu
      · simp [hgpu]
      · simp [hgpu]
  | true =>
      rw [hlive rfl]
      simp only [Bool.not_true, Bool.and_false, Bool.false_eq_true, if_false, Bool.not_false,
        Bool.and_true, if_true, false_and, Bool.true_or, decide_eq_true_eq, Bool.true_eq_false]
      split_ifs
      · simp
      · simp

section Remap

variable {id window : ℕ} {b : KvMemBlock}

theorem remapOf_blockId : (remapOf c force id window b).blockId = id := rfl

theorem remapOf_fromBase : (remapOf c force id window b).fromBase = toInt32 b.bakedPos := rfl

theorem remapOf_toBase : (remapOf c force id window b).toBase = toInt32 window := by
  unfold remapOf
  with_reducible rfl

/-- A remap that is skipped has its block in place. -/
theorem remapOf_skip (h : (remapOf c force id window b).skip = true) :
    b.bakedPos = window ∧ (c.immutableSourceK = true → b.tier = .gpu) := by
  unfold remapOf at h
  simp only [Bool.and_eq_true, Bool.or_eq_true, Bool.not_eq_true', Bool.or_eq_false_iff,
    decide_eq_true_iff, decide_eq_false_iff_not, not_not] at h
  refine ⟨h.1.1, ?_⟩
  intro himmutable
  rcases h.1.2 with hnot | ⟨hgpu, -⟩
  · rw [himmutable] at hnot
    cases hnot
  · exact hgpu

end Remap

/-- **When the plan is right.** -/
theorem windowPlan_iff (h : w.Lists ids) (hw : w.Ordered repository) :
    WindowPlan c w
        (selectionImpl c force repository w.present w.n w.selected ids w.blocks).1
        (selectionImpl c force repository w.present w.n w.selected ids w.blocks).2 ↔
      WindowFits repository w := by
  have hnodup := h.nodup hw
  constructor
  · intro hplan
    refine ⟨?_, ?_, ?_⟩
    · intro i hi hselected
      have hfrom := hplan.fromBase _
        ((mem_remaps h hw).mpr ⟨i, (h.mem i).mpr ⟨hi, hselected⟩, rfl⟩)
      rw [remapOf_fromBase, remapOf_blockId] at hfrom
      exact toInt32_eq_iff.mp hfrom
    · intro i hi hselected
      have hto := hplan.toBase _
        ((mem_remaps h hw).mpr ⟨i, (h.mem i).mpr ⟨hi, hselected⟩, rfl⟩)
      rw [remapOf_toBase, remapOf_blockId] at hto
      exact toInt32_eq_iff.mp hto
    · intro hrepository i hi hworking hselected
      by_contra hgpu
      have hnot : i ∉ ids := by
        rw [h.mem, hselected]
        rintro ⟨-, hfalse⟩
        cases hfalse
      have hstays : ((w.blocks i).passed c repository (w.present i) false).inWorkingSet = true :=
        (passed_inWorkingSet fun htrue => by rw [hrepository] at htrue; cases htrue).mpr
          ⟨hrepository, hworking, hgpu⟩
      have hafter := (hplan.workingSet i hi (hw.legacy hrepository i)).mp (by
        rw [selectionImpl_other hnodup hnot, hselected]
        exact hstays)
      rw [hselected] at hafter
      cases hafter
  · intro hfits
    have hremap : ∀ rm ∈
        (selectionImpl c force repository w.present w.n w.selected ids w.blocks).1.remaps,
        ∃ i ∈ ids, rm = remapOf c force i (w.tokensBefore i) (w.blocks i) ∧
          rm.toBase = w.tokensBefore i ∧ rm.fromBase = (w.blocks i).bakedPos := by
      intro rm hrm
      obtain ⟨i, hi, rfl⟩ := (mem_remaps h hw).mp hrm
      obtain ⟨hlt, hselected⟩ := (h.mem i).mp hi
      rw [remapOf_toBase, remapOf_fromBase]
      exact ⟨i, hi, rfl, toInt32_eq_iff.mpr (hfits.toBase i hlt hselected),
        toInt32_eq_iff.mpr (hfits.fromBase i hlt hselected)⟩
    constructor
    case chronological =>
      rw [remaps_blockId hnodup]
      exact h.chronological
    case members =>
      rw [remaps_blockId hnodup]
      exact h.mem
    case toBase =>
      intro rm hrm
      obtain ⟨i, -, rfl, hto, -⟩ := hremap rm hrm
      exact hto
    case total => exact selectionImpl_total h hw
    case fromBase =>
      intro rm hrm
      obtain ⟨i, -, rfl, -, hfrom⟩ := hremap rm hrm
      exact hfrom
    case stageOut => exact fun i => mem_stageOut hw
    case stageOut_nodup => exact List.nodup_range.filter _
    case skip =>
      intro rm hrm hskip
      obtain ⟨i, -, rfl, hto, -⟩ := hremap rm hrm
      obtain ⟨hbaked, hgpu⟩ := remapOf_skip hskip
      exact ⟨hgpu, hbaked.trans hto.symm⟩
    case baked =>
      intro rm hrm
      obtain ⟨i, hi, rfl, hto, -⟩ := hremap rm hrm
      rw [hto]
      exact congrArg KvMemBlock.bakedPos (selectionImpl_selected h hw hi)
    case workingSet =>
      intro i hi hpresent
      by_cases hselected : w.selected i = true
      · rw [selectionImpl_selected h hw ((h.mem i).mpr ⟨hi, hselected⟩), hselected]
        exact Iff.rfl
      · rw [Bool.not_eq_true] at hselected
        have hnot : i ∉ ids := by
          rw [h.mem, hselected]
          rintro ⟨-, hfalse⟩
          cases hfalse
        rw [selectionImpl_other hnodup hnot, hselected, passed_inWorkingSet fun _ => hpresent]
        constructor
        · rintro ⟨hrepository, hworking, hgpu⟩
          exact absurd (hfits.left hrepository i hi hworking hselected) hgpu
        · intro hfalse
          cases hfalse

end Plan

end Qw3.Store
