import Mathlib.Data.List.Sort
import Mathlib.Order.Lattice.Nat
import Qw3.Lib.Marks

/-!
# Fitting the mandatory blocks into the budget

`kvmem_fit_mandatory_blocks` of `kvmem_request_plan.hpp`.

* `KvmemMandatoryFitInput.raw` — the raw mandatory set: the sink prefix, the
  hard spans and the live interval, clipped to the prompt.
* `Fit.addBlock` — the source's `add_block`; every phase of the allocation is a
  sequence of such calls.
* `roundRobin` — the `while (progress)` loop of one priority, with fuel.
* `kvmemFitMandatoryBlocks` — the whole function; `none` where the fuel does
  not last.
* `mandatoryFit` — what it returns, for every input.

Marks are predicates on block IDs; the source's vectors of bytes are their
restrictions to the prompt.
-/

namespace Qw3.Plan

/-- `KvmemMandatoryBlockSpan`. -/
structure KvmemMandatoryBlockSpan where
  first : ℕ
  stop : ℕ
  priority : ℕ
  deriving DecidableEq, Repr

/-- `KvmemMandatoryFitInput`. -/
structure KvmemMandatoryFitInput where
  promptBlocks : ℕ
  budgetBlocks : ℕ
  sinkBlocks : ℕ
  recentBlocks : ℕ
  hardSpans : List KvmemMandatoryBlockSpan
  liveBegin : ℕ
  liveEnd : ℕ
  deriving DecidableEq, Repr

/-- `KvmemMandatoryFitResult`. -/
structure KvmemMandatoryFitResult where
  hardBlocks : List ℕ
  rawMandatoryBlocks : ℕ
  rawLiveBlocks : ℕ
  fittedLiveBlocks : ℕ
  softRetrievableBlocks : ℕ
  retrievalReserveBlocks : ℕ
  replayBeginBlock : ℕ
  capacityFitted : Bool
  deriving DecidableEq, Repr

/-- `KvmemMandatoryFitResult{}`. -/
def KvmemMandatoryFitResult.zero : KvmemMandatoryFitResult := ⟨[], 0, 0, 0, 0, 0, 0, false⟩

/-- How many blocks of the prompt are marked. -/
def markCount (prompt : ℕ) (marks : ℕ → Bool) : ℕ := (List.range prompt).countP marks

/-- The marked blocks, in ascending order. -/
def markedBlocks (prompt : ℕ) (marks : ℕ → Bool) : List ℕ := (List.range prompt).filter marks

/-- `mark_range`. -/
def markRange (prompt : ℕ) (marks : ℕ → Bool) (first stop : ℕ) : ℕ → Bool := fun id =>
  marks id || (decide (min first prompt ≤ id) && decide (id < min stop prompt))

namespace KvmemMandatoryFitInput

variable (i : KvmemMandatoryFitInput)

/-- The live interval, clipped to the prompt. -/
def live (id : ℕ) : Bool :=
  decide (min i.liveBegin i.promptBlocks ≤ id) && decide (id < min i.liveEnd i.promptBlocks)

/-- `has_live`. -/
def HasLive : Prop := min i.liveBegin i.promptBlocks < min i.liveEnd i.promptBlocks

instance : Decidable i.HasLive := inferInstanceAs (Decidable (_ < _))

/-- The raw mandatory set. -/
def raw : ℕ → Bool :=
  let marks := markRange i.promptBlocks (fun _ => false) 0 (min i.sinkBlocks i.promptBlocks)
  let marks := i.hardSpans.foldl (fun m s => markRange i.promptBlocks m s.first s.stop) marks
  if i.HasLive then
    markRange i.promptBlocks marks (min i.liveBegin i.promptBlocks) (min i.liveEnd i.promptBlocks)
  else marks

/-- The block is mandatory: it is in the sink prefix, in a hard span or in the
live interval. -/
def Mandatory (id : ℕ) : Prop :=
  id < i.promptBlocks ∧ (id < i.sinkBlocks ∨ (∃ s ∈ i.hardSpans, s.first ≤ id ∧ id < s.stop) ∨
    (i.liveBegin ≤ id ∧ id < i.liveEnd))

instance (id : ℕ) : Decidable (i.Mandatory id) := inferInstanceAs (Decidable (_ ∧ (_ ∨ _ ∨ _)))

/-- The mandatory blocks, in ascending order. -/
def mandatoryBlocks : List ℕ := (List.range i.promptBlocks).filter fun id => decide (i.Mandatory id)

/-- `hard_limit`: the budget less the retrieval reserve. -/
def hardLimit : ℕ := i.budgetBlocks - i.budgetBlocks / 8

/-- `raw_live_blocks`. -/
def rawLive : ℕ :=
  if i.HasLive then min i.liveEnd i.promptBlocks - min i.liveBegin i.promptBlocks else 0

/-- `desired_tail`. -/
def desiredTail : ℕ := min i.rawLive (max 8 i.recentBlocks)

/-- `tail_begin`. -/
def tailBegin : ℕ := min i.liveEnd i.promptBlocks - i.desiredTail

/-- `sink` of the fit. -/
def sink : ℕ := min i.sinkBlocks (min i.promptBlocks i.budgetBlocks)

/-- The order of the spans. -/
def spanLE (a b : KvmemMandatoryBlockSpan) : Prop :=
  a.priority < b.priority ∨ a.priority = b.priority ∧
    (a.first < b.first ∨ a.first = b.first ∧ a.stop ≤ b.stop)

instance : DecidableRel spanLE := fun _ _ => inferInstanceAs (Decidable (_ ∨ _ ∧ (_ ∨ _ ∧ _)))

/-- `stable_sort`: spans that the comparison does not tell apart are equal. -/
def spans : List KvmemMandatoryBlockSpan := i.hardSpans.insertionSort spanLE

end KvmemMandatoryFitInput

/-! ## Adding blocks -/

/-- `hard` and `hard_count`. -/
structure Fit where
  hard : ℕ → Bool
  hardCount : ℕ

namespace Fit

variable (prompt limit : ℕ)

/-- `add_block`: whether the block was added. -/
def addBlock (s : Fit) (id : ℕ) : Fit × Bool :=
  if prompt ≤ id ∨ s.hard id = true ∨ limit ≤ s.hardCount then (s, false)
  else (⟨Function.update s.hard id true, s.hardCount + 1⟩, true)

/-- A loop that adds each of the blocks. -/
def addAll (s : Fit) (ids : List ℕ) : Fit := ids.foldl (fun s id => (s.addBlock prompt limit id).1) s

/-- The same, while the limit is not reached. -/
def addWhile : Fit → List ℕ → Fit
  | s, [] => s
  | s, id :: rest => if s.hardCount < limit then addWhile (s.addBlock prompt limit id).1 rest else s

/-- The structural edges of a span. -/
def addAnchors (s : Fit) (span : KvmemMandatoryBlockSpan) : Fit :=
  let first := min span.first prompt
  let stop := min span.stop prompt
  if stop ≤ first then s
  else
    let anchors := min 4 (stop - first)
    let s := s.addAll prompt limit ((List.range anchors).map fun k => first + k)
    s.addAll prompt limit ((List.range anchors).map fun k => stop - 1 - k)

end Fit

/-! ## The round robin -/

/-- `while (begin + cursor < end && hard[begin + cursor]) ++cursor`, with the
number of blocks left. -/
def skipHard (hard : ℕ → Bool) (first : ℕ) : ℕ → ℕ → ℕ
  | 0, cursor => cursor
  | left + 1, cursor => if hard (first + cursor) then skipHard hard first left (cursor + 1) else cursor

/-- One span of a pass: its cursor, the blocks, and whether one was added. -/
def visitSpan (prompt limit priority : ℕ) (span : KvmemMandatoryBlockSpan) (cursor : ℕ) (s : Fit) :
    ℕ × Fit × Bool :=
  if span.priority ≠ priority then (cursor, s, false)
  else
    let first := min span.first prompt
    let stop := min span.stop prompt
    let cursor := skipHard s.hard first (stop - (first + cursor)) cursor
    if stop ≤ first + cursor then (cursor, s, false)
    else
      let added := s.addBlock prompt limit (first + cursor)
      (cursor + 1, added.1, added.2)

/-- A pass over the spans with their cursors, while the limit is not reached. -/
def roundPass (prompt limit priority : ℕ) :
    List (KvmemMandatoryBlockSpan × ℕ) → Fit → Bool →
      List (KvmemMandatoryBlockSpan × ℕ) × Fit × Bool
  | [], s, progress => ([], s, progress)
  | (span, cursor) :: rest, s, progress =>
      if s.hardCount < limit then
        let v := visitSpan prompt limit priority span cursor s
        let r := roundPass prompt limit priority rest v.2.1 (v.2.2 || progress)
        ((span, v.1) :: r.1, r.2)
      else ((span, cursor) :: rest, s, progress)

/-- `while (progress && hard_count < hard_limit)`. -/
def roundRobin (prompt limit priority : ℕ) :
    ℕ → List (KvmemMandatoryBlockSpan × ℕ) → Fit → Option Fit
  | 0, _, _ => none
  | fuel + 1, spans, s =>
      if s.hardCount < limit then
        let r := roundPass prompt limit priority spans s false
        if r.2.2 then roundRobin prompt limit priority fuel r.1 r.2.1 else some r.2.1
      else some s

/-- `for (priority = 0; priority <= 3 && hard_count < hard_limit; ++priority)`. -/
def roundRobins (prompt limit fuel : ℕ) (spans : List KvmemMandatoryBlockSpan) :
    List ℕ → Fit → Option Fit
  | [], s => some s
  | priority :: rest, s =>
      if s.hardCount < limit then
        (roundRobin prompt limit priority fuel (spans.map fun span => (span, 0)) s).bind
          (roundRobins prompt limit fuel spans rest)
      else some s

/-! ## The function -/

/-- `while (replay > live_begin && hard[replay - 1]) --replay`, with the number
of live blocks left. -/
def replayBegin (hard : ℕ → Bool) (liveBegin : ℕ) : ℕ → ℕ
  | 0 => liveBegin
  | left + 1 => if hard (liveBegin + left) then replayBegin hard liveBegin left else liveBegin + left + 1

namespace KvmemMandatoryFitInput

variable (i : KvmemMandatoryFitInput)

/-- The live edges: the newest blocks first, then the head. -/
def addLive (s : Fit) : Fit :=
  if i.HasLive then
    let s := s.addWhile i.promptBlocks i.hardLimit (List.range' i.tailBegin i.desiredTail)
    s.addAll i.promptBlocks i.hardLimit
      ((List.range (min 16 i.rawLive)).map fun k => min i.liveBegin i.promptBlocks + k)
  else s

/-- The sink. -/
def addSink (s : Fit) : Fit := s.addWhile i.promptBlocks i.hardLimit (List.range i.sink)

/-- All the phases. -/
def allocate (fuel : ℕ) : Option Fit :=
  let s := i.addSink (i.addLive ⟨fun _ => false, 0⟩)
  let s := i.spans.foldl (fun s span => s.addAnchors i.promptBlocks i.hardLimit span) s
  roundRobins i.promptBlocks i.hardLimit fuel i.spans [0, 1, 2, 3] s

end KvmemMandatoryFitInput

/-- `kvmem_fit_mandatory_blocks`. -/
def kvmemFitMandatoryBlocks (fuel : ℕ) (i : KvmemMandatoryFitInput) :
    Option KvmemMandatoryFitResult :=
  if i.promptBlocks = 0 ∨ i.budgetBlocks = 0 then some .zero
  else
    let liveBegin := min i.liveBegin i.promptBlocks
    let liveEnd := min i.liveEnd i.promptBlocks
    let rawMandatory := markCount i.promptBlocks i.raw
    if rawMandatory ≤ i.budgetBlocks then
      some {
        hardBlocks := markedBlocks i.promptBlocks i.raw
        rawMandatoryBlocks := rawMandatory
        rawLiveBlocks := i.rawLive
        fittedLiveBlocks := i.rawLive
        softRetrievableBlocks := 0
        retrievalReserveBlocks := 0
        replayBeginBlock := if i.HasLive then liveBegin else liveEnd
        capacityFitted := false }
    else
      (i.allocate fuel).map fun s => {
        hardBlocks := markedBlocks i.promptBlocks s.hard
        rawMandatoryBlocks := rawMandatory
        rawLiveBlocks := i.rawLive
        fittedLiveBlocks :=
          if i.HasLive then (List.range' liveBegin (liveEnd - liveBegin)).countP s.hard else 0
        softRetrievableBlocks := if s.hardCount < rawMandatory then rawMandatory - s.hardCount else 0
        retrievalReserveBlocks := i.budgetBlocks / 8
        replayBeginBlock :=
          if i.HasLive then replayBegin s.hard liveBegin (liveEnd - liveBegin) else liveEnd
        capacityFitted := true }

/-! ## Marks -/

section Marks

variable {prompt first stop id : ℕ} {marks : ℕ → Bool}

theorem markRange_iff : markRange prompt marks first stop id = true ↔
    marks id = true ∨ first ≤ id ∧ id < stop ∧ id < prompt := by
  rw [markRange, Bool.or_eq_true, Bool.and_eq_true, decide_eq_true_iff, decide_eq_true_iff]
  refine or_congr_right ?_
  omega

theorem mem_markedBlocks : id ∈ markedBlocks prompt marks ↔ id < prompt ∧ marks id = true := by
  rw [markedBlocks, List.mem_filter, List.mem_range]

theorem markedBlocks_pairwise (prompt : ℕ) (marks : ℕ → Bool) :
    (markedBlocks prompt marks).Pairwise (· < ·) :=
  List.pairwise_lt_range.filter marks

theorem markedBlocks_length (prompt : ℕ) (marks : ℕ → Bool) :
    (markedBlocks prompt marks).length = markCount prompt marks :=
  List.countP_eq_length_filter.symm

end Marks

namespace KvmemMandatoryFitInput

variable {i : KvmemMandatoryFitInput} {id : ℕ}

theorem spans_foldl_iff (l : List KvmemMandatoryBlockSpan) (marks : ℕ → Bool) (prompt : ℕ) :
    l.foldl (fun m s => markRange prompt m s.first s.stop) marks id = true ↔
      marks id = true ∨ ∃ s ∈ l, s.first ≤ id ∧ id < s.stop ∧ id < prompt := by
  induction l generalizing marks with
  | nil => simp
  | cons s l ih =>
      rw [List.foldl_cons, ih, markRange_iff, or_assoc, List.exists_mem_cons_iff]

/-- **The raw set is the mandatory set.** -/
theorem raw_iff : i.raw id = true ↔ i.Mandatory id := by
  have hspans : ∀ marks : ℕ → Bool, (∃ s ∈ i.hardSpans, s.first ≤ id ∧ id < s.stop ∧
      id < i.promptBlocks) ↔ id < i.promptBlocks ∧ ∃ s ∈ i.hardSpans, s.first ≤ id ∧ id < s.stop :=
    fun _ => ⟨fun ⟨s, hs, h₁, h₂, h₃⟩ => ⟨h₃, s, hs, h₁, h₂⟩,
      fun ⟨h₃, s, hs, h₁, h₂⟩ => ⟨s, hs, h₁, h₂, h₃⟩⟩
  have hsink : markRange i.promptBlocks (fun _ => false) 0 (min i.sinkBlocks i.promptBlocks) id =
      true ↔ id < i.promptBlocks ∧ id < i.sinkBlocks := by
    rw [markRange_iff]
    simp
    omega
  unfold raw Mandatory
  split_ifs with hlive
  · rw [markRange_iff, spans_foldl_iff, hsink, hspans fun _ => false]
    unfold HasLive at hlive
    constructor
    · rintro ((h | h) | h)
      · exact ⟨h.1, .inl h.2⟩
      · exact ⟨h.1, .inr (.inl h.2)⟩
      · exact ⟨h.2.2, .inr (.inr ⟨by omega, by omega⟩)⟩
    · rintro ⟨hp, h | h | h⟩
      · exact .inl (.inl ⟨hp, h⟩)
      · exact .inl (.inr ⟨hp, h⟩)
      · exact .inr ⟨by omega, by omega, hp⟩
  · rw [spans_foldl_iff, hsink, hspans fun _ => false]
    unfold HasLive at hlive
    constructor
    · rintro (h | h)
      · exact ⟨h.1, .inl h.2⟩
      · exact ⟨h.1, .inr (.inl h.2)⟩
    · rintro ⟨hp, h | h | h⟩
      · exact .inl ⟨hp, h⟩
      · exact .inr ⟨hp, h⟩
      · omega

theorem raw_of_mem_live (h₁ : min i.liveBegin i.promptBlocks ≤ id)
    (h₂ : id < min i.liveEnd i.promptBlocks) : i.raw id = true :=
  raw_iff.mpr ⟨by omega, .inr (.inr ⟨by omega, by omega⟩)⟩

theorem raw_of_mem_span {s : KvmemMandatoryBlockSpan} (hs : s ∈ i.spans)
    (h₁ : min s.first i.promptBlocks ≤ id) (h₂ : id < min s.stop i.promptBlocks) :
    i.raw id = true := by
  have hs : s ∈ i.hardSpans := (List.mem_insertionSort spanLE).mp hs
  exact raw_iff.mpr ⟨by omega, .inr (.inl ⟨s, hs, by omega, by omega⟩)⟩

end KvmemMandatoryFitInput

/-! ## What the phases do -/

namespace Fit

/-- The blocks are counted, allowed, and within the limit. -/
structure Within (allowed : ℕ → Bool) (prompt limit : ℕ) (s : Fit) : Prop where
  allowed : ∀ id, s.hard id = true → allowed id = true
  count : s.hardCount = markCount prompt s.hard
  le_limit : s.hardCount ≤ limit

/-- A phase only adds allowed blocks, and none once the limit is reached. -/
structure Extends (allowed : ℕ → Bool) (prompt limit : ℕ) (s t : Fit) : Prop where
  mono : ∀ id, s.hard id = true → t.hard id = true
  count_le : s.hardCount ≤ t.hardCount
  full : limit ≤ s.hardCount → t = s
  within : Within allowed prompt limit s → Within allowed prompt limit t

variable {allowed : ℕ → Bool} {prompt limit : ℕ} {s t u : Fit} {id : ℕ} {ids : List ℕ}

theorem Extends.refl (s : Fit) : Extends allowed prompt limit s s :=
  ⟨fun _ h => h, le_rfl, fun _ => rfl, fun h => h⟩

theorem Extends.trans (h₁ : Extends allowed prompt limit s t)
    (h₂ : Extends allowed prompt limit t u) : Extends allowed prompt limit s u where
  mono id h := h₂.mono id (h₁.mono id h)
  count_le := h₁.count_le.trans h₂.count_le
  full h := by
    obtain rfl := h₁.full h
    exact h₂.full h
  within h := h₂.within (h₁.within h)

theorem addBlock_extends (h : allowed id = true) :
    Extends allowed prompt limit s (s.addBlock prompt limit id).1 := by
  unfold addBlock
  split_ifs with hc
  · exact .refl s
  · push Not at hc
    obtain ⟨hid, hhard, hlimit⟩ := hc
    have hfalse : s.hard id = false := Bool.eq_false_iff.mpr hhard
    refine ⟨fun a ha => ?_, Nat.le_succ _, fun hfull => ?_, fun hs => ⟨fun a ha => ?_, ?_, hlimit⟩⟩
    · show Function.update s.hard id true a = true
      by_cases hne : a = id
      · rw [hne, Function.update_self]
      · rw [Function.update_of_ne hne]
        exact ha
    · exact absurd hfull (not_le.mpr hlimit)
    · by_cases hne : a = id
      · rw [hne]
        exact h
      · refine hs.allowed a ?_
        rw [← Function.update_of_ne hne true s.hard]
        exact ha
    · show s.hardCount + 1 = (List.range prompt).countP (Function.update s.hard id true)
      rw [Marks.countP_update List.nodup_range (List.mem_range.mpr hid) hfalse, hs.count]
      rfl

/-- An addition is counted. -/
theorem addBlock_progress (h : (s.addBlock prompt limit id).2 = true) :
    s.hardCount < (s.addBlock prompt limit id).1.hardCount := by
  unfold addBlock at h ⊢
  split_ifs at h ⊢
  exact Nat.lt_succ_self _

theorem addAll_extends (h : ∀ id ∈ ids, allowed id = true) (s : Fit) :
    Extends allowed prompt limit s (s.addAll prompt limit ids) := by
  unfold addAll
  induction ids generalizing s with
  | nil => exact .refl s
  | cons id ids ih =>
      rw [List.foldl_cons]
      exact (addBlock_extends (h id List.mem_cons_self)).trans
        (ih (fun a ha => h a (List.mem_cons_of_mem _ ha)) _)

theorem addWhile_extends (h : ∀ id ∈ ids, allowed id = true) (s : Fit) :
    Extends allowed prompt limit s (s.addWhile prompt limit ids) := by
  induction ids generalizing s with
  | nil => exact .refl s
  | cons id ids ih =>
      unfold addWhile
      split_ifs
      · exact (addBlock_extends (h id List.mem_cons_self)).trans
          (ih (fun a ha => h a (List.mem_cons_of_mem _ ha)) _)
      · exact .refl s

section Spans

variable {span : KvmemMandatoryBlockSpan}

/-- The blocks of the span are allowed. -/
def AllowsSpan (allowed : ℕ → Bool) (prompt : ℕ) (span : KvmemMandatoryBlockSpan) : Prop :=
  ∀ id, min span.first prompt ≤ id → id < min span.stop prompt → allowed id = true

theorem addAnchors_extends (h : AllowsSpan allowed prompt span) (s : Fit) :
    Extends allowed prompt limit s (s.addAnchors prompt limit span) := by
  unfold addAnchors
  dsimp only
  split_ifs with hempty
  · exact .refl s
  · refine (addAll_extends (fun id hid => ?_) s).trans (addAll_extends (fun id hid => ?_) _)
    all_goals
      obtain ⟨k, hk, rfl⟩ := List.mem_map.mp hid
      have hk := List.mem_range.mp hk
      exact h _ (by omega) (by omega)

theorem visitSpan_extends (limit priority : ℕ) (h : AllowsSpan allowed prompt span) (cursor : ℕ)
    (s : Fit) : Extends allowed prompt limit s (visitSpan prompt limit priority span cursor s).2.1 := by
  unfold visitSpan
  dsimp only
  split_ifs with hpriority hstop
  · exact .refl s
  · exact .refl s
  · exact addBlock_extends (h _ (Nat.le_add_right _ _) (not_le.mp hstop))

theorem visitSpan_progress {priority cursor : ℕ}
    (h : (visitSpan prompt limit priority span cursor s).2.2 = true) :
    s.hardCount < (visitSpan prompt limit priority span cursor s).2.1.hardCount := by
  unfold visitSpan at h ⊢
  dsimp only at h ⊢
  split_ifs at h ⊢
  exact addBlock_progress h

variable {cursors : List (KvmemMandatoryBlockSpan × ℕ)} {priority : ℕ}

/-- A pass visits the same spans. -/
theorem roundPass_spans (s : Fit) (progress : Bool) :
    (roundPass prompt limit priority cursors s progress).1.map Prod.fst =
      cursors.map Prod.fst := by
  induction cursors generalizing s progress with
  | nil => rfl
  | cons c rest ih =>
      obtain ⟨span, cursor⟩ := c
      unfold roundPass
      split_ifs
      · rw [List.map_cons, List.map_cons, ih]
      · rfl

theorem roundPass_extends (h : ∀ c ∈ cursors, AllowsSpan allowed prompt c.1) (s : Fit)
    (progress : Bool) :
    Extends allowed prompt limit s (roundPass prompt limit priority cursors s progress).2.1 := by
  induction cursors generalizing s progress with
  | nil => exact .refl s
  | cons c rest ih =>
      obtain ⟨span, cursor⟩ := c
      unfold roundPass
      split_ifs
      · exact (visitSpan_extends limit priority (h _ List.mem_cons_self) cursor s).trans
          (ih (fun c hc => h c (List.mem_cons_of_mem _ hc)) _ _)
      · exact .refl s

/-- A pass that reports progress has added a block. -/
theorem roundPass_progress (h : ∀ c ∈ cursors, AllowsSpan allowed prompt c.1) (s : Fit)
    (hp : (roundPass prompt limit priority cursors s false).2.2 = true) :
    s.hardCount < (roundPass prompt limit priority cursors s false).2.1.hardCount := by
  induction cursors generalizing s with
  | nil => cases hp
  | cons c rest ih =>
      obtain ⟨span, cursor⟩ := c
      have hrest := fun c hc => h c (List.mem_cons_of_mem _ hc)
      unfold roundPass at hp ⊢
      split_ifs at hp ⊢ with hlimit
      dsimp only at hp ⊢
      have hvisit := visitSpan_extends limit priority
        (h _ List.mem_cons_self) cursor s
      cases hv : (visitSpan prompt limit priority span cursor s).2.2 with
      | true =>
          exact (visitSpan_progress hv).trans_le
            (roundPass_extends hrest (visitSpan prompt limit priority span cursor s).2.1 _).count_le
      | false =>
          rw [hv] at hp
          exact hvisit.count_le.trans_lt (ih hrest _ hp)

theorem roundRobin_extends {fuel : ℕ} (h : ∀ c ∈ cursors, AllowsSpan allowed prompt c.1)
    (hr : roundRobin prompt limit priority fuel cursors s = some t) :
    Extends allowed prompt limit s t := by
  induction fuel generalizing cursors s with
  | zero => cases hr
  | succ fuel ih =>
      unfold roundRobin at hr
      dsimp only at hr
      split_ifs at hr
      · refine (roundPass_extends h s false).trans (ih (fun c hc => ?_) hr)
        have hmem := List.mem_map_of_mem (f := Prod.fst) hc
        rw [roundPass_spans] at hmem
        obtain ⟨d, hd, heq⟩ := List.mem_map.mp hmem
        exact heq ▸ h d hd
      · rw [← Option.some.inj hr]
        exact roundPass_extends h s false
      · rw [← Option.some.inj hr]
        exact .refl s

/-- **The loop ends.**  Every pass but the last adds a block, so as many rounds
as blocks may be added are enough, and more change nothing. -/
theorem roundRobin_terminates (limit priority : ℕ) (h : ∀ c ∈ cursors, AllowsSpan allowed prompt c.1) (s : Fit) :
    ∃ t, ∀ fuel, limit - s.hardCount < fuel →
      roundRobin prompt limit priority fuel cursors s = some t := by
  induction hn : limit - s.hardCount using Nat.strong_induction_on generalizing cursors s with
  | _ n ih =>
      subst hn
      by_cases hlimit : s.hardCount < limit
      · cases hp : (roundPass prompt limit priority cursors s false).2.2 with
        | true =>
            have hmore := roundPass_progress h s hp
            have hspans : ∀ c ∈ (roundPass prompt limit priority cursors s false).1,
                AllowsSpan allowed prompt c.1 := fun c hc => by
              have hmem := List.mem_map_of_mem (f := Prod.fst) hc
              rw [roundPass_spans] at hmem
              obtain ⟨d, hd, heq⟩ := List.mem_map.mp hmem
              exact heq ▸ h d hd
            obtain ⟨t, ht⟩ := ih _ (by omega) hspans
              (roundPass prompt limit priority cursors s false).2.1 rfl
            refine ⟨t, fun fuel hfuel => ?_⟩
            obtain ⟨fuel, rfl⟩ := Nat.exists_eq_add_of_lt hfuel
            rw [roundRobin, if_pos hlimit]
            dsimp only
            rw [if_pos hp]
            exact ht _ (by omega)
        | false =>
            refine ⟨(roundPass prompt limit priority cursors s false).2.1, fun fuel hfuel => ?_⟩
            obtain ⟨fuel, rfl⟩ := Nat.exists_eq_add_of_lt hfuel
            rw [roundRobin, if_pos hlimit]
            dsimp only
            rw [if_neg (by rw [hp]; decide)]
      · refine ⟨s, fun fuel hfuel => ?_⟩
        obtain ⟨fuel, rfl⟩ := Nat.exists_eq_add_of_lt hfuel
        rw [roundRobin, if_neg hlimit]

variable {spans : List KvmemMandatoryBlockSpan}

theorem allowsSpan_zero (h : ∀ span ∈ spans, AllowsSpan allowed prompt span) :
    ∀ c ∈ spans.map fun span => (span, 0), AllowsSpan allowed prompt c.1 := by
  intro c hc
  obtain ⟨span, hspan, rfl⟩ := List.mem_map.mp hc
  exact h span hspan

theorem roundRobins_terminates (limit : ℕ) (h : ∀ span ∈ spans, AllowsSpan allowed prompt span)
    (priorities : List ℕ) (s : Fit) :
    ∃ t, Extends allowed prompt limit s t ∧ ∀ fuel, limit - s.hardCount < fuel →
      roundRobins prompt limit fuel spans priorities s = some t := by
  induction priorities generalizing s with
  | nil => exact ⟨s, .refl s, fun _ _ => rfl⟩
  | cons priority rest ih =>
      by_cases hlimit : s.hardCount < limit
      · obtain ⟨t, ht⟩ := roundRobin_terminates limit priority
          (allowsSpan_zero h) s
        have hext := roundRobin_extends (allowsSpan_zero h) (ht _ (Nat.lt_succ_self _))
        obtain ⟨u, hu, hrest⟩ := ih t
        refine ⟨u, hext.trans hu, fun fuel hfuel => ?_⟩
        have := hext.count_le
        rw [roundRobins, if_pos hlimit, ht fuel hfuel, Option.bind_some]
        exact hrest fuel (by omega)
      · refine ⟨s, .refl s, fun fuel _ => ?_⟩
        rw [roundRobins, if_neg hlimit]

theorem foldl_addAnchors_extends (h : ∀ span ∈ spans, AllowsSpan allowed prompt span) (s : Fit) :
    Extends allowed prompt limit s
      (spans.foldl (fun s span => s.addAnchors prompt limit span) s) := by
  induction spans generalizing s with
  | nil => exact .refl s
  | cons span rest ih =>
      rw [List.foldl_cons]
      exact (addAnchors_extends (h span List.mem_cons_self) s).trans
        (ih (fun a ha => h a (List.mem_cons_of_mem _ ha)) _)

end Spans

end Fit

namespace KvmemMandatoryFitInput

open Fit

variable (i : KvmemMandatoryFitInput)

theorem allowsSpan_of_mem {span : KvmemMandatoryBlockSpan} (h : span ∈ i.spans) :
    AllowsSpan i.raw i.promptBlocks span :=
  fun _ h₁ h₂ => raw_of_mem_span h h₁ h₂

theorem addLive_extends (s : Fit) :
    Extends i.raw i.promptBlocks i.hardLimit s (i.addLive s) := by
  unfold addLive
  split_ifs with hlive
  · have hrange : i.rawLive = min i.liveEnd i.promptBlocks - min i.liveBegin i.promptBlocks :=
      if_pos hlive
    refine (addWhile_extends (fun id hid => ?_) s).trans (addAll_extends (fun id hid => ?_) _)
    · rw [List.mem_range'_1] at hid
      unfold tailBegin desiredTail at hid
      exact raw_of_mem_live (by omega) (by omega)
    · obtain ⟨k, hk, rfl⟩ := List.mem_map.mp hid
      have hk := List.mem_range.mp hk
      exact raw_of_mem_live (by omega) (by omega)
  · exact .refl s

theorem addSink_extends (s : Fit) :
    Extends i.raw i.promptBlocks i.hardLimit s (i.addSink s) := by
  refine addWhile_extends (fun id hid => raw_iff.mpr ?_) s
  have hid := List.mem_range.mp hid
  unfold sink at hid
  exact ⟨by omega, .inl (by omega)⟩

/-- **The allocation ends**, and is a sequence of allowed additions after the
live edges and the sink. -/
theorem allocate_spec : ∃ s,
    Extends i.raw i.promptBlocks i.hardLimit (i.addSink (i.addLive ⟨fun _ => false, 0⟩)) s ∧
    ∀ fuel, i.budgetBlocks < fuel → i.allocate fuel = some s := by
  obtain ⟨s, hext, hs⟩ := roundRobins_terminates i.hardLimit
    (fun _ h => i.allowsSpan_of_mem h) [0, 1, 2, 3]
    (i.spans.foldl (fun s span => s.addAnchors i.promptBlocks i.hardLimit span)
      (i.addSink (i.addLive ⟨fun _ => false, 0⟩)))
  refine ⟨s, (foldl_addAnchors_extends (fun _ h => i.allowsSpan_of_mem h) _).trans hext,
    fun fuel hfuel => hs fuel ?_⟩
  unfold hardLimit
  omega

theorem within_start : Within i.raw i.promptBlocks i.hardLimit ⟨fun _ => false, 0⟩ where
  allowed _ h := by cases h
  count := (List.countP_eq_zero.mpr fun _ _ h => by cases h).symm
  le_limit := Nat.zero_le _

end KvmemMandatoryFitInput

/-- Where the replay begins: the marked run below the live end. -/
theorem replayBegin_spec (hard : ℕ → Bool) (liveBegin n : ℕ) :
    liveBegin ≤ replayBegin hard liveBegin n ∧ replayBegin hard liveBegin n ≤ liveBegin + n ∧
    (∀ id, replayBegin hard liveBegin n ≤ id → id < liveBegin + n → hard id = true) ∧
    (replayBegin hard liveBegin n = liveBegin ∨
      hard (replayBegin hard liveBegin n - 1) = false) := by
  induction n with
  | zero => exact ⟨le_rfl, le_rfl, fun _ h₁ h₂ => absurd h₁ (by simpa [replayBegin] using h₂), .inl rfl⟩
  | succ n ih =>
      obtain ⟨hlow, hhigh, hrun, hmax⟩ := ih
      unfold replayBegin
      split_ifs with hhard
      · refine ⟨hlow, by omega, fun id h₁ h₂ => ?_, hmax⟩
        by_cases hid : id = liveBegin + n
        · rw [hid]
          exact hhard
        · exact hrun id h₁ (by omega)
      · refine ⟨by omega, by omega, fun id h₁ h₂ => by omega, .inr ?_⟩
        rw [Nat.add_sub_cancel]
        exact Bool.eq_false_iff.mpr hhard

namespace KvmemMandatoryFitInput

variable {i : KvmemMandatoryFitInput}

theorem markedBlocks_raw : markedBlocks i.promptBlocks i.raw = i.mandatoryBlocks := by
  refine List.filter_congr fun id _ => ?_
  rw [Bool.eq_iff_iff, decide_eq_true_iff]
  exact raw_iff

theorem markCount_raw : markCount i.promptBlocks i.raw = i.mandatoryBlocks.length := by
  rw [← markedBlocks_length, markedBlocks_raw]

theorem mem_mandatoryBlocks {id : ℕ} : id ∈ i.mandatoryBlocks ↔ i.Mandatory id := by
  rw [mandatoryBlocks, List.mem_filter, List.mem_range, decide_eq_true_iff]
  exact and_iff_right_of_imp fun h => h.1

theorem live_iff {id : ℕ} : i.live id = true ↔
    min i.liveBegin i.promptBlocks ≤ id ∧ id < min i.liveEnd i.promptBlocks := by
  rw [live, Bool.and_eq_true, decide_eq_true_iff, decide_eq_true_iff]

/-- The live blocks are counted along the live interval. -/
theorem filter_live_length (hard : ℕ → Bool) :
    ((markedBlocks i.promptBlocks hard).filter i.live).length =
      if i.HasLive then (List.range' (min i.liveBegin i.promptBlocks)
        (min i.liveEnd i.promptBlocks - min i.liveBegin i.promptBlocks)).countP hard else 0 := by
  have hperm : ((List.range i.promptBlocks).filter i.live).Perm
      (List.range' (min i.liveBegin i.promptBlocks)
        (min i.liveEnd i.promptBlocks - min i.liveBegin i.promptBlocks)) := by
    refine (List.perm_ext_iff_of_nodup (List.nodup_range.filter _) List.nodup_range').mpr fun id => ?_
    rw [List.mem_filter, List.mem_range, List.mem_range'_1, live_iff]
    omega
  rw [markedBlocks, List.filter_filter, List.filter_congr fun id _ => Bool.and_comm _ _,
    ← List.filter_filter, ← List.countP_eq_length_filter, hperm.countP_eq]
  split_ifs with hlive
  · rfl
  · have hzero : min i.liveEnd i.promptBlocks - min i.liveBegin i.promptBlocks = 0 :=
      Nat.sub_eq_zero_of_le (not_lt.mp hlive)
    rw [hzero]
    rfl

end KvmemMandatoryFitInput

/-- The result is that of the fit, whenever the fuel lasts. -/
def FitsTo (i : KvmemMandatoryFitInput) (out : KvmemMandatoryFitResult) : Prop :=
  ∀ fuel, i.budgetBlocks < fuel → kvmemFitMandatoryBlocks fuel i = some out

/-- What the fit promises about its result. -/
structure FitOk (i : KvmemMandatoryFitInput) (out : KvmemMandatoryFitResult) : Prop where
  ascending : out.hardBlocks.Pairwise (· < ·)
  mandatory : ∀ id ∈ out.hardBlocks, i.Mandatory id
  /-- everything, where it fits -/
  fits : i.mandatoryBlocks.length ≤ i.budgetBlocks → out.hardBlocks = i.mandatoryBlocks
  /-- else the reserve is left -/
  reserve : i.budgetBlocks < i.mandatoryBlocks.length →
    out.hardBlocks.length ≤ i.budgetBlocks - i.budgetBlocks / 8
  fittedLive : out.fittedLiveBlocks = (out.hardBlocks.filter i.live).length
  softRetrievable : 0 < i.budgetBlocks → out.softRetrievableBlocks =
    (i.mandatoryBlocks.filter fun id => decide (id ∉ out.hardBlocks)).length
  /-- the run of hard blocks at the live end, as far as the live interval goes -/
  replay : 0 < i.budgetBlocks → i.HasLive →
    min i.liveBegin i.promptBlocks ≤ out.replayBeginBlock ∧
    out.replayBeginBlock ≤ min i.liveEnd i.promptBlocks ∧
    (∀ id, out.replayBeginBlock ≤ id → id < min i.liveEnd i.promptBlocks → id ∈ out.hardBlocks) ∧
    (out.replayBeginBlock = min i.liveBegin i.promptBlocks ∨
      out.replayBeginBlock - 1 ∉ out.hardBlocks)
  replayNone : 0 < i.budgetBlocks → ¬ i.HasLive →
    out.replayBeginBlock = min i.liveEnd i.promptBlocks

namespace KvmemMandatoryFitInput

open Fit

variable {i : KvmemMandatoryFitInput}

theorem fitOk_zero (h : i.promptBlocks = 0 ∨ i.budgetBlocks = 0) : FitOk i .zero := by
  have hnone : i.promptBlocks = 0 → i.mandatoryBlocks = [] := fun hp =>
    List.eq_nil_iff_forall_not_mem.mpr fun id hid => by
      have := (mem_mandatoryBlocks.mp hid).1
      omega
  have hlive : i.promptBlocks = 0 → ¬ i.HasLive := fun hp => by
    unfold HasLive
    omega
  refine ⟨.nil, by simp [KvmemMandatoryFitResult.zero], fun hfits => ?_, fun _ => Nat.zero_le _,
    rfl, fun hb => ?_, fun hb hl => ?_, fun hb _ => ?_⟩
  · rcases h with hp | hb
    · exact (hnone hp).symm
    · rw [hb] at hfits
      exact (List.eq_nil_of_length_eq_zero (Nat.le_zero.mp hfits)).symm
  · rw [hnone (h.resolve_right hb.ne')]
    rfl
  · exact absurd hl (hlive (h.resolve_right hb.ne'))
  · rw [h.resolve_right hb.ne', Nat.min_zero]
    rfl

theorem fitOk_raw (hfits : i.mandatoryBlocks.length ≤ i.budgetBlocks) : FitOk i {
    hardBlocks := markedBlocks i.promptBlocks i.raw
    rawMandatoryBlocks := markCount i.promptBlocks i.raw
    rawLiveBlocks := i.rawLive
    fittedLiveBlocks := i.rawLive
    softRetrievableBlocks := 0
    retrievalReserveBlocks := 0
    replayBeginBlock := if i.HasLive then min i.liveBegin i.promptBlocks
      else min i.liveEnd i.promptBlocks
    capacityFitted := false } where
  ascending := markedBlocks_pairwise _ _
  mandatory id hid := raw_iff.mp (mem_markedBlocks.mp hid).2
  fits _ := markedBlocks_raw
  reserve hlt := absurd hfits (not_le.mpr hlt)
  fittedLive := by
    show i.rawLive = ((markedBlocks i.promptBlocks i.raw).filter i.live).length
    rw [filter_live_length, rawLive]
    split_ifs
    · rw [List.countP_eq_length.mpr fun id hid => ?_, List.length_range']
      rw [List.mem_range'_1] at hid
      exact raw_of_mem_live hid.1 (by omega)
    · rfl
  softRetrievable _ := by
    show 0 = (i.mandatoryBlocks.filter fun id => decide (id ∉ markedBlocks _ _)).length
    rw [markedBlocks_raw, List.filter_eq_nil_iff.mpr fun id hid => ?_]
    · rfl
    · rw [decide_eq_true_iff]
      exact not_not_intro hid
  replay _ hlive := by
    dsimp only
    rw [if_pos hlive]
    refine ⟨le_rfl, le_of_lt hlive, fun id h₁ h₂ => ?_, .inl rfl⟩
    exact mem_markedBlocks.mpr ⟨by omega, raw_of_mem_live h₁ h₂⟩
  replayNone _ hlive := if_neg hlive

theorem fitOk_allocated {s : Fit} (hs : Within i.raw i.promptBlocks i.hardLimit s)
    (hover : i.budgetBlocks < i.mandatoryBlocks.length) : FitOk i {
    hardBlocks := markedBlocks i.promptBlocks s.hard
    rawMandatoryBlocks := markCount i.promptBlocks i.raw
    rawLiveBlocks := i.rawLive
    fittedLiveBlocks :=
      if i.HasLive then (List.range' (min i.liveBegin i.promptBlocks)
        (min i.liveEnd i.promptBlocks - min i.liveBegin i.promptBlocks)).countP s.hard else 0
    softRetrievableBlocks := if s.hardCount < markCount i.promptBlocks i.raw then
      markCount i.promptBlocks i.raw - s.hardCount else 0
    retrievalReserveBlocks := i.budgetBlocks / 8
    replayBeginBlock := if i.HasLive then replayBegin s.hard (min i.liveBegin i.promptBlocks)
        (min i.liveEnd i.promptBlocks - min i.liveBegin i.promptBlocks)
      else min i.liveEnd i.promptBlocks
    capacityFitted := true } where
  ascending := markedBlocks_pairwise _ _
  mandatory id hid := raw_iff.mp (hs.allowed id (mem_markedBlocks.mp hid).2)
  fits hle := absurd hover (not_lt.mpr hle)
  reserve _ := by
    show (markedBlocks _ _).length ≤ _
    rw [markedBlocks_length, ← hs.count]
    exact hs.le_limit
  fittedLive := (filter_live_length s.hard).symm
  softRetrievable _ := by
    have hdiff := Marks.countP_diff (l := List.range i.promptBlocks) hs.allowed
    have hmem : i.mandatoryBlocks.filter (fun id => decide (id ∉ markedBlocks i.promptBlocks s.hard))
        = (List.range i.promptBlocks).filter fun id => i.raw id && !s.hard id := by
      rw [← markedBlocks_raw]
      show ((List.range i.promptBlocks).filter i.raw).filter _ = _
      rw [List.filter_filter]
      refine List.filter_congr fun id hid => ?_
      have hiff : decide (id ∉ markedBlocks i.promptBlocks s.hard) = !s.hard id := by
        rw [decide_not, Bool.not_inj_iff, Bool.eq_iff_iff, decide_eq_true_iff, mem_markedBlocks]
        exact and_iff_right (List.mem_range.mp hid)
      rw [hiff, Bool.and_comm]
    dsimp only
    rw [hmem, hdiff, hs.count]
    unfold markCount
    split_ifs <;> omega
  replay _ hlive := by
    dsimp only
    rw [if_pos hlive]
    have hlt : min i.liveBegin i.promptBlocks < min i.liveEnd i.promptBlocks := hlive
    have hend : min i.liveBegin i.promptBlocks +
        (min i.liveEnd i.promptBlocks - min i.liveBegin i.promptBlocks) =
          min i.liveEnd i.promptBlocks := by
      omega
    obtain ⟨hlow, hhigh, hrun, hmax⟩ := replayBegin_spec s.hard (min i.liveBegin i.promptBlocks)
      (min i.liveEnd i.promptBlocks - min i.liveBegin i.promptBlocks)
    rw [hend] at hhigh hrun
    refine ⟨hlow, hhigh, fun id h₁ h₂ => mem_markedBlocks.mpr ⟨by omega, hrun id h₁ h₂⟩, ?_⟩
    refine hmax.imp_right fun hnot hmem => ?_
    rw [(mem_markedBlocks.mp hmem).2] at hnot
    cases hnot
  replayNone _ hlive := if_neg hlive

end KvmemMandatoryFitInput

open KvmemMandatoryFitInput in
/-- **What the fit returns**, for every input: it ends, with an ascending subset
of the mandatory set, all of it where that fits the budget, and else no more
than the budget less the reserve.  The remaining counts and the replay are
those of the returned blocks; the replay does not leave the live interval. -/
theorem mandatoryFit (i : KvmemMandatoryFitInput) : ∃ out, FitsTo i out ∧ FitOk i out := by
  by_cases hzero : i.promptBlocks = 0 ∨ i.budgetBlocks = 0
  · exact ⟨.zero, fun _ _ => if_pos hzero, fitOk_zero hzero⟩
  · by_cases hfits : i.mandatoryBlocks.length ≤ i.budgetBlocks
    · refine ⟨_, fun fuel _ => ?_, fitOk_raw hfits⟩
      rw [kvmemFitMandatoryBlocks, if_neg hzero]
      exact if_pos (markCount_raw ▸ hfits)
    · obtain ⟨s, hext, hs⟩ := i.allocate_spec
      have hwithin := ((i.addLive_extends _).trans (i.addSink_extends _)).trans hext
        |>.within i.within_start
      refine ⟨_, fun fuel hfuel => ?_, fitOk_allocated hwithin (not_le.mp hfits)⟩
      rw [kvmemFitMandatoryBlocks, if_neg hzero]
      dsimp only
      rw [if_neg (markCount_raw ▸ hfits), hs fuel hfuel]
      rfl

/-- The run of hard blocks at the live end may go on below the live interval,
where the replay stops; and without a budget nothing is counted. -/
theorem replay_staysInLiveInterval :
    (∃ out, FitsTo ⟨10, 6, 0, 0, [⟨3, 5, 0⟩, ⟨0, 3, 1⟩], 5, 8⟩ out ∧ out.rawMandatoryBlocks = 8 ∧
      out.hardBlocks = [0, 3, 4, 5, 6, 7] ∧ out.replayBeginBlock = 5 ∧
      out.replayBeginBlock - 1 ∈ out.hardBlocks) ∧
    ∃ out, FitsTo ⟨10, 0, 1, 0, [], 0, 3⟩ out ∧ out.hardBlocks = [] ∧
      out.softRetrievableBlocks = 0 ∧ out.replayBeginBlock = 0 ∧
      (⟨10, 0, 1, 0, [], 0, 3⟩ : KvmemMandatoryFitInput).mandatoryBlocks = [0, 1, 2] :=
  ⟨⟨_, fun _ _ => rfl, by decide, by decide, by decide, by decide⟩,
    ⟨_, fun _ _ => rfl, by decide, by decide, by decide, by decide⟩⟩

end Qw3.Plan
