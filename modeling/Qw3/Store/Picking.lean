import Mathlib.Algebra.Order.Field.Rat
import Mathlib.Data.List.Sort
import Mathlib.Data.Rat.Floor
import Qw3.Lib.Marks
import Qw3.Store.Legacy

/-!
# Picking the blocks of the working set

The four pickers of `kvmem_store.cpp`, over what they read of a store at one
moment.

* `Pool` — the directory, the live slots and their order; `Legacy.pool` and
  `State.pool` read it off a store.
* `Pool.keep` — the source's `keep`: one mark, counted once, on a live block.
* `Pool.alwaysKeep` — the sink, the mandatory blocks and the recent window.
* `Pool.takeTop` — the best unkept candidates by a score.
* `pickTopkBlocks`, `pickPrefillPressureFrom`, `Legacy.pickSemanticGroups`,
  `State.pickRepositorySemanticGroups`.

Scores are rationals.  `std::nth_element` is any function that splits as the
standard says (`NthElement`), so the results hold for every implementation.
-/

namespace Qw3.Store

open Qw3.Repository (KvMemBlockHandle)

/-! ## What a picker reads -/

/-- The scores of a block. -/
structure BlockScores where
  retrieval : ℚ
  action : ℚ
  attn : ℚ
  profile : ℚ
  deriving DecidableEq, Repr

/-- What the pickers read of a store: `chronological_ids`, `is_live`,
`sink_block`, `earlier` and the position that keys the prefill scores. -/
structure Pool where
  blockCount : ℕ
  order : List ℕ
  live : ℕ → Bool
  sink : ℕ → Bool
  earlier : ℕ → ℕ → Bool
  position : ℕ → ℕ
  /-- `gc_validate_mandatory` looks at the IDs: there is a collector, or a
  repository -/
  validates : Bool
  repository : Bool

/-- `KvMemStoreConfig`, as far as the pickers depend on it. -/
structure PickConfig where
  budget : ℕ
  prefillBudget : ℕ
  recentBlocks : ℕ
  /-- `select_policy == Quota` -/
  quota : Bool
  retrievalBlocks : ℕ
  profileBlocks : ℕ
  actionFraction : ℚ
  /-- `action_combine == "score"` -/
  combineScores : Bool
  deriving DecidableEq, Repr

/-- The pool of a legacy store; `view` is the `is_live` of the collector's view,
where one is attached. -/
def Legacy.pool (s : Legacy) (sinkBlocks : ℕ) (view : Option (ℕ → Bool)) : Pool where
  blockCount := s.blockCount
  order := List.range s.blockCount
  live id := decide (id < s.blockCount) && (view.map fun v => v id).getD true
  sink id := decide (id < sinkBlocks)
  earlier a b := decide (a < b)
  position id := (s.blocks id).origPosStart
  validates := view.isSome
  repository := false

/-- The pool of a store with a repository. -/
def State.pool (s : State) (sinkBlocks : ℕ) : Pool where
  blockCount := s.blockCount
  order := (s.history.entries.filter fun p => s.repo.Pinnable p.2).map fun p => p.2.slot
  live id := decide (id < s.blockCount) && decide (s.repo.Pinnable (s.repositoryHandle id))
  sink id := decide ((s.blocks id).historyPosStart < sinkBlocks * s.config.blockTokens)
  earlier a b :=
    if (s.blocks a).historyPosStart ≠ (s.blocks b).historyPosStart then
      decide ((s.blocks a).historyPosStart < (s.blocks b).historyPosStart)
    else decide ((s.blocks a).logicalId < (s.blocks b).logicalId)
  position id := (s.blocks id).historyPosStart
  validates := true
  repository := true

/-- What a picker throws. -/
inductive PickError
  | mandatoryDeleted | sinkExceeds | semanticExceeds | groupExceeds | prefillExceeds
  | invalidScores | invalidPressureScore | outsideSnapshot | groupMismatch | groupScores
  deriving DecidableEq, Repr

/-- `std::nth_element(first, first + k, last, better)`: a permutation with
nothing behind position `k` that is better than something before it. -/
structure NthElement where
  run : (ℕ → ℕ → Bool) → List ℕ → ℕ → List ℕ
  perm : ∀ better l k, (run better l k).Perm l
  split : ∀ better l k, (∀ a b c, better a b = true → better b c = true → better a c = true) →
    (∀ a b, better a b = true → better b a = false) →
    (∀ a b c, better a b = false → better b c = false → better a c = false) →
    ∀ x ∈ (run better l k).take k, ∀ y ∈ (run better l k).drop k, better y x = false

/-! ## Keeping -/

/-- `for (id : ids) keep(id)`. -/
def keepAll (keep : Marks → ℕ → Marks) (m : Marks) (ids : List ℕ) : Marks := ids.foldl keep m

/-- The same, while the budget is not reached. -/
def keepWhile (keep : Marks → ℕ → Marks) (budget : ℕ) (m : Marks) (ids : List ℕ) : Marks :=
  ids.foldl (fun m id => if m.count < budget then keep m id else m) m

namespace Pool

variable (p : Pool)

/-- `keep`. -/
def keep (m : Marks) (id : ℕ) : Marks :=
  if id < p.blockCount ∧ p.live id = true then m.add id else m

/-- `gc_validate_mandatory`. -/
def validate (ids : List ℕ) : Bool :=
  !p.validates || ids.all fun id => (!(p.repository || decide (id < p.blockCount))) || p.live id

/-- The last `recent` entries of the directory, newest first. -/
def recentWindow (recent : ℕ) : List ℕ := p.order.reverse.take recent

/-- The sink and the mandatory blocks. -/
def keepMandatory (keep : Marks → ℕ → Marks) (budget : ℕ) (mandatory : List ℕ) : Marks :=
  keepAll keep (keepWhile keep budget .empty (p.order.filter p.sink)) mandatory

/-- The blocks that are always kept. -/
def alwaysKeep (keep : Marks → ℕ → Marks) (budget recent : ℕ) (mandatory : List ℕ)
    (error : PickError) : Except PickError Marks :=
  let m := p.keepMandatory keep budget mandatory
  if budget < m.count then .error error
  else .ok (keepWhile keep budget m (p.recentWindow recent))

/-- The selection, in the order of the directory. -/
def selected (m : Marks) : List ℕ := p.order.filter m.marked

/-! ## The best candidates -/

/-- `better`: by score, then by recency. -/
def better (score : ℕ → ℚ) (a b : ℕ) : Bool :=
  if score a ≠ score b then decide (score b < score a) else p.earlier b a

/-- The unkept candidates. -/
def candidates (score : ℕ → ℚ) (positiveOnly : Bool) (m : Marks) : List ℕ :=
  (List.range p.blockCount).filter fun id =>
    !m.marked id && p.live id && (!positiveOnly || decide (0 < score id))

/-- `take_top`. -/
def takeTop (nth : NthElement) (budget quota : ℕ) (score : ℕ → ℚ) (positiveOnly : Bool)
    (m : Marks) : Marks :=
  if budget ≤ m.count ∨ quota = 0 then m
  else
    let cs := p.candidates score positiveOnly m
    let need := min (min quota (budget - m.count)) cs.length
    keepAll p.keep m (if need < cs.length then (nth.run (p.better score) cs need).take need else cs)

end Pool

/-! ## `pick_topk_blocks` -/

section TopK

variable (p : Pool) (c : PickConfig) (scores : ℕ → BlockScores) (prefill : List (ℕ × ℚ))

/-- `use_prefill`: no block of the history has an action score. -/
def usePrefill : Bool :=
  !prefill.isEmpty && p.order.all fun id => !(p.live id && decide (0 < (scores id).action))

/-- `attention_score`. -/
def attentionScore (id : ℕ) : ℚ :=
  if usePrefill p scores prefill then (prefill.lookup (p.position id)).getD 0
  else (scores id).action

/-- The unkept entries that the fusion normalizes over. -/
def fusionPool (m : Marks) : List ℕ := p.order.filter fun id => !m.marked id

/-- The largest score of a stream, from zero up. -/
def streamMax (score : ℕ → ℚ) (ids : List ℕ) : ℚ := ids.foldl (fun x id => max x (score id)) 0

/-- The sum of a stream in units of its maximum. -/
def streamSum (score : ℕ → ℚ) (ids : List ℕ) : ℚ :=
  if 0 < streamMax score ids then (ids.map fun id => max 0 (score id) / streamMax score ids).sum
  else 0

/-- The weight of the attention stream. -/
def attentionWeight (qsum asum : ℚ) : ℚ :=
  if 0 < asum then if 0 < qsum then c.actionFraction else 1 else 0

/-- The weight of the query stream. -/
def queryWeight (qsum asum : ℚ) : ℚ := if 0 < qsum then 1 - attentionWeight c qsum asum else 0

/-- `fused`. -/
def fusedScore (m : Marks) (id : ℕ) : ℚ :=
  let ids := fusionPool p m
  let q := fun id => (scores id).retrieval
  let a := attentionScore p scores prefill
  let qsum := streamSum q ids
  let asum := streamSum a ids
  let aw := attentionWeight c qsum asum
  let qw := queryWeight c qsum asum
  if id ∈ ids then
    (if 0 < qw then qw * (max 0 (q id) / streamMax q ids) / qsum else 0) +
      (if 0 < aw then aw * (a id / streamMax a ids) / asum else 0)
  else 0

/-- The selection by fused scores. -/
def pickFused (nth : NthElement) (m : Marks) : Except PickError Marks :=
  let ids := fusionPool p m
  let a := attentionScore p scores prefill
  if ids.any fun id => decide (a id < 0) then .error .invalidScores
  else
    let score := if 0 < streamSum (fun id => (scores id).retrieval) ids ∨ 0 < streamSum a ids then
        fusedScore p c scores prefill m
      else fun id => (scores id).retrieval
    .ok (p.takeTop nth c.budget (c.budget - m.count) score false m)

/-- The selection by an action quota. -/
def pickActionQuota (nth : NthElement) (m : Marks) : Marks :=
  let remaining := c.budget - m.count
  let actionQuota := ⌊(remaining : ℚ) * c.actionFraction⌋₊
  let m := p.takeTop nth c.budget (remaining - actionQuota) (fun id => (scores id).retrieval) false m
  let m := p.takeTop nth c.budget actionQuota (attentionScore p scores prefill) true m
  p.takeTop nth c.budget (c.budget - m.count) (fun id => (scores id).retrieval) false m

/-- The two quotas of the `Quota` policy. -/
def quotas (remaining : ℕ) : ℕ × ℕ :=
  if c.retrievalBlocks = 0 ∧ c.profileBlocks = 0 then
    (remaining * 2 / 3, remaining - remaining * 2 / 3)
  else if c.retrievalBlocks = 0 then (remaining - c.profileBlocks, c.profileBlocks)
  else if c.profileBlocks = 0 then (c.retrievalBlocks, remaining - c.retrievalBlocks)
  else (c.retrievalBlocks, c.profileBlocks)

/-- The selection by quotas. -/
def pickQuota (nth : NthElement) (m : Marks) : Marks :=
  let q := quotas c (c.budget - m.count)
  let m := p.takeTop nth c.budget q.1 (fun id => (scores id).retrieval) false m
  let m := p.takeTop nth c.budget q.2 (fun id => (scores id).profile) false m
  p.takeTop nth c.budget (c.budget - m.count) (fun id => (scores id).attn) false m

/-- The selection by cumulative attention. -/
def pickTop (nth : NthElement) (m : Marks) : Marks :=
  p.takeTop nth c.budget (c.budget - m.count) (fun id => (scores id).attn) false m

/-- What is added to the blocks that are always kept. -/
def fill (nth : NthElement) (m : Marks) : Except PickError Marks :=
  if 0 < c.actionFraction ∧ m.count < c.budget then
    if c.combineScores then pickFused p c scores prefill nth m
    else .ok (pickActionQuota p c scores prefill nth m)
  else if c.quota ∧ m.count < c.budget then .ok (pickQuota p c scores nth m)
  else .ok (pickTop p c scores nth m)

/-- `pick_topk_blocks`. -/
def pickTopkBlocks (nth : NthElement) (mandatory : List ℕ) : Except PickError (List ℕ) :=
  if p.blockCount = 0 then .ok []
  else if p.validate mandatory = false then .error .mandatoryDeleted
  else if c.budget = 0 ∨ p.order.length ≤ c.budget then .ok (p.order.filter p.live)
  else
    match p.alwaysKeep p.keep c.budget c.recentBlocks mandatory .sinkExceeds with
    | .error e => .error e
    | .ok m =>
        match fill p c scores prefill nth m with
        | .error e => .error e
        | .ok m => .ok (p.selected m)

end TopK

/-! ## `pick_prefill_pressure_from` -/

/-- The resident candidates with a positive score that are not kept yet, best
first. -/
def pressureCandidates (p : Pool) (m : Marks) (actionScores : List (ℕ × ℚ)) : List (ℕ × ℚ) :=
  (actionScores.filter fun a =>
      decide (a.1 < p.blockCount) && decide (a.1 ∈ p.order) && p.live a.1 && !m.marked a.1 &&
        decide (0 < a.2)).insertionSort
    fun a b => b.2 < a.2 ∨ b.2 = a.2 ∧ p.earlier a.1 b.1 = false

/-- `pick_prefill_pressure_from`. -/
def pickPrefillPressureFrom (p : Pool) (c : PickConfig) (mandatory : List ℕ)
    (actionScores : List (ℕ × ℚ)) : Except PickError (List ℕ) :=
  if p.blockCount = 0 then .ok []
  else if p.validate mandatory = false then .error .mandatoryDeleted
  else if p.repository = true ∧ (mandatory.any fun id => decide (id ∉ p.order)) = true then
    .error .outsideSnapshot
  else if c.prefillBudget = 0 ∨ p.order.length ≤ c.prefillBudget then .ok (p.order.filter p.live)
  else
    let m := p.keepMandatory p.keep c.prefillBudget mandatory
    if c.prefillBudget < m.count then .error .prefillExceeds
    else if actionScores.any fun a => decide (a.2 < 0) then .error .invalidPressureScore
    else
      let resident := fun id => decide (id ∈ p.order) && p.live id &&
        actionScores.any fun a => decide (a.1 = id)
      let m := keepWhile p.keep c.prefillBudget m ((pressureCandidates p m actionScores).map Prod.fst)
      let rest := if actionScores.isEmpty then p.order.reverse else p.order.reverse.filter resident
      .ok (p.selected (keepWhile p.keep c.prefillBudget m rest))

/-! ## Semantic groups -/

/-- The greedy loop over the groups, best first: a group is added whole or not
at all.  `blocks` lists the blocks of a group, or says that it is skipped. -/
def addGroups (keep : Marks → ℕ → Marks) (budget : ℕ) (blocks : ℕ → Option (List ℕ)) :
    List ℕ → Marks → Marks
  | [], m => m
  | g :: rest, m =>
      match blocks g with
      | none => addGroups keep budget blocks rest m
      | some ids =>
          if budget - m.count < (ids.filter fun id => !m.marked id).length then
            addGroups keep budget blocks rest m
          else
            let m := keepAll keep m ids
            if m.count = budget then m else addGroups keep budget blocks rest m

/-- The groups in the order of their scores; recency breaks ties. -/
def rankedGroups (n : ℕ) (score : ℕ → ℚ) : List ℕ :=
  (List.range n).insertionSort fun a b => score b < score a ∨ score a = score b ∧ b ≤ a

/-- The blocks of a group of a legacy store, where it is in range and live. -/
def groupBlocks (p : Pool) (blockTokens covered : ℕ) (span : ℕ × ℕ) : Option (List ℕ) :=
  let bt := max 1 blockTokens
  if span.2 ≤ span.1 ∨ covered ≤ span.1 then none
  else
    let first := span.1 / bt
    let last := min ((min span.2 covered - 1) / bt) (p.blockCount - 1)
    if p.blockCount ≤ first then none
    else
      let ids := List.range' first (last + 1 - first)
      if ids.all p.live then some ids else none

/-- `pick_semantic_groups` of a legacy store with the given `covered_tokens`. -/
def Pool.pickSemanticGroups (p : Pool) (c : PickConfig) (blockTokens covered : ℕ)
    (groups : List (ℕ × ℕ)) (scores : List ℚ) (mandatory : List ℕ) : Except PickError (List ℕ) :=
  if p.blockCount = 0 then .ok []
  else if p.validate mandatory = false then .error .mandatoryDeleted
  else if groups.length ≠ scores.length then .error .groupMismatch
  else if c.budget = 0 ∨ p.blockCount ≤ c.budget then .ok (p.order.filter p.live)
  else
    match p.alwaysKeep p.keep c.budget c.recentBlocks mandatory .semanticExceeds with
    | .error e => .error e
    | .ok m => .ok (p.selected (addGroups p.keep c.budget
        (fun g => groupBlocks p blockTokens covered (groups.getD g (0, 0)))
        (rankedGroups groups.length fun g => scores.getD g 0) m))

/-- `covered_tokens`: the end of the last block. -/
def Legacy.coveredTokens (s : Legacy) : ℕ :=
  (s.blocks (s.blockCount - 1)).origPosStart + (s.blocks (s.blockCount - 1)).nTokens

/-- `pick_semantic_groups`. -/
def Legacy.pickSemanticGroups (s : Legacy) (sinkBlocks : ℕ) (view : Option (ℕ → Bool))
    (c : PickConfig) (groups : List (ℕ × ℕ)) (scores : List ℚ) (mandatory : List ℕ) :
    Except PickError (List ℕ) :=
  (s.pool sinkBlocks view).pickSemanticGroups c s.config.blockTokens s.coveredTokens groups scores
    mandatory

/-- The loop of `history_span_blocks` over the directory, with `require_complete`;
`none` where the interval has a gap. -/
def visitSpan (s : State) (live : ℕ → Bool) (first stop : ℕ) :
    List (ℕ × KvMemBlockHandle) → ℕ → Option (List ℕ)
  | [], covered => if covered < stop then none else some []
  | e :: rest, covered =>
      if stop ≤ e.1 then if covered < stop then none else some []
      else
        let b := s.blocks e.2.slot
        let last := b.historyPosStart + b.nTokens
        if live e.2.slot = false ∨ last ≤ first ∨ stop ≤ b.historyPosStart then
          visitSpan s live first stop rest covered
        else if covered < b.historyPosStart then none
        else (visitSpan s live first stop rest (max covered (min stop last))).map (e.2.slot :: ·)

/-- `history_span_blocks(begin, end, true)` of a store with a repository. -/
def historySpanBlocks (s : State) (live : ℕ → Bool) (first stop : ℕ) : Option (List ℕ) :=
  if stop ≤ first then some [] else visitSpan s live first stop (s.history.floor first) first

/-- The blocks of a group, where its span is in range and whole. -/
def repositoryGroup (s : State) (live : ℕ → Bool) (span : ℕ × ℕ) : Option (List ℕ) :=
  if span.2 ≤ span.1 ∨ s.totalTokens ≤ span.1 then none
  else historySpanBlocks s live span.1 (min span.2 s.totalTokens)

/-- `pick_repository_semantic_groups`.  Its `keep` has no liveness check. -/
def State.pickRepositorySemanticGroups (s : State) (sinkBlocks : ℕ) (c : PickConfig)
    (groups : List (ℕ × ℕ)) (scores : List ℚ) (mandatory : List ℕ) : Except PickError (List ℕ) :=
  let p := s.pool sinkBlocks
  if groups.length ≠ scores.length then .error .groupScores
  else if p.validate mandatory = false then .error .mandatoryDeleted
  else if c.budget = 0 ∨ p.order.length ≤ c.budget then .ok p.order
  else
    match p.alwaysKeep Marks.add c.budget c.recentBlocks mandatory .groupExceeds with
    | .error e => .error e
    | .ok m => .ok (p.selected (addGroups Marks.add c.budget
        (fun g => repositoryGroup s p.live (groups.getD g (0, 0)))
        (rankedGroups groups.length fun g => scores.getD g 0) m))

end Qw3.Store
