import Mathlib.Algebra.BigOperators.Ring.List
import Mathlib.Algebra.Order.BigOperators.Group.List
import Mathlib.Tactic.Linarith
import Qw3.Store.Backing
import Qw3.Store.TopK

/-!
# Deleted blocks in the score fusion

The fusion of `pick_topk_blocks` normalizes over the unkept entries of the
directory.  The directory of a legacy store has its deleted blocks too.

A deleted block is never selected, but its scores set the scale of a channel.  Within one
channel that changes no order; it can change one only where two channels are weighed
against each other, and only where some live block has to be left out.

* `Pool.Isolated` — two stores that agree on their live blocks select the same.
* `Pool.Contested` — the fusion has to choose between live blocks.
* `Pool.PrefillAlone` — the prefill scores alone decide.
* `fusionIsolation` — the selection is isolated from the deleted blocks exactly
  where there are none, nothing is contested, or the prefill scores decide.
* `deletedBlock_decides` — two stores of three blocks that select differently.
-/

namespace Qw3.Store

/-! ## Ranks -/

section Ranks

variable {p : Pool} {m : Marks} {nth : NthElement} {budget quota : ℕ} {score score' : ℕ → ℚ}

/-- Where there is room for all candidates the scores do not matter. -/
theorem takeTop_all (hp : p.Ok)
    (hroom : (p.candidates score false m).length ≤ min quota (budget - m.count)) :
    p.takeTop nth budget quota score false m = p.takeTop nth budget quota score' false m := by
  obtain ⟨chosen, heq, hnodup, hmem, hlength, -⟩ := takeTop_spec hp nth budget quota score false m
  obtain ⟨chosen', heq', hnodup', hmem', hlength', -⟩ :=
    takeTop_spec hp nth budget quota score' false m
  have hcs : p.candidates score' false m = p.candidates score false m := rfl
  rw [hcs] at hmem' hlength'
  have hall : ∀ {l : List ℕ}, l.Nodup → (∀ id ∈ l, id ∈ p.candidates score false m) →
      l.length = min (min quota (budget - m.count)) (p.candidates score false m).length →
        ∀ id, id ∈ l ↔ id ∈ p.candidates score false m := fun hl hsub hlen id => by
    rw [min_eq_right hroom] at hlen
    exact ((List.subperm_of_subset hl hsub).perm_of_length_le hlen.ge).mem_iff
  rw [heq, heq']
  refine Marks.addAll_congr hnodup hnodup' (fun id hid => (mem_candidates.mp (hmem id hid)).2.1) ?_
  intro id
  rw [hall hnodup hmem hlength, hall hnodup' hmem' hlength']

/-- Only the rank of the candidates matters. -/
theorem takeTop_rank (hp : p.Ok) (htotal : ∀ a b, p.earlier a b = false → p.earlier b a = false → a = b)
    (hrank : ∀ x ∈ p.candidates score false m, ∀ y ∈ p.candidates score false m,
      p.better score y x = p.better score' y x) :
    p.takeTop nth budget quota score false m = p.takeTop nth budget quota score' false m := by
  obtain ⟨chosen, heq, hnodup, hmem, hlength, hbest⟩ :=
    takeTop_spec hp nth budget quota score false m
  obtain ⟨chosen', heq', hnodup', hmem', hlength', hbest'⟩ :=
    takeTop_spec hp nth budget quota score' false m
  have hcs : p.candidates score' false m = p.candidates score false m := rfl
  rw [hcs] at hmem' hlength' hbest'
  have hlen : chosen.length = chosen'.length := hlength.trans hlength'.symm
  have hswap : ∀ x ∈ chosen, ∀ y ∈ chosen', y ∉ chosen → x ∉ chosen' → False := by
    intro x hx y hy hyx hxy
    have h := hbest x hx y (hmem' y hy) hyx
    have h' := hbest' y hy x (hmem x hx) hxy
    rw [← hrank y (hmem' y hy) x (hmem x hx)] at h'
    exact hyx (better_total (htotal x y) h h' ▸ hx)
  rw [heq, heq']
  refine Marks.addAll_congr hnodup hnodup' (fun id hid => (mem_candidates.mp (hmem id hid)).2.1) ?_
  intro id
  constructor
  · exact mem_of_no_swap hnodup' hlen hswap id
  · refine mem_of_no_swap hnodup hlen.symm ?_ id
    intro y hy x hx hxy hyx
    exact hswap x hx y hy hyx hxy

/-- Something with room enough above it is taken. -/
theorem takeTop_takes (hp : p.Ok) {x : ℕ} (above : List ℕ)
    (hx : x ∈ p.candidates score false m) (hmem : x ∈ above)
    (hroom : above.length ≤ min (min quota (budget - m.count)) (p.candidates score false m).length)
    (hbetter : ∀ z ∈ p.candidates score false m, z ∉ above → p.better score x z = true) :
    (p.takeTop nth budget quota score false m).marked x = true := by
  obtain ⟨chosen, heq, hnodup, hsub, hlength, hbest⟩ := takeTop_spec hp nth budget quota score false m
  rw [heq, Marks.addAll_marked]
  by_contra hnot
  have hout : x ∉ chosen := fun h => hnot (.inl h)
  have hin : ∀ z ∈ x :: chosen, z ∈ above := by
    intro z hz
    rcases List.mem_cons.mp hz with rfl | hz
    · exact hmem
    · by_contra habove
      have hfalse := hbest z hz x hx hout
      rw [hbetter z (hsub z hz) habove] at hfalse
      cases hfalse
  have hle := (List.subperm_of_subset (List.nodup_cons.mpr ⟨hout, hnodup⟩) hin).length_le
  rw [List.length_cons] at hle
  omega

/-- Something with too many above it is left. -/
theorem takeTop_leaves (hp : p.Ok) {x : ℕ} (above : List ℕ)
    (hx : x ∈ p.candidates score false m) (hnodup : (x :: above).Nodup)
    (hroom : quota ≤ above.length) (habove : ∀ z ∈ above, z ∈ p.candidates score false m)
    (hbetter : ∀ z ∈ above, p.better score z x = true) :
    (p.takeTop nth budget quota score false m).marked x = false := by
  obtain ⟨chosen, heq, -, -, hlength, hbest⟩ := takeTop_spec hp nth budget quota score false m
  rw [heq, ← Bool.not_eq_true, Marks.addAll_marked]
  rintro (hin | hmarked)
  · have hsub : ∀ z ∈ x :: above, z ∈ chosen := by
      intro z hz
      rcases List.mem_cons.mp hz with rfl | hz
      · exact hin
      · by_contra hout
        have hfalse := hbest x hin z (habove z hz) hout
        rw [hbetter z hz] at hfalse
        cases hfalse
    have hle := (List.subperm_of_subset hnodup hsub).length_le
    rw [List.length_cons] at hle
    omega
  · rw [(mem_candidates.mp hx).2.1] at hmarked
    cases hmarked

end Ranks

/-! ## The fused scores -/

section Streams

variable {score score' : ℕ → ℚ} {ids : List ℕ} {id : ℕ}

/-- The sum of the positive scores. -/
def streamTotal (score : ℕ → ℚ) (ids : List ℕ) : ℚ := (ids.map fun id => max 0 (score id)).sum

theorem foldl_max_le (score : ℕ → ℚ) (ids : List ℕ) (x : ℚ) :
    x ≤ ids.foldl (fun x id => max x (score id)) x ∧
      ∀ id ∈ ids, score id ≤ ids.foldl (fun x id => max x (score id)) x := by
  induction ids generalizing x with
  | nil => exact ⟨le_rfl, fun _ h => by cases h⟩
  | cons a ids ih =>
      obtain ⟨hx, hrest⟩ := ih (max x (score a))
      refine ⟨(le_max_left _ _).trans hx, fun id hid => ?_⟩
      rcases List.mem_cons.mp hid with rfl | hid
      · exact (le_max_right _ _).trans hx
      · exact hrest id hid

theorem foldl_max_eq (score : ℕ → ℚ) (ids : List ℕ) (x : ℚ) :
    ids.foldl (fun x id => max x (score id)) x = x ∨
      ∃ id ∈ ids, ids.foldl (fun x id => max x (score id)) x = score id := by
  induction ids generalizing x with
  | nil => exact .inl rfl
  | cons a ids ih =>
      rcases ih (max x (score a)) with h | ⟨id, hid, h⟩
      · rcases max_choice x (score a) with hmax | hmax
        · exact .inl (h.trans hmax)
        · exact .inr ⟨a, List.mem_cons_self, h.trans hmax⟩
      · exact .inr ⟨id, List.mem_cons_of_mem _ hid, h⟩

theorem streamMax_pos : 0 < streamMax score ids ↔ ∃ id ∈ ids, 0 < score id := by
  constructor
  · intro h
    rcases foldl_max_eq score ids 0 with hzero | ⟨id, hid, hmax⟩
    · exact absurd h (hzero ▸ lt_irrefl _)
    · exact ⟨id, hid, hmax ▸ h⟩
  · rintro ⟨id, hid, h⟩
    exact h.trans_le ((foldl_max_le score ids 0).2 id hid)

theorem le_streamTotal (hid : id ∈ ids) : score id ≤ streamTotal score ids := by
  have hle := List.single_le_sum (l := ids.map fun id => max 0 (score id))
    (fun x hx => by
      obtain ⟨id, -, rfl⟩ := List.mem_map.mp hx
      exact le_max_left _ _) _ (List.mem_map_of_mem hid)
  exact (le_max_right _ _).trans hle

theorem streamTotal_congr (h : ∀ id ∈ ids, score id = score' id) :
    streamTotal score ids = streamTotal score' ids := by
  unfold streamTotal
  rw [List.map_congr_left fun id hid => by rw [h id hid]]

theorem streamMax_congr (h : ∀ id ∈ ids, score id = score' id) :
    streamMax score ids = streamMax score' ids := by
  unfold streamMax
  exact List.foldl_ext _ _ _ fun x id hid => by rw [h id hid]

/-- The sum is the total in units of the maximum. -/
theorem streamSum_eq (score : ℕ → ℚ) (ids : List ℕ) :
    streamSum score ids = streamTotal score ids / streamMax score ids := by
  unfold streamSum streamTotal
  split_ifs with h
  · simp only [div_eq_mul_inv]
    rw [List.sum_map_mul_right]
  · have hzero : streamMax score ids = 0 :=
      le_antisymm (not_lt.mp h) (foldl_max_le score ids 0).1
    rw [hzero, div_zero]

theorem streamSum_congr (h : ∀ id ∈ ids, score id = score' id) :
    streamSum score ids = streamSum score' ids := by
  rw [streamSum_eq, streamSum_eq, streamMax_congr h, streamTotal_congr h]

theorem streamSum_pos : 0 < streamSum score ids ↔ ∃ id ∈ ids, 0 < score id := by
  constructor
  · intro h
    by_contra hnone
    unfold streamSum at h
    rw [if_neg fun hmax => hnone (streamMax_pos.mp hmax)] at h
    exact lt_irrefl _ h
  · rintro ⟨id, hid, h⟩
    rw [streamSum_eq]
    exact div_pos (h.trans_le (le_streamTotal hid)) (streamMax_pos.mpr ⟨id, hid, h⟩)

/-- The share of one entry. -/
theorem share_eq (hpos : ∃ id ∈ ids, 0 < score id) (x : ℚ) :
    x / streamMax score ids / streamSum score ids = x / streamTotal score ids := by
  have hmax := (streamMax_pos.mpr hpos).ne'
  rw [streamSum_eq, div_div, mul_div_cancel₀ _ hmax]

end Streams

section Fused

variable {p : Pool} {c : PickConfig} {scores : ℕ → BlockScores} {prefill : List (ℕ × ℚ)}
  {nth : NthElement} {m : Marks} {id : ℕ}

/-- The score by which the fusion selects. -/
def fusionScore (p : Pool) (c : PickConfig) (scores : ℕ → BlockScores) (prefill : List (ℕ × ℚ))
    (m : Marks) : ℕ → ℚ :=
  if 0 < streamSum (fun id => (scores id).retrieval) (fusionPool p m) ∨
      0 < streamSum (attentionScore p scores prefill) (fusionPool p m) then
    fusedScore p c scores prefill m
  else fun id => (scores id).retrieval

theorem pickFused_eq (hnonneg : ∀ id ∈ fusionPool p m, 0 ≤ attentionScore p scores prefill id) :
    pickFused p c scores prefill nth m =
      .ok (p.takeTop nth c.budget (c.budget - m.count) (fusionScore p c scores prefill m) false m) := by
  unfold pickFused
  dsimp only
  rw [if_neg]
  · rfl
  · rw [List.any_eq_true]
    rintro ⟨id, hid, hneg⟩
    exact not_lt.mpr (hnonneg id hid) (of_decide_eq_true hneg)

/-- Both streams have a positive score. -/
theorem fusedScore_both (hpos : 0 < c.actionFraction) (hlt : c.actionFraction < 1)
    (hq : ∃ id ∈ fusionPool p m, 0 < (scores id).retrieval)
    (ha : ∃ id ∈ fusionPool p m, 0 < attentionScore p scores prefill id) (hid : id ∈ fusionPool p m) :
    fusedScore p c scores prefill m id =
      (1 - c.actionFraction) * (max 0 (scores id).retrieval /
        streamTotal (fun id => (scores id).retrieval) (fusionPool p m)) +
      c.actionFraction * (attentionScore p scores prefill id /
        streamTotal (attentionScore p scores prefill) (fusionPool p m)) := by
  unfold fusedScore queryWeight attentionWeight
  dsimp only
  rw [if_pos hid, if_pos (streamSum_pos.mpr hq), if_pos (streamSum_pos.mpr ha),
    if_pos (streamSum_pos.mpr hq), if_pos (sub_pos.mpr hlt), if_pos hpos, mul_div_assoc,
    mul_div_assoc, share_eq hq, share_eq ha]

/-- No entry has attention. -/
theorem fusedScore_query (hzero : ∀ id ∈ fusionPool p m, attentionScore p scores prefill id = 0)
    (hq : ∃ id ∈ fusionPool p m, 0 < (scores id).retrieval) (hid : id ∈ fusionPool p m) :
    fusedScore p c scores prefill m id = max 0 (scores id).retrieval /
      streamTotal (fun id => (scores id).retrieval) (fusionPool p m) := by
  have ha : ¬ 0 < streamSum (attentionScore p scores prefill) (fusionPool p m) := fun h => by
    obtain ⟨id, hid, hpos⟩ := streamSum_pos.mp h
    exact absurd hpos (hzero id hid).not_gt
  unfold fusedScore queryWeight attentionWeight
  dsimp only
  rw [if_pos hid, if_pos (streamSum_pos.mpr hq), if_neg ha, if_neg (lt_irrefl _), add_zero,
    sub_zero, if_pos one_pos, one_mul, share_eq hq]

/-- Only the attention counts. -/
theorem fusedScore_attention (hone : c.actionFraction = 1)
    (ha : ∃ id ∈ fusionPool p m, 0 < attentionScore p scores prefill id) (hid : id ∈ fusionPool p m) :
    fusedScore p c scores prefill m id = attentionScore p scores prefill id /
      streamTotal (attentionScore p scores prefill) (fusionPool p m) := by
  unfold fusedScore queryWeight attentionWeight
  dsimp only
  rw [if_pos hid, if_pos (streamSum_pos.mpr ha), hone, ite_self, sub_self, ite_self,
    if_neg (lt_irrefl _), zero_add, if_pos one_pos, one_mul, share_eq ha]

end Fused

/-! ## Isolation -/

/-- Two stores that differ in the retrieval and action scores of deleted blocks
at most. -/
structure Pool.Agree (p : Pool) (scores scores' : ℕ → BlockScores) : Prop where
  attn : ∀ id, (scores id).attn = (scores' id).attn
  profile : ∀ id, (scores id).profile = (scores' id).profile
  live : ∀ id, p.live id = true → scores id = scores' id

/-- `update_action_scores` refuses negative attention. -/
def NonNegative (scores : ℕ → BlockScores) : Prop := ∀ id, 0 ≤ (scores id).action

/-- Stores that agree select the same. -/
def Pool.Isolated (p : Pool) (c : PickConfig) (prefill : List (ℕ × ℚ)) (nth : NthElement)
    (mandatory : List ℕ) : Prop :=
  ∀ scores scores', NonNegative scores → NonNegative scores' → p.Agree scores scores' →
    pickTopkBlocks p c scores prefill nth mandatory = pickTopkBlocks p c scores' prefill nth mandatory

/-- There is room for some of the blocks that nothing asks for, and not for
all. -/
structure Pool.Contested (p : Pool) (c : PickConfig) (mandatory : List ℕ) : Prop where
  valid : p.validate mandatory = true
  room : p.heldCount c.recentBlocks mandatory < c.budget
  short : c.budget < p.liveCount

/-- The prefill scores alone decide: nothing is weighed against them, nothing is
kept whose own score would replace them, and one of them is not zero. -/
structure Pool.PrefillAlone (p : Pool) (c : PickConfig) (prefill : List (ℕ × ℚ))
    (mandatory : List ℕ) : Prop where
  weight : c.actionFraction = 1
  nonempty : prefill ≠ []
  nothing : p.heldCount c.recentBlocks mandatory = 0
  score : ∃ id ∈ p.order, (prefill.lookup (p.position id)).getD 0 ≠ 0

section Isolation

variable {p : Pool} {c : PickConfig} {scores scores' : ℕ → BlockScores} {prefill : List (ℕ × ℚ)}
  {nth : NthElement} {mandatory : List ℕ} {m : Marks}

theorem usePrefill_agree (h : p.Agree scores scores') :
    usePrefill p scores prefill = usePrefill p scores' prefill := by
  unfold usePrefill
  congr 1
  refine List.all_congr rfl fun id => ?_
  cases hlive : p.live id with
  | false => rfl
  | true => rw [h.live id hlive]

theorem attentionScore_agree (h : p.Agree scores scores') {id : ℕ} (hlive : p.live id = true) :
    attentionScore p scores prefill id = attentionScore p scores' prefill id := by
  unfold attentionScore
  rw [usePrefill_agree h, h.live id hlive]

theorem attentionScore_of_prefill (h : usePrefill p scores prefill = true) :
    attentionScore p scores prefill = fun id => (prefill.lookup (p.position id)).getD 0 := by
  funext id
  exact if_pos h

theorem attentionScore_of_action (h : usePrefill p scores prefill = false) :
    attentionScore p scores prefill = fun id => (scores id).action := by
  funext id
  exact if_neg (by rw [h]; exact Bool.false_ne_true)

/-- Whether the scores are refused does not depend on the deleted blocks. -/
theorem pickFused_agree (hn : NonNegative scores) (hn' : NonNegative scores')
    (h : p.Agree scores scores')
    (hsame : (∀ id ∈ fusionPool p m, 0 ≤ attentionScore p scores prefill id) →
      p.takeTop nth c.budget (c.budget - m.count) (fusionScore p c scores prefill m) false m =
        p.takeTop nth c.budget (c.budget - m.count) (fusionScore p c scores' prefill m) false m) :
    pickFused p c scores prefill nth m = pickFused p c scores' prefill nth m := by
  cases huse : usePrefill p scores prefill with
  | false =>
      have hattention := attentionScore_of_action huse
      have hattention' := attentionScore_of_action (usePrefill_agree h ▸ huse)
      have hnonneg : ∀ id ∈ fusionPool p m, 0 ≤ attentionScore p scores prefill id := by
        intro id _
        rw [hattention]
        exact hn id
      rw [pickFused_eq hnonneg, pickFused_eq fun id _ => by rw [hattention']; exact hn' id,
        hsame hnonneg]
  | true =>
      have hattention : attentionScore p scores' prefill = attentionScore p scores prefill := by
        rw [attentionScore_of_prefill huse,
          attentionScore_of_prefill (usePrefill_agree h ▸ huse)]
      by_cases hneg : (fusionPool p m).any (fun id => decide (attentionScore p scores prefill id < 0)) = true
      · unfold pickFused
        dsimp only
        rw [hattention, if_pos hneg, if_pos hneg]
      · have hnonneg : ∀ id ∈ fusionPool p m, 0 ≤ attentionScore p scores prefill id := by
          intro id hid
          by_contra hlt
          exact hneg (List.any_eq_true.mpr ⟨id, hid, decide_eq_true (not_le.mp hlt)⟩)
        rw [pickFused_eq hnonneg, pickFused_eq (hattention ▸ hnonneg), hsame hnonneg]

theorem fill_of_room (hcombine : c.combineScores = true) (hpos : 0 < c.actionFraction)
    (hlt : m.count < c.budget) :
    fill p c scores prefill nth m = pickFused p c scores prefill nth m := by
  rw [fill, if_pos ⟨hpos, hlt⟩, if_pos hcombine]

/-- Where the fusion is reached, it decides. -/
theorem pick_of_room (hcombine : c.combineScores = true) (hpos : 0 < c.actionFraction)
    (hblocks : p.blockCount ≠ 0) (hvalid : p.validate mandatory = true)
    (hlarge : ¬ (c.budget = 0 ∨ p.order.length ≤ c.budget))
    (hm : p.alwaysKeep p.keep c.budget c.recentBlocks mandatory .sinkExceeds = .ok m)
    (hlt : m.count < c.budget) :
    pickTopkBlocks p c scores prefill nth mandatory =
      (pickFused p c scores prefill nth m).map p.selected := by
  unfold pickTopkBlocks
  rw [if_neg hblocks, if_neg (by rw [hvalid]; decide), if_neg hlarge, hm]
  dsimp only
  rw [fill_of_room hcombine hpos hlt]
  cases pickFused p c scores prefill nth m <;> rfl

theorem liveCount_le_order (hstray : p.NoStray) : p.liveCount ≤ p.order.length := by
  rw [Pool.liveCount, List.countP_eq_length_filter]
  refine (List.subperm_of_subset (List.nodup_range.filter _) fun id hid => ?_).length_le
  exact hstray id (List.mem_filter.mp hid).2

/-- What the fusion decides about when there is something to decide. -/
theorem Pool.Contested.pick (hp : p.Ok) (hstray : p.NoStray) (h : p.Contested c mandatory)
    (hcombine : c.combineScores = true) (hpos : 0 < c.actionFraction) :
    ∃ m, p.Kept m ∧ m.count = p.heldCount c.recentBlocks mandatory ∧
      (∀ id, m.marked id = true ↔ p.Held c.recentBlocks mandatory id = true) ∧
      ∀ nth scores prefill, pickTopkBlocks p c scores prefill nth mandatory =
        (pickFused p c scores prefill nth m).map p.selected := by
  obtain ⟨m, hm, hlt⟩ := exists_alwaysKeep hp .sinkExceeds h.room
  have hspec := alwaysKeep_spec hp hm
  have hshort := h.short
  have hroom := h.room
  have horder := liveCount_le_order hstray
  have hcount : p.liveCount ≤ p.blockCount := by
    have := List.countP_le_length (p := p.live) (l := List.range p.blockCount)
    rwa [List.length_range] at this
  refine ⟨m, hspec.kept, alwaysKept_count hp hm hlt, fun id => ⟨held_of_alwaysKept hspec,
    alwaysKept_of_held hp hm hlt⟩, fun nth scores prefill => ?_⟩
  exact pick_of_room hcombine hpos (by omega) h.valid (by omega) hm hlt

/-- The scores at the candidates are all that matters. -/
theorem takeTop_congr (hp : p.Ok) (htotal : ∀ a b, p.earlier a b = false → p.earlier b a = false → a = b)
    {quota : ℕ} {score score' : ℕ → ℚ}
    (h : ∀ id ∈ p.candidates score false m, score id = score' id) :
    p.takeTop nth c.budget quota score false m = p.takeTop nth c.budget quota score' false m := by
  refine takeTop_rank hp htotal fun x hx y hy => ?_
  unfold Pool.better
  rw [h x hx, h y hy]

theorem better_scaled {score score' a : ℕ → ℚ} {t t' : ℚ} {x y : ℕ} (ht : 0 < t) (ht' : 0 < t')
    (hx : score x = a x / t) (hy : score y = a y / t) (hx' : score' x = a x / t')
    (hy' : score' y = a y / t') : p.better score y x = p.better score' y x := by
  unfold Pool.better
  rw [hx, hy, hx', hy']
  refine if_congr ?_ (decide_eq_decide.mpr ?_) rfl
  · rw [ne_eq, ne_eq, div_left_inj' ht.ne', div_left_inj' ht'.ne']
  · rw [div_lt_div_iff_of_pos_right ht, div_lt_div_iff_of_pos_right ht']

/-- Nothing in the directory is deleted. -/
theorem fusionScore_agree (hlive : ∀ id ∈ p.order, p.live id = true) (h : p.Agree scores scores')
    {id : ℕ} (hid : p.live id = true) :
    fusionScore p c scores prefill m id = fusionScore p c scores' prefill m id := by
  have hpool : ∀ j ∈ fusionPool p m, p.live j = true := fun j hj =>
    hlive j (List.mem_filter.mp hj).1
  have hq : ∀ j ∈ fusionPool p m, (scores j).retrieval = (scores' j).retrieval := fun j hj => by
    rw [h.live j (hpool j hj)]
  have ha : ∀ j ∈ fusionPool p m,
      attentionScore p scores prefill j = attentionScore p scores' prefill j := fun j hj =>
    attentionScore_agree h (hpool j hj)
  unfold fusionScore
  rw [streamSum_congr hq, streamSum_congr ha]
  split_ifs
  · unfold fusedScore
    dsimp only
    rw [streamSum_congr hq, streamSum_congr ha, streamMax_congr hq, streamMax_congr ha,
      h.live id hid, attentionScore_agree h hid]
  · exact congrArg BlockScores.retrieval (h.live id hid)

variable (htotal : ∀ a b, p.earlier a b = false → p.earlier b a = false → a = b)
  (hcombine : c.combineScores = true) (hpos : 0 < c.actionFraction)
include htotal hcombine hpos

theorem isolated_of_allLive (hp : p.Ok) (hlive : ∀ id ∈ p.order, p.live id = true) :
    p.Isolated c prefill nth mandatory := by
  intro scores scores' hn hn' h
  unfold pickTopkBlocks
  split_ifs
  · rfl
  · rfl
  · rfl
  · cases hm : p.alwaysKeep p.keep c.budget c.recentBlocks mandatory .sinkExceeds with
    | error e => rfl
    | ok m =>
        dsimp only
        by_cases hlt : m.count < c.budget
        · rw [fill_of_room hcombine hpos hlt, fill_of_room hcombine hpos hlt,
            pickFused_agree hn hn' h fun _ => (takeTop_congr hp htotal fun id hid =>
              fusionScore_agree hlive h (mem_candidates.mp hid).2.2.1)]
        · rw [fill_of_full (not_lt.mp hlt), fill_of_full (not_lt.mp hlt)]

omit htotal in
theorem isolated_of_not_contested (hp : p.Ok) (hcontested : ¬ p.Contested c mandatory) :
    p.Isolated c prefill nth mandatory := by
  intro scores scores' hn hn' h
  unfold pickTopkBlocks
  split_ifs with hblocks hvalid hlarge
  · rfl
  · rfl
  · rfl
  · cases hm : p.alwaysKeep p.keep c.budget c.recentBlocks mandatory .sinkExceeds with
    | error e => rfl
    | ok m =>
        dsimp only
        by_cases hlt : m.count < c.budget
        · have hroom := alwaysKept_count hp hm hlt ▸ hlt
          have hall : p.liveCount ≤ c.budget := by
            by_contra hshort
            exact hcontested ⟨by simpa using hvalid, hroom, not_le.mp hshort⟩
          rw [fill_of_room hcombine hpos hlt, fill_of_room hcombine hpos hlt,
            pickFused_agree hn hn' h fun _ => takeTop_all hp ?_]
          rw [candidates_length (alwaysKeep_spec hp hm).kept, min_self]
          omega
        · rw [fill_of_full (not_lt.mp hlt), fill_of_full (not_lt.mp hlt)]

theorem isolated_of_prefillAlone (hp : p.Ok) (hstray : p.NoStray)
    (hcontested : p.Contested c mandatory) (halone : p.PrefillAlone c prefill mandatory) :
    p.Isolated c prefill nth mandatory := by
  intro scores scores' hn hn' h
  obtain ⟨m, hkept, hcount, -, hpick⟩ := hcontested.pick hp hstray hcombine hpos
  rw [hpick, hpick]
  refine congrArg _ (pickFused_agree hn hn' h fun hnonneg => ?_)
  -- nothing is kept, so the fusion is over the whole directory
  have hnone : ∀ id, m.marked id = false := fun id => by
    rw [Bool.eq_false_iff]
    intro hid
    have hzero := hkept.ok.count
    rw [hcount, halone.nothing] at hzero
    exact List.countP_eq_zero.mp hzero.symm id (List.mem_range.mpr (hkept.ok.lt id hid)) hid
  have hpool : fusionPool p m = p.order := List.filter_eq_self.mpr fun id _ => by rw [hnone]; rfl
  have hcandidate : ∀ id ∈ p.candidates (fusionScore p c scores prefill m) false m,
      id ∈ p.order ∧ p.live id = true := fun id hid =>
    ⟨hstray id (mem_candidates.mp hid).2.2.1, (mem_candidates.mp hid).2.2.1⟩
  have hscore : ∀ {scores : ℕ → BlockScores}, (∃ id ∈ fusionPool p m,
      0 < attentionScore p scores prefill id) → ∀ id ∈ p.order,
      fusionScore p c scores prefill m id = attentionScore p scores prefill id /
        streamTotal (attentionScore p scores prefill) (fusionPool p m) := by
    intro scores ha id hid
    rw [fusionScore, if_pos (.inr (streamSum_pos.mpr ha))]
    exact fusedScore_attention halone.weight ha (hpool ▸ hid)
  cases huse : usePrefill p scores prefill with
  | true =>
      have hattention := attentionScore_of_prefill huse
      have hattention' := attentionScore_of_prefill (usePrefill_agree h ▸ huse)
      obtain ⟨id₀, hid₀, hne⟩ := halone.score
      have ha : ∃ id ∈ fusionPool p m, 0 < attentionScore p scores prefill id := by
        refine ⟨id₀, hpool ▸ hid₀, lt_of_le_of_ne (hnonneg id₀ (hpool ▸ hid₀)) ?_⟩
        rw [hattention]
        exact hne.symm
      refine takeTop_congr hp htotal fun id hid => ?_
      rw [hscore ha id (hcandidate id hid).1, hscore (hattention'.trans hattention.symm ▸ ha) id
        (hcandidate id hid).1, hattention, hattention']
  | false =>
      -- the score of a live block replaces them
      have hlive : ∃ id ∈ p.order, p.live id = true ∧ 0 < (scores id).action := by
        have hempty : prefill.isEmpty = false := by
          rw [List.isEmpty_eq_false_iff]
          exact halone.nonempty
        rw [usePrefill, hempty, Bool.not_false, Bool.true_and, List.all_eq_false] at huse
        obtain ⟨id, hid, hnot⟩ := huse
        rw [Bool.not_eq_true, Bool.not_eq_false', Bool.and_eq_true, decide_eq_true_iff] at hnot
        exact ⟨id, hid, hnot⟩
      obtain ⟨id₁, hid₁, hlive₁, hpos₁⟩ := hlive
      have hattention := attentionScore_of_action huse
      have hpos₁ : 0 < attentionScore p scores prefill id₁ := by
        rw [hattention]
        exact hpos₁
      have ha : ∃ id ∈ fusionPool p m, 0 < attentionScore p scores prefill id :=
        ⟨id₁, hpool ▸ hid₁, hpos₁⟩
      have ha' : ∃ id ∈ fusionPool p m, 0 < attentionScore p scores' prefill id :=
        ⟨id₁, hpool ▸ hid₁, attentionScore_agree h hlive₁ ▸ hpos₁⟩
      have htotal_pos : ∀ {a : ℕ → ℚ}, (∃ id ∈ fusionPool p m, 0 < a id) →
          0 < streamTotal a (fusionPool p m) := fun ⟨id, hid, hpos⟩ =>
        hpos.trans_le (le_streamTotal hid)
      have hsame : ∀ id ∈ p.candidates (fusionScore p c scores prefill m) false m,
          fusionScore p c scores' prefill m id = attentionScore p scores prefill id /
            streamTotal (attentionScore p scores' prefill) (fusionPool p m) := fun id hid => by
        rw [hscore ha' id (hcandidate id hid).1, attentionScore_agree h (hcandidate id hid).2]
      refine takeTop_rank hp htotal fun x hx y hy => ?_
      exact better_scaled (htotal_pos ha) (htotal_pos ha') (hscore ha x (hcandidate x hx).1)
        (hscore ha y (hcandidate y hy).1) (hsame x hx) (hsame y hy)

end Isolation

/-! ## Two stores that select differently -/

section Swap

variable {p : Pool} {c : PickConfig} {prefill : List (ℕ × ℚ)} {nth : NthElement}
  {mandatory : List ℕ} {m : Marks} {x d : ℕ}

/-- One store selects a block and the other leaves it. -/
theorem not_isolated_of_swap (scores scores' : ℕ → BlockScores) (hn : NonNegative scores)
    (hn' : NonNegative scores') (h : p.Agree scores scores')
    (hpick : ∀ scores, pickTopkBlocks p c scores prefill nth mandatory =
      (pickFused p c scores prefill nth m).map p.selected)
    (ha : ∀ id ∈ fusionPool p m, 0 ≤ attentionScore p scores prefill id)
    (ha' : ∀ id ∈ fusionPool p m, 0 ≤ attentionScore p scores' prefill id) (hx : x ∈ p.order)
    (htakes : (p.takeTop nth c.budget (c.budget - m.count) (fusionScore p c scores prefill m) false
      m).marked x = true)
    (hleaves : (p.takeTop nth c.budget (c.budget - m.count) (fusionScore p c scores' prefill m) false
      m).marked x = false) :
    ¬ p.Isolated c prefill nth mandatory := by
  intro hisolated
  have hsame := hisolated scores scores' hn hn' h
  rw [hpick, hpick, pickFused_eq ha, pickFused_eq ha'] at hsame
  have hmem := mem_selected.mpr ⟨hx, htakes⟩
  rw [show p.selected _ = p.selected _ from Except.ok.inj hsame] at hmem
  rw [(mem_selected.mp hmem).2] at hleaves
  cases hleaves

theorem mem_fusionPool (hkept : p.Kept m) (hd : d ∈ p.order) (hdead : p.live d = false) :
    d ∈ fusionPool p m := by
  refine List.mem_filter.mpr ⟨hd, ?_⟩
  cases hmark : m.marked d with
  | false => rfl
  | true =>
      rw [hkept.live d hmark] at hdead
      cases hdead

theorem better_of_lt {score : ℕ → ℚ} {a b : ℕ} (h : score b < score a) :
    p.better score a b = true := by
  unfold Pool.better
  rw [if_pos h.ne']
  exact decide_eq_true h

theorem candidate_facts (hstray : p.NoStray) (hdead : p.live d = false) {score : ℕ → ℚ} {z : ℕ}
    (hz : z ∈ p.candidates score false m) :
    z ∈ fusionPool p m ∧ p.live z = true ∧ z ≠ d := by
  obtain ⟨-, hmark, hlive, -⟩ := mem_candidates.mp hz
  refine ⟨List.mem_filter.mpr ⟨hstray z hlive, by rw [hmark]; rfl⟩, hlive, ?_⟩
  rintro rfl
  rw [hlive] at hdead
  cases hdead

variable (hp : p.Ok) (hstray : p.NoStray) (hearlier : ∀ a b, p.earlier a b = decide (a < b))
  (hkept : p.Kept m) (hlt : m.count < c.budget) (hshort : c.budget < p.liveCount)
  (hd : d ∈ p.order) (hdead : p.live d = false)
  (hpick : ∀ scores, pickTopkBlocks p c scores prefill nth mandatory =
    (pickFused p c scores prefill nth m).map p.selected)
include hp hstray hearlier hkept hlt hshort hd hdead hpick

/-- Without attention a deleted block with a positive retrieval score hides the
retrieval scores that are not positive. -/
theorem not_isolated_of_quiet {act : ℕ → ℚ} (hact : ∀ id, 0 ≤ act id)
    (hquiet : ∀ (q : ℕ → ℚ), ∀ id ∈ fusionPool p m,
      attentionScore p (fun id => ⟨q id, act id, 0, 0⟩) prefill id = 0) :
    ¬ p.Isolated c prefill nth mandatory := by
  have hdpool := mem_fusionPool hkept hd hdead
  have hlength : (p.candidates act false m).length = _ := candidates_length hkept
  obtain ⟨x, rest, hcs⟩ := List.exists_cons_of_length_pos
    (l := p.candidates act false m) (by omega)
  have hcs' : ∀ score, p.candidates score false m = x :: rest := fun _ => hcs
  rw [hcs, List.length_cons] at hlength
  -- the first candidate is the oldest
  have hsorted : (x :: rest).Pairwise (· < ·) := hcs ▸ List.pairwise_lt_range.filter _
  have hfirst : ∀ z ∈ rest, x < z := (List.pairwise_cons.mp hsorted).1
  have hmem : ∀ z ∈ x :: rest, z ∈ fusionPool p m ∧ p.live z = true ∧ z ≠ d := fun z hz =>
    candidate_facts hstray hdead (show z ∈ p.candidates act false m from hcs ▸ hz)
  have hx := hmem x List.mem_cons_self
  let q : ℚ → ℕ → ℚ := fun u id => if id = d then u else if id = x then 0 else -1
  have hqx : ∀ u, q u x = 0 := fun u => by rw [show q u x = _ from if_neg hx.2.2, if_pos rfl]
  have hqrest : ∀ u, ∀ z ∈ rest, q u z = -1 := fun u z hz => by
    rw [show q u z = _ from if_neg (hmem z (List.mem_cons_of_mem _ hz)).2.2,
      if_neg (hfirst z hz).ne']
  have hnone : ∀ u, ¬ 0 < streamSum
      (attentionScore p (fun id => ⟨q u id, act id, 0, 0⟩) prefill) (fusionPool p m) := fun u h => by
    obtain ⟨id, hid, hpos⟩ := streamSum_pos.mp h
    exact absurd hpos (hquiet (q u) id hid).not_gt
  refine not_isolated_of_swap (x := x) (m := m) (fun id => ⟨q 0 id, act id, 0, 0⟩)
    (fun id => ⟨q 1 id, act id, 0, 0⟩) hact hact ⟨fun _ => rfl, fun _ => rfl, ?_⟩ hpick
    (fun id hid => (hquiet (q 0) id hid).ge) (fun id hid => (hquiet (q 1) id hid).ge)
    (List.mem_filter.mp hx.1).1 ?_ ?_
  · intro id hlive
    have hne : id ≠ d := by
      rintro rfl
      rw [hlive] at hdead
      cases hdead
    show BlockScores.mk (if id = d then _ else _) _ _ _ = BlockScores.mk (if id = d then _ else _) _ _ _
    rw [if_neg hne, if_neg hne]
  · -- by the raw retrieval scores it is the best
    have hscore : fusionScore p c (fun id => ⟨q 0 id, act id, 0, 0⟩) prefill m = q 0 := by
      refine if_neg (not_or.mpr ⟨fun h => ?_, hnone 0⟩)
      obtain ⟨id, -, hpos⟩ := streamSum_pos.mp h
      dsimp only [q] at hpos
      split_ifs at hpos <;> norm_num at hpos
    rw [hscore]
    refine takeTop_takes hp [x] (hcs ▸ List.mem_cons_self) (List.mem_singleton.mpr rfl)
      ?_ fun z hz hne => ?_
    · rw [hcs', List.length_singleton, List.length_cons]
      omega
    · have hz : z ∈ rest := by
        refine (List.mem_cons.mp (hcs' _ ▸ hz)).resolve_left ?_
        exact fun heq => hne (List.mem_singleton.mpr heq)
      unfold Pool.better
      rw [hqx, hqrest 0 z hz, if_pos (by norm_num)]
      exact decide_eq_true (by norm_num)
  · -- by the fused scores all are alike, and it is the oldest
    have hpos : ∃ id ∈ fusionPool p m, 0 < q 1 id :=
      ⟨d, hdpool, by rw [show q 1 d = 1 from if_pos rfl]; exact one_pos⟩
    have hscore : ∀ z ∈ x :: rest,
        fusionScore p c (fun id => ⟨q 1 id, act id, 0, 0⟩) prefill m z = 0 := fun z hz => by
      have hle : q 1 z ≤ 0 := by
        rcases List.mem_cons.mp hz with rfl | hz
        · exact (hqx 1).le
        · rw [hqrest 1 z hz]
          norm_num
      rw [fusionScore, if_pos (.inl (streamSum_pos.mpr hpos)),
        fusedScore_query (hquiet (q 1)) hpos (hmem z hz).1, max_eq_left hle, zero_div]
    refine takeTop_leaves hp rest (hcs ▸ List.mem_cons_self)
      (hsorted.imp fun h => h.ne) (by omega) (fun z hz => ?_) fun z hz => ?_
    · exact hcs' _ ▸ List.mem_cons_of_mem _ hz
    · unfold Pool.better
      rw [hscore z (List.mem_cons_of_mem _ hz), hscore x List.mem_cons_self,
        if_neg (not_not.mpr rfl), hearlier]
      exact decide_eq_true (hfirst z hz)

omit hearlier in
/-- Where both streams have a weight, a deleted block with a high score in one of
them leaves the choice to the other. -/
theorem not_isolated_of_weighed (hpos : 0 < c.actionFraction) (hone : c.actionFraction < 1) :
    ¬ p.Isolated c prefill nth mandatory := by
  have hdpool := mem_fusionPool hkept hd hdead
  have hlength : (p.candidates (fun _ => 0) false m).length = _ := candidates_length hkept
  obtain ⟨x, rest, hcs⟩ := List.exists_cons_of_length_pos
    (l := p.candidates (fun _ => 0) false m) (by omega)
  rw [hcs, List.length_cons] at hlength
  obtain ⟨y, rest, rfl⟩ := List.exists_cons_of_length_pos (l := rest) (by omega)
  rw [List.length_cons] at hlength
  have hcs' : ∀ score, p.candidates score false m = x :: y :: rest := fun _ => hcs
  have hnodup : (x :: y :: rest).Nodup := hcs ▸ List.nodup_range.filter _
  obtain ⟨hxnot, hnodup⟩ := List.nodup_cons.mp hnodup
  obtain ⟨hynot, hnodup⟩ := List.nodup_cons.mp hnodup
  have hmem : ∀ z ∈ x :: y :: rest, z ∈ fusionPool p m ∧ p.live z = true ∧ z ≠ d := fun z hz =>
    candidate_facts hstray hdead (show z ∈ p.candidates (fun _ => 0) false m from hcs ▸ hz)
  have hx := hmem x List.mem_cons_self
  have hy := hmem y (List.mem_cons_of_mem _ List.mem_cons_self)
  -- `x` and `y` are rivals for the last place beside `common`
  obtain ⟨common, hcommon⟩ : ∃ l, l = rest.take (c.budget - m.count - 1) := ⟨_, rfl⟩
  have hroom : common.length + 1 = c.budget - m.count := by
    rw [hcommon, List.length_take]
    omega
  have hsub : ∀ z ∈ common, z ∈ rest := fun z hz => List.mem_of_mem_take (hcommon ▸ hz)
  have hcommon_nodup : common.Nodup := hcommon ▸ hnodup.sublist (List.take_sublist _ _)
  have hxcommon : x ∉ y :: common := fun h => hxnot <| by
    rcases List.mem_cons.mp h with rfl | h
    · exact List.mem_cons_self
    · exact List.mem_cons_of_mem _ (hsub x h)
  have hin : ∀ z ∈ y :: common, z ∈ x :: y :: rest := fun z hz => List.mem_cons_of_mem _ <| by
    rcases List.mem_cons.mp hz with rfl | hz
    · exact List.mem_cons_self
    · exact List.mem_cons_of_mem _ (hsub z hz)
  let q : ℚ → ℕ → ℚ := fun u id => if id = d then u else if id ∈ x :: common then 1 else 0
  let a : ℚ → ℕ → ℚ := fun v id => if id = d then v else if id ∈ y :: common then 1 else 0
  let S : ℚ → ℚ → ℕ → BlockScores := fun u v id => ⟨q u id, a v id, 0, 0⟩
  have hq : ∀ u id, id ≠ d → q u id = if id ∈ x :: common then 1 else 0 := fun u id h => if_neg h
  have ha : ∀ v id, id ≠ d → a v id = if id ∈ y :: common then 1 else 0 := fun v id h => if_neg h
  have hqd : ∀ u, q u d = u := fun u => if_pos rfl
  have had : ∀ v, a v d = v := fun v => if_pos rfl
  have hnonneg : ∀ {v}, 0 ≤ v → ∀ id, 0 ≤ a v id := fun hv id => by
    by_cases h : id = d
    · rw [h, had]
      exact hv
    · rw [ha _ _ h]
      split_ifs <;> norm_num
  have hqx : ∀ u, 0 < q u x := fun u => by
    rw [hq u x hx.2.2, if_pos List.mem_cons_self]
    exact one_pos
  have hay : ∀ v, 0 < a v y := fun v => by
    rw [ha v y hy.2.2, if_pos List.mem_cons_self]
    exact one_pos
  have hattention : ∀ u v, attentionScore p (S u v) prefill = a v := fun u v => by
    refine attentionScore_of_action ?_
    rw [usePrefill, Bool.and_eq_false_iff, List.all_eq_false]
    refine .inr ⟨y, (List.mem_filter.mp hy.1).1, ?_⟩
    rw [hy.2.1, decide_eq_true (hay v)]
    decide
  have hscore : ∀ u v, ∀ z ∈ x :: y :: rest, fusionScore p c (S u v) prefill m z =
      (1 - c.actionFraction) * (q u z / streamTotal (q u) (fusionPool p m)) +
        c.actionFraction * (a v z / streamTotal (a v) (fusionPool p m)) := fun u v z hz => by
    have hqz : 0 ≤ q u z := by
      rw [hq u z (hmem z hz).2.2]
      split_ifs <;> norm_num
    have hposq : ∃ id ∈ fusionPool p m, 0 < (S u v id).retrieval := ⟨x, hx.1, hqx u⟩
    have hposa : ∃ id ∈ fusionPool p m, 0 < attentionScore p (S u v) prefill id :=
      ⟨y, hy.1, by rw [hattention]; exact hay v⟩
    rw [fusionScore, if_pos (.inl (streamSum_pos.mpr hposq)),
      fusedScore_both hpos hone hposq hposa (hmem z hz).1, hattention, max_eq_right hqz]
  have hagree : ∀ u v u' v', p.Agree (S u v) (S u' v') := fun u v u' v' => by
    refine ⟨fun _ => rfl, fun _ => rfl, fun id hlive => ?_⟩
    have hne : id ≠ d := by
      rintro rfl
      rw [hlive] at hdead
      cases hdead
    show BlockScores.mk (q u id) (a v id) 0 0 = BlockScores.mk (q u' id) (a v' id) 0 0
    rw [hq _ _ hne, hq _ _ hne, ha _ _ hne, ha _ _ hne]
  have hax : ∀ v, a v x = 0 := fun v => by rw [ha v x hx.2.2, if_neg hxcommon]
  have hfx : ∀ u, q u x = 1 := fun u => by rw [hq u x hx.2.2, if_pos List.mem_cons_self]
  have hf := sub_pos.mpr hone
  obtain ⟨Q, hQeq⟩ : ∃ t, t = streamTotal (q 0) (fusionPool p m) := ⟨_, rfl⟩
  obtain ⟨A, hAeq⟩ : ∃ t, t = streamTotal (a 0) (fusionPool p m) := ⟨_, rfl⟩
  have hQ : 0 < Q := hQeq ▸ (hqx 0).trans_le (le_streamTotal hx.1)
  have hA : 0 < A := hAeq ▸ (hay 0).trans_le (le_streamTotal hy.1)
  -- how much of a score drowns the other stores' scores in its stream
  obtain ⟨M, hM⟩ : ∃ M, M = A * (1 - c.actionFraction) / c.actionFraction + 1 := ⟨_, rfl⟩
  obtain ⟨N, hN⟩ : ∃ N, N = Q * c.actionFraction / (1 - c.actionFraction) + 1 := ⟨_, rfl⟩
  have hMpos : 0 < M := hM ▸ add_pos (div_pos (mul_pos hA hf) hpos) one_pos
  have hNpos : 0 < N := hN ▸ add_pos (div_pos (mul_pos hQ hpos) hf) one_pos
  have hfM : c.actionFraction * M = A * (1 - c.actionFraction) + c.actionFraction := by
    rw [hM, mul_add, mul_div_cancel₀ _ hpos.ne', mul_one]
  have hfN : (1 - c.actionFraction) * N = Q * c.actionFraction + (1 - c.actionFraction) := by
    rw [hN, mul_add, mul_div_cancel₀ _ hf.ne', mul_one]
  refine not_isolated_of_swap (x := x) (m := m) (S 0 N) (S M 0) (hnonneg hNpos.le)
    (hnonneg le_rfl) (hagree _ _ _ _) hpick (fun id _ => ?_) (fun id _ => ?_)
    (List.mem_filter.mp hx.1).1 ?_ ?_
  · rw [hattention]
    exact hnonneg hNpos.le id
  · rw [hattention]
    exact hnonneg le_rfl id
  · refine takeTop_takes hp (x :: common) (hcs' _ ▸ List.mem_cons_self) List.mem_cons_self ?_
      fun z hz hnot => better_of_lt ?_
    · rw [hcs', List.length_cons, List.length_cons, List.length_cons]
      omega
    · have hz := hcs' _ ▸ hz
      have hB : N ≤ streamTotal (a N) (fusionPool p m) := by
        have hle : a N d ≤ streamTotal (a N) (fusionPool p m) := le_streamTotal hdpool
        rwa [had] at hle
      have hBpos := hNpos.trans_le hB
      have hz1 : a N z ≤ 1 := by
        rw [ha _ _ (hmem z hz).2.2]
        split_ifs <;> norm_num
      rw [hscore _ _ z hz, hscore _ _ x List.mem_cons_self, hax, hfx, hq _ _ (hmem z hz).2.2,
        if_neg hnot, ← hQeq, zero_div, zero_div, mul_zero, mul_zero, zero_add, add_zero]
      calc c.actionFraction * (a N z / streamTotal (a N) (fusionPool p m))
          ≤ c.actionFraction * (1 / streamTotal (a N) (fusionPool p m)) :=
            mul_le_mul_of_nonneg_left (div_le_div_of_nonneg_right hz1 hBpos.le) hpos.le
        _ < (1 - c.actionFraction) * (1 / Q) := by
            rw [mul_one_div, mul_one_div, div_lt_div_iff₀ hBpos hQ]
            have hmul := mul_le_mul_of_nonneg_left hB hf.le
            linarith
  · refine takeTop_leaves hp (y :: common) (hcs' _ ▸ List.mem_cons_self)
      (List.nodup_cons.mpr ⟨hxcommon, List.nodup_cons.mpr ⟨fun h => hynot (hsub y h),
        hcommon_nodup⟩⟩) hroom.ge (fun z hz => hcs' _ ▸ hin z hz) fun z hz => better_of_lt ?_
    have hB : M ≤ streamTotal (q M) (fusionPool p m) := by
      have hle : q M d ≤ streamTotal (q M) (fusionPool p m) := le_streamTotal hdpool
      rwa [hqd] at hle
    have hBpos := hMpos.trans_le hB
    have hz0 : 0 ≤ q M z := by
      rw [hq _ _ (hmem z (hin z hz)).2.2]
      split_ifs <;> norm_num
    rw [hscore _ _ z (hin z hz), hscore _ _ x List.mem_cons_self, hax, hfx,
      ha _ _ (hmem z (hin z hz)).2.2, if_pos hz, ← hAeq, zero_div, mul_zero, add_zero]
    calc (1 - c.actionFraction) * (1 / streamTotal (q M) (fusionPool p m))
        < c.actionFraction * (1 / A) := by
          rw [mul_one_div, mul_one_div, div_lt_div_iff₀ hBpos hA]
          have hmul := mul_le_mul_of_nonneg_left hB hpos.le
          linarith
      _ ≤ (1 - c.actionFraction) * (q M z / streamTotal (q M) (fusionPool p m)) +
            c.actionFraction * (1 / A) :=
          le_add_of_nonneg_left (mul_nonneg hf.le (div_nonneg hz0 hBpos.le))

end Swap

/-! ## The legacy store -/

section Store

variable {p : Pool} {c : PickConfig} {prefill : List (ℕ × ℚ)} {nth : NthElement}
  {mandatory : List ℕ}

/-- Where something is contested beside a deleted block, the deleted block
decides, unless the prefill scores do. -/
theorem not_isolated (hp : p.Ok) (hstray : p.NoStray) (hearlier : ∀ a b, p.earlier a b = decide (a < b))
    (hcombine : c.combineScores = true) (hpos : 0 < c.actionFraction) (hle : c.actionFraction ≤ 1)
    {d : ℕ} (hd : d ∈ p.order) (hdead : p.live d = false) (hcontested : p.Contested c mandatory)
    (halone : ¬ p.PrefillAlone c prefill mandatory) : ¬ p.Isolated c prefill nth mandatory := by
  obtain ⟨m, hkept, hcount, hheld, hpick⟩ := hcontested.pick hp hstray hcombine hpos
  have hlt : m.count < c.budget := hcount ▸ hcontested.room
  have hquiet : ∀ act : ℕ → ℚ, (∀ id, 0 ≤ act id) → (∀ q : ℕ → ℚ, ∀ id ∈ fusionPool p m,
      attentionScore p (fun id => ⟨q id, act id, 0, 0⟩) prefill id = 0) →
      ¬ p.Isolated c prefill nth mandatory := fun act hact hquiet =>
    not_isolated_of_quiet hp hstray hearlier hkept hlt hcontested.short hd hdead
      (fun scores => hpick nth scores prefill) hact hquiet
  by_cases hempty : prefill = []
  · refine hquiet (fun _ => 0) (fun _ => le_rfl) fun q id _ => ?_
    rw [attentionScore_of_action (by rw [hempty]; rfl)]
  by_cases hnothing : p.heldCount c.recentBlocks mandatory = 0
  · by_cases hscore : ∃ id ∈ p.order, (prefill.lookup (p.position id)).getD 0 ≠ 0
    · have hone : c.actionFraction ≠ 1 := fun hone => halone ⟨hone, hempty, hnothing, hscore⟩
      exact not_isolated_of_weighed hp hstray hkept hlt hcontested.short hd hdead
        (fun scores => hpick nth scores prefill) hpos (lt_of_le_of_ne hle hone)
    · refine hquiet (fun _ => 0) (fun _ => le_rfl) fun q id hid => ?_
      cases huse : usePrefill p (fun id => ⟨q id, 0, 0, 0⟩) prefill with
      | false => rw [attentionScore_of_action huse]
      | true =>
          rw [attentionScore_of_prefill huse]
          by_contra hne
          exact hscore ⟨id, (List.mem_filter.mp hid).1, hne⟩
  · -- the score of a kept block replaces the prefill scores
    obtain ⟨w, -, hw⟩ := List.countP_pos_iff.mp (Nat.pos_of_ne_zero hnothing)
    have hlive := (held_iff.mp hw).1
    refine hquiet (fun id => if id = w then 1 else 0) (fun id => ?_) fun q id hid => ?_
    · split_ifs <;> norm_num
    · have huse : usePrefill p (fun id => ⟨q id, if id = w then 1 else 0, 0, 0⟩) prefill = false := by
        rw [usePrefill, Bool.and_eq_false_iff, List.all_eq_false]
        refine .inr ⟨w, hstray w hlive, ?_⟩
        rw [hlive, if_pos rfl, decide_eq_true one_pos]
        decide
      rw [attentionScore_of_action huse]
      refine if_neg ?_
      rintro rfl
      have hmark := (List.mem_filter.mp hid).2
      rw [(hheld id).mpr hw] at hmark
      cases hmark

/-- **Exactly when the deleted blocks have no influence on the fusion**: where
there are none, where nothing is contested, and where the prefill scores alone
decide. -/
theorem fusionIsolation (s : Legacy) (sinkBlocks : ℕ) (view : ℕ → Bool) (c : PickConfig)
    (hcombine : c.combineScores = true) (hpos : 0 < c.actionFraction) (hle : c.actionFraction ≤ 1)
    (prefill : List (ℕ × ℚ)) (nth : NthElement) (mandatory : List ℕ) :
    (s.pool sinkBlocks (some view)).Isolated c prefill nth mandatory ↔
      (∀ id < s.blockCount, view id = true) ∨
        ¬ (s.pool sinkBlocks (some view)).Contested c mandatory ∨
        (s.pool sinkBlocks (some view)).PrefillAlone c prefill mandatory := by
  have hp := s.pool_ok sinkBlocks (some view)
  have hstray := s.pool_noStray sinkBlocks (some view)
  have htotal : ∀ a b, (s.pool sinkBlocks (some view)).earlier a b = false →
      (s.pool sinkBlocks (some view)).earlier b a = false → a = b := fun a b hab hba =>
    le_antisymm (not_lt.mp (of_decide_eq_false hba)) (not_lt.mp (of_decide_eq_false hab))
  have hlive : ∀ id, id < s.blockCount →
      (s.pool sinkBlocks (some view)).live id = view id := fun id hid => by
    show (decide (id < s.blockCount) && view id) = view id
    rw [decide_eq_true hid, Bool.true_and]
  constructor
  · intro hisolated
    by_contra hnot
    obtain ⟨hsome, hnot⟩ := not_or.mp hnot
    obtain ⟨hcontested, halone⟩ := not_or.mp hnot
    push Not at hsome
    obtain ⟨d, hd, hdead⟩ := hsome
    have hdead := (hlive d hd).trans (Bool.eq_false_iff.mpr hdead)
    exact not_isolated hp hstray (fun _ _ => rfl) hcombine hpos hle (List.mem_range.mpr hd) hdead
      (not_not.mp hcontested) halone hisolated
  · rintro (hall | hnot | halone)
    · refine isolated_of_allLive htotal hcombine hpos hp fun id hid => ?_
      have hid := List.mem_range.mp hid
      rw [hlive id hid]
      exact hall id hid
    · exact isolated_of_not_contested hcombine hpos hp hnot
    · by_cases hcontested : (s.pool sinkBlocks (some view)).Contested c mandatory
      · exact isolated_of_prefillAlone htotal hcombine hpos hp hstray hcontested halone
      · exact isolated_of_not_contested hcombine hpos hp hcontested

/-- The first block was deleted with a query score, or with an action score. -/
def deletedScores (query : Bool) (id : ℕ) : BlockScores :=
  match id with
  | 0 => if query then ⟨3, 0, 0, 0⟩ else ⟨0, 3, 0, 0⟩
  | 1 => ⟨1, 0, 0, 0⟩
  | _ => ⟨0, 1, 0, 0⟩

/-- Three live blocks with scores, of which one is selected, and a deleted one among them
that has no influence where the sink takes the budget. -/
theorem fusionIsolation_threeBlocks :
    ∃ s, legacyMachine.Reachable s ∧ s.blockCount = 3 ∧
      (s.pool 0 (some fun _ => true)).Isolated ⟨1, 1, 0, false, 0, 0, 1 / 2, true⟩ [] .sort [] ∧
      pickTopkBlocks (s.pool 0 (some fun _ => true)) ⟨1, 1, 0, false, 0, 0, 1 / 2, true⟩
        (deletedScores true) [] .sort [] = .ok [2] ∧
      (s.pool 2 (some fun id => decide (0 < id))).Isolated ⟨1, 1, 0, false, 0, 0, 1 / 2, true⟩
        [] .sort [] := by
  have hrun : (legacyMachine.run (.initial smallLegacy) [.registerAppend 12]).any (fun s =>
      decide (s.blockCount = 3 ∧
        (pickTopkBlocks (s.pool 0 (some fun _ => true))
          ⟨1, 1, 0, false, 0, 0, 1 / 2, true⟩ (deletedScores true) [] .sort []).toOption =
            some [2] ∧
        (s.pool 2 (some fun id => decide (0 < id))).heldCount 0 [] = 1)) = true := by
    decide +kernel
  obtain ⟨s, hs, hstate⟩ := legacyMachine.exists_reachable ⟨smallLegacy, by decide, rfl⟩ hrun
  obtain ⟨hcount, hpick, hheld⟩ := of_decide_eq_true hstate
  refine ⟨s, hs, hcount, ?_, toOption_eq_some hpick, ?_⟩
  · exact (fusionIsolation s 0 (fun _ => true) ⟨1, 1, 0, false, 0, 0, 1 / 2, true⟩ rfl
      (by norm_num) (by norm_num) [] .sort []).mpr (.inl fun _ _ => rfl)
  · refine (fusionIsolation s 2 (fun id => decide (0 < id)) ⟨1, 1, 0, false, 0, 0, 1 / 2, true⟩ rfl
      (by norm_num) (by norm_num) [] .sort []).mpr (.inr (.inl fun h => ?_))
    have hroom := h.room
    rw [hheld] at hroom
    exact absurd hroom (lt_irrefl 1)

/-- Of the two blocks that are left, one has the query and the other the
attention; the deleted block decides which is selected. -/
theorem deletedBlock_decides :
    ∃ s, legacyMachine.Reachable s ∧ ∃ (view : ℕ → Bool) (c : PickConfig),
      c.combineScores = true ∧ c.actionFraction = 1 / 2 ∧
        (s.pool 0 (some view)).Agree (deletedScores true) (deletedScores false) ∧
        pickTopkBlocks (s.pool 0 (some view)) c (deletedScores true) [] .sort [] = .ok [2] ∧
        pickTopkBlocks (s.pool 0 (some view)) c (deletedScores false) [] .sort [] = .ok [1] := by
  have hrun : (legacyMachine.run (.initial smallLegacy) [.registerAppend 12]).any (fun s =>
      decide ((pickTopkBlocks (s.pool 0 (some fun id => decide (0 < id)))
          ⟨1, 1, 0, false, 0, 0, 1 / 2, true⟩ (deletedScores true) [] .sort []).toOption = some [2] ∧
        (pickTopkBlocks (s.pool 0 (some fun id => decide (0 < id)))
          ⟨1, 1, 0, false, 0, 0, 1 / 2, true⟩ (deletedScores false) [] .sort []).toOption =
            some [1])) = true := by
    decide +kernel
  obtain ⟨s, hs, hstate⟩ := legacyMachine.exists_reachable ⟨smallLegacy, by decide, rfl⟩ hrun
  obtain ⟨hquery, haction⟩ := of_decide_eq_true hstate
  refine ⟨s, hs, fun id => decide (0 < id), ⟨1, 1, 0, false, 0, 0, 1 / 2, true⟩, rfl, rfl, ?_,
    toOption_eq_some hquery, toOption_eq_some haction⟩
  refine ⟨fun id => ?_, fun id => ?_, fun id hlive => ?_⟩
  · rcases id with _ | _ | id <;> rfl
  · rcases id with _ | _ | id <;> rfl
  · rcases id with _ | _ | id
    · exact absurd (Bool.and_eq_true_iff.mp hlive).2 (by decide)
    · rfl
    · rfl

end Store

end Qw3.Store
