import Qw3.Store.Fusion

/-!
# Live blocks outside the directory

A block that is being retired when a rewind drops it from the directory, and then
is rescued, is a live slot without an entry.  `pick_topk_blocks` can mark it, and
count it against the budget, but returns directory entries only.

The scores that show it give such a block the best score of every kind, except of
attention, and every other block none.  Whatever the policy, the first phase that
takes anything by rank takes it; so it is among the marks, and one block fewer
than the budget is returned.

* `fill_stray` — every policy takes the best live block, in the directory or not.
* `pick_returns` — a call that is not refused returns, and what it returns.
* `topKCorrect_iff` — the calls for which every selection is as it should be are
  those that `Pool.Sound` describes.
* `topkSelection` — the same at the two stores.
* `strayBlock_underfills` — a run after which a selection fails, one way or the
  other.
-/

namespace Qw3.Store

/-! ## The phases with a block outside the directory -/

section Stray

variable {p : Pool} {c : PickConfig} {nth : NthElement} {m m' : Marks} {budget quota z : ℕ}
  {score : ℕ → ℚ}

/-- Only one block was ever scored, and not by its action. -/
def strayScores (z id : ℕ) : BlockScores := if id = z then ⟨1, 0, 1, 1⟩ else .zero

/-- The best block is taken, where something is. -/
theorem takeTop_best (hp : p.Ok) (hlive : p.live z = true) (hbest : ∀ y, y ≠ z → score y < score z)
    (hquota : 0 < quota) (hroom : m.count < budget) :
    (p.takeTop nth budget quota score false m).marked z = true := by
  cases hmark : m.marked z with
  | true => exact takeTop_mono hp hmark
  | false =>
      have hz : z ∈ p.candidates score false m :=
        mem_candidates.mpr ⟨hp.live_lt z hlive, hmark, hlive, by simp⟩
      have hpos := List.length_pos_of_mem hz
      refine takeTop_takes hp [z] hz List.mem_cons_self ?_ ?_
      · rw [List.length_singleton]
        omega
      · intro y _ hy
        exact better_of_lt (hbest y fun heq => hy (heq ▸ List.mem_cons_self))

/-- A phase takes it or takes nothing. -/
theorem takeTop_best_or (hp : p.Ok) (hlive : p.live z = true)
    (hbest : ∀ y, y ≠ z → score y < score z) :
    (p.takeTop nth budget quota score false m).marked z = true ∨
      p.takeTop nth budget quota score false m = m := by
  by_cases hnone : budget ≤ m.count ∨ quota = 0
  · exact .inr (if_pos hnone)
  · obtain ⟨hroom, hquota⟩ := not_or.mp hnone
    exact .inl (takeTop_best hp hlive hbest (Nat.pos_of_ne_zero hquota) (not_le.mp hroom))

/-- Without candidates nothing is taken. -/
theorem takeTop_none {positiveOnly : Bool} (hnone : p.candidates score positiveOnly m = []) :
    p.takeTop nth budget quota score positiveOnly m = m := by
  unfold Pool.takeTop
  dsimp only
  rw [hnone, List.length_nil, if_neg (Nat.not_lt_zero _)]
  exact ite_self m

/-- What the phases before leave out, the last one takes. -/
theorem takeTop_last (hp : p.Ok) (hlive : p.live z = true) (hbest : ∀ y, y ≠ z → score y < score z)
    (hroom : m.count < budget) (h : m'.marked z = true ∨ m' = m) :
    (p.takeTop nth budget (budget - m'.count) score false m').marked z = true := by
  rcases h with h | rfl
  · exact takeTop_mono hp h
  · exact takeTop_best hp hlive hbest (Nat.sub_pos_of_lt hroom) hroom

/-- **Every policy takes the best live block**, also where it is not in the
directory. -/
theorem fill_stray (hp : p.Ok) (hlive : p.live z = true) (hout : z ∉ p.order) (hroom : m.count < c.budget)
    (h : fill p c (strayScores z) [] nth m = .ok m') : m'.marked z = true := by
  have hself : strayScores z z = ⟨1, 0, 1, 1⟩ := if_pos rfl
  have hother : ∀ y, y ≠ z → strayScores z y = .zero := fun y hy => if_neg hy
  have hattention : ∀ id, attentionScore p (strayScores z) [] id = 0 := by
    intro id
    show (strayScores z id).action = 0
    unfold strayScores
    split_ifs <;> rfl
  have hretrieval : ∀ y, y ≠ z → (strayScores z y).retrieval < (strayScores z z).retrieval := by
    intro y hy
    rw [hself, hother y hy]
    exact one_pos
  have hprofile : ∀ y, y ≠ z → (strayScores z y).profile < (strayScores z z).profile := by
    intro y hy
    rw [hself, hother y hy]
    exact one_pos
  have hattn : ∀ y, y ≠ z → (strayScores z y).attn < (strayScores z z).attn := by
    intro y hy
    rw [hself, hother y hy]
    exact one_pos
  unfold fill at h
  split_ifs at h
  · -- what is fused has no scores
    have hzero : ¬ (0 < streamSum (fun id => (strayScores z id).retrieval) (fusionPool p m) ∨
        0 < streamSum (attentionScore p (strayScores z) []) (fusionPool p m)) := by
      rintro (hpos | hpos)
      · obtain ⟨id, hid, hpos⟩ := streamSum_pos.mp hpos
        have hne : id ≠ z := fun heq => hout (heq ▸ (List.mem_filter.mp hid).1)
        rw [hother id hne] at hpos
        exact lt_irrefl _ hpos
      · obtain ⟨id, -, hpos⟩ := streamSum_pos.mp hpos
        exact hpos.ne' (hattention id)
    rw [pickFused_eq fun id _ => (hattention id).ge, fusionScore, if_neg hzero] at h
    obtain rfl := Except.ok.inj h
    exact takeTop_last hp hlive hretrieval hroom (.inr rfl)
  · obtain rfl := Except.ok.inj h
    refine takeTop_last hp hlive hretrieval hroom ?_
    rw [takeTop_none]
    · exact takeTop_best_or hp hlive hretrieval
    · refine List.filter_eq_nil_iff.mpr ?_
      intro id _
      rw [hattention]
      simp
  · obtain rfl := Except.ok.inj h
    refine takeTop_last hp hlive hattn hroom ?_
    rcases takeTop_best_or hp hlive hretrieval with hfirst | hfirst
    · exact .inl (takeTop_mono hp hfirst)
    · rw [hfirst]
      exact takeTop_best_or hp hlive hprofile
  · obtain rfl := Except.ok.inj h
    exact takeTop_last hp hlive hattn hroom (.inr rfl)

/-- Scores of attention are not among them. -/
theorem strayScores_nonneg (p : Pool) (id : ℕ) : 0 ≤ attentionScore p (strayScores z) [] id := by
  show 0 ≤ (strayScores z id).action
  unfold strayScores
  split_ifs <;> exact le_rfl

end Stray

/-! ## The calls -/

section Calls

variable {p : Pool} {c : PickConfig} {scores : ℕ → BlockScores} {prefill : List (ℕ × ℚ)}
  {nth : NthElement} {mandatory : List ℕ} {z : ℕ}

/-- Where less is asked for than the budget the call is not refused. -/
theorem not_refuses_of_held (hvalid : ¬ p.validate mandatory = false)
    (hheld : p.heldCount c.recentBlocks mandatory < c.budget) : ¬ p.Refuses c mandatory := by
  rintro (hfalse | ⟨-, -, hover⟩)
  · exact hvalid hfalse
  · have hle : p.askedCount c.budget mandatory ≤ p.heldCount c.recentBlocks mandatory := by
      refine List.countP_mono_left ?_
      intro id _ hid
      obtain ⟨hlive, hid⟩ := Bool.and_eq_true_iff.mp hid
      refine held_iff.mpr ⟨hlive, ?_⟩
      rcases of_decide_eq_true hid with hasked | hsink
      · exact .inr (.inl hasked)
      · exact .inl (List.mem_of_mem_take hsink)
    omega

theorem Pool.Ok.blockCount_ne_zero (hp : p.Ok) (hlive : p.live z = true) : p.blockCount ≠ 0 := by
  have := hp.live_lt z hlive
  omega

/-- What a call returns that is not refused: the directory, or what is marked of it. -/
theorem pick_returns (hp : p.Ok) (nth : NthElement) (hblocks : p.blockCount ≠ 0)
    (hreturns : ¬ p.Refuses c mandatory) (hscores : ∀ id, 0 ≤ attentionScore p scores prefill id) :
    ((c.budget = 0 ∨ p.order.length ≤ c.budget) ∧
      pickTopkBlocks p c scores prefill nth mandatory = .ok (p.order.filter p.live)) ∨
    ¬ (c.budget = 0 ∨ p.order.length ≤ c.budget) ∧
      ∃ m m', p.alwaysKeep p.keep c.budget c.recentBlocks mandatory .sinkExceeds = .ok m ∧
        fill p c scores prefill nth m = .ok m' ∧
        pickTopkBlocks p c scores prefill nth mandatory = .ok (p.selected m') := by
  obtain ⟨hvalid, hover⟩ := not_or.mp hreturns
  unfold pickTopkBlocks
  rw [if_neg hblocks, if_neg hvalid]
  by_cases hfits : c.budget = 0 ∨ p.order.length ≤ c.budget
  · exact .inl ⟨hfits, if_pos hfits⟩
  · right
    obtain ⟨hbudget, hlt⟩ := not_or.mp hfits
    have hm : p.alwaysKeep p.keep c.budget c.recentBlocks mandatory .sinkExceeds =
        .ok (keepWhile p.keep c.budget (p.keepMandatory p.keep c.budget mandatory)
          (p.recentWindow c.recentBlocks)) := by
      refine if_neg ?_
      rw [keepMandatory_count hp]
      exact fun h => hover ⟨hbudget, not_le.mp hlt, h⟩
    generalize keepWhile p.keep c.budget (p.keepMandatory p.keep c.budget mandatory)
      (p.recentWindow c.recentBlocks) = m at hm
    obtain ⟨m', hm'⟩ := exists_fill p c nth scores prefill m hscores
    refine ⟨hfits, m, m', hm, hm', ?_⟩
    rw [if_neg hfits, hm]
    dsimp only
    rw [hm']

/-- A mandatory block outside the directory is not returned. -/
theorem exists_missing (hp : p.Ok) (nth : NthElement) (hreturns : ¬ p.Refuses c mandatory)
    (hlive : p.live z = true) (hout : z ∉ p.order) :
    ∃ sel, pickTopkBlocks p c (fun _ => .zero) [] nth mandatory = .ok sel ∧ z ∉ sel := by
  have hzero : ∀ id, 0 ≤ attentionScore p (fun _ => .zero) [] id := fun _ => le_rfl
  rcases pick_returns hp nth (hp.blockCount_ne_zero hlive) hreturns hzero with ⟨-, hpick⟩ | ⟨-, m, m', -, -, hpick⟩
  · exact ⟨_, hpick, fun h => hout (List.mem_filter.mp h).1⟩
  · exact ⟨_, hpick, fun h => hout (mem_selected.mp h).1⟩

/-- A selection that leaves room takes a block outside the directory where it is the
best, and does not return it. -/
theorem exists_underfilled (hp : p.Ok) (nth : NthElement) (hreturns : ¬ p.Refuses c mandatory)
    (hlive : p.live z = true) (hout : z ∉ p.order) (hfits : ¬ (c.budget = 0 ∨ p.order.length ≤ c.budget))
    (hheld : p.heldCount c.recentBlocks mandatory < c.budget) :
    ∃ sel, pickTopkBlocks p c (strayScores z) [] nth mandatory = .ok sel ∧
      sel.length < min c.budget p.liveCount := by
  rcases pick_returns hp nth (hp.blockCount_ne_zero hlive) hreturns (strayScores_nonneg p) with
    ⟨h, -⟩ | ⟨-, m, m', hm, hfill, hpick⟩
  · exact absurd h hfits
  · have halways := alwaysKeep_spec hp hm
    have hroom : m.count < c.budget := by
      refine lt_of_le_of_lt ?_ hheld
      rw [halways.kept.ok.count]
      exact List.countP_mono_left fun id _ hid => held_of_alwaysKept halways hid
    obtain ⟨hkept, -, hfilled⟩ := fill_spec hp halways.kept halways.count_le hfill
    refine ⟨_, hpick, ?_⟩
    -- one of the marks is on `z`
    have hmarks := hkept.ok.length_filter_le (List.nodup_cons.mpr ⟨hout, hp.nodup⟩)
    rw [List.filter_cons_of_pos (fill_stray hp hlive hout hroom hfill), List.length_cons] at hmarks
    rw [← hfilled]
    exact Nat.lt_of_succ_le hmarks

/-- **Exactly when every selection is correct.** -/
theorem topKCorrect_iff (hp : p.Ok) (c : PickConfig) (mandatory : List ℕ) :
    (∀ nth scores prefill sel, pickTopkBlocks p c scores prefill nth mandatory = .ok sel →
      TopKCorrect p c scores mandatory sel) ↔ p.Sound c mandatory := by
  refine ⟨fun hall => ?_, fun hsound _ _ _ _ h => topKCorrect_of_sound hp hsound h⟩
  by_contra hsound
  unfold Pool.Sound Pool.NoStray Pool.Unranked at hsound
  push Not at hsound
  obtain ⟨⟨z, hlive, hout⟩, hreturns, hranked⟩ := hsound
  by_cases hin : ∀ id ∈ mandatory, p.live id = true → id ∈ p.order
  · have hranked := hranked hin
    by_cases hfits : c.budget = 0 ∨ p.order.length ≤ c.budget
    · -- the directory is returned, and `z` is better than a block of it
      rw [if_pos hfits] at hranked
      push Not at hranked
      obtain ⟨hquota, haction, x, hx, hxlive, hheld⟩ := hranked
      rcases pick_returns hp .sort (hp.blockCount_ne_zero hlive) hreturns (strayScores_nonneg p (z := z)) with
        ⟨-, hpick⟩ | ⟨h, -⟩
      · have hnot : ¬ (x ∈ p.sinks ∨ x ∈ mandatory ∨ x ∈ p.recentWindow c.recentBlocks) :=
          fun h => hheld (held_iff.mpr ⟨hxlive, h⟩)
        have hbest := (hall _ _ _ _ hpick).best hquota haction x (List.mem_filter.mpr ⟨hx, hxlive⟩)
          (fun h => hnot (.inl h)) (fun h => hnot (.inr (.inl h))) (fun h => hnot (.inr (.inr h))) z hlive
          fun h => hout (List.mem_filter.mp h).1
        have hne : x ≠ z := by
          rintro rfl
          exact hout hx
        rw [better_of_lt (show (strayScores z x).attn < (strayScores z z).attn by
          rw [strayScores, strayScores, if_neg hne, if_pos rfl]
          exact one_pos)] at hbest
        cases hbest
      · exact absurd hfits h
    · rw [if_neg hfits] at hranked
      obtain ⟨sel, hsel, hlength⟩ := exists_underfilled hp .sort hreturns hlive hout hfits (not_le.mp hranked)
      obtain ⟨hbudget, hlt⟩ := not_or.mp hfits
      have hsize := (hall _ _ _ _ hsel).size (Nat.pos_of_ne_zero hbudget) (not_le.mp hlt)
      omega
  · -- a mandatory block is outside the directory
    push Not at hin
    obtain ⟨y, hy, hylive, hyout⟩ := hin
    obtain ⟨sel, hsel, hmissing⟩ := exists_missing hp .sort hreturns hylive hyout
    exact hmissing ((hall _ _ _ _ hsel).asked y hy hylive)

end Calls

/-! ## The two stores -/

/-- **Exactly when the selections of a store are correct**: always for a legacy
store, and for a store with a repository where the directory is sound for the call. -/
theorem topkSelection (sinkBlocks : ℕ) (c : PickConfig) :
    (∀ (s : Legacy) view nth scores prefill mandatory sel,
      pickTopkBlocks (s.pool sinkBlocks view) c scores prefill nth mandatory = .ok sel →
        TopKCorrect (s.pool sinkBlocks view) c scores mandatory sel) ∧
    ∀ s, machine.Reachable s → ∀ mandatory,
      ((∀ nth scores prefill sel,
        pickTopkBlocks (s.pool sinkBlocks) c scores prefill nth mandatory = .ok sel →
          TopKCorrect (s.pool sinkBlocks) c scores mandatory sel) ↔
        (s.pool sinkBlocks).Sound c mandatory) := by
  constructor
  · intro s view nth scores prefill mandatory sel h
    exact topKCorrect_of_sound (s.pool_ok sinkBlocks view)
      (.inl (s.pool_noStray sinkBlocks view)) h
  · intro s hs mandatory
    exact topKCorrect_iff (State.pool_ok (machine_invariant.reachable hs) sinkBlocks) c mandatory

/-- A block that is being retired when a rewind drops it from the directory, and
then is rescued. -/
def rewindUnderRetirement : List Action :=
  [.prepareAppend 10 0, .extend 12, .commitAppend 10, .setBlockTier 2 .cpu 0 (-1) 3,
    .other (.pin ⟨2, 3⟩), .other (.retireIfOnlyReader ⟨2, 3⟩), .prepareRewind 8, .commitRewind,
    .other (.rescue ⟨2, 3⟩)]

/-- After an append every selection is correct; after the run above one that asks
for block 0 and has no room for more is, whatever the scores. -/
theorem topkSelection_afterAppend :
    (∃ s, machine.Reachable s ∧ (s.pool 1).order = [0, 1, 2] ∧
      ∀ c mandatory nth scores prefill sel,
        pickTopkBlocks (s.pool 1) c scores prefill nth mandatory = .ok sel →
          TopKCorrect (s.pool 1) c scores mandatory sel) ∧
    ∃ s, machine.Reachable s ∧ (s.pool 0).order = [0, 1] ∧ (s.pool 0).liveCount = 3 ∧
      ∀ nth scores prefill sel,
        pickTopkBlocks (s.pool 0) ⟨1, 1, 0, false, 0, 0, 0, false⟩ scores prefill nth [0] = .ok sel →
          TopKCorrect (s.pool 0) ⟨1, 1, 0, false, 0, 0, 0, false⟩ scores [0] sel := by
  constructor
  · have hrun : (machine.run (State.initial ⟨4, true⟩ ⟨4, 4⟩)
        [.prepareAppend 10 0, .extend 12, .commitAppend 10]).any
        (fun s => decide ((s.pool 1).order = [0, 1, 2] ∧
          ∀ id ∈ List.range s.blockCount, (s.pool 1).live id = true → id ∈ (s.pool 1).order)) = true := by
      decide +kernel
    obtain ⟨s, hs, hstate⟩ := machine.exists_reachable ⟨_, _, validConfig_small, rfl⟩ hrun
    obtain ⟨horder, hlive⟩ := of_decide_eq_true hstate
    refine ⟨s, hs, horder, fun c mandatory => ((topkSelection 1 c).2 s hs mandatory).mpr (.inl fun id hid => ?_)⟩
    exact hlive id (List.mem_range.mpr
      ((State.pool_ok (machine_invariant.reachable hs) 1).live_lt id hid)) hid
  · have hrun : (machine.run (State.initial ⟨4, true⟩ ⟨4, 4⟩) rewindUnderRetirement).any
        (fun s => decide ((s.pool 0).order = [0, 1] ∧ (s.pool 0).liveCount = 3 ∧
          1 ≤ (s.pool 0).heldCount 0 [0])) = true := by
      decide +kernel
    obtain ⟨s, hs, hstate⟩ := machine.exists_reachable ⟨_, _, validConfig_small, rfl⟩ hrun
    obtain ⟨horder, hcount, hheld⟩ := of_decide_eq_true hstate
    refine ⟨s, hs, horder, hcount, ((topkSelection 0 _).2 s hs [0]).mpr (.inr (.inr ⟨?_, ?_⟩))⟩
    · rw [horder]
      intro id hid _
      exact List.mem_cons.mpr (.inl (List.mem_singleton.mp hid))
    · rw [horder, if_neg (by decide)]
      exact hheld

/-- It takes the place of a block, or is better than one that is returned. -/
theorem strayBlock_underfills :
    ∃ s, machine.Reachable s ∧ ∃ (c c' : PickConfig) (scores : ℕ → BlockScores),
      c.budget = 1 ∧ c'.budget = 0 ∧ (s.pool 0).order = [0, 1] ∧ (s.pool 0).liveCount = 3 ∧
        pickTopkBlocks (s.pool 0) c scores [] .sort [] = .ok [] ∧ ¬ TopKCorrect (s.pool 0) c scores [] [] ∧
        pickTopkBlocks (s.pool 0) c' scores [] .sort [] = .ok [0, 1] ∧
        ¬ TopKCorrect (s.pool 0) c' scores [] [0, 1] := by
  have hrun : (machine.run (State.initial ⟨4, true⟩ ⟨4, 4⟩) rewindUnderRetirement).any
      (fun s => decide ((s.pool 0).order = [0, 1] ∧ (s.pool 0).liveCount = 3 ∧ (s.pool 0).sinks = [] ∧
        (s.pool 0).live 2 = true ∧
        (pickTopkBlocks (s.pool 0) ⟨1, 1, 0, false, 0, 0, 0, false⟩
          (fun id => ⟨0, 0, id, 0⟩) [] .sort []).toOption = some [] ∧
        (pickTopkBlocks (s.pool 0) ⟨0, 1, 0, false, 0, 0, 0, false⟩
          (fun id => ⟨0, 0, id, 0⟩) [] .sort []).toOption = some [0, 1])) = true := by
    decide +kernel
  obtain ⟨s, hs, hstate⟩ := machine.exists_reachable ⟨_, _, validConfig_small, rfl⟩ hrun
  obtain ⟨horder, hcount, hsinks, hlive, hpick, hall⟩ := of_decide_eq_true hstate
  refine ⟨s, hs, ⟨1, 1, 0, false, 0, 0, 0, false⟩, ⟨0, 1, 0, false, 0, 0, 0, false⟩,
    fun id => ⟨0, 0, id, 0⟩, rfl, rfl, horder, hcount, toOption_eq_some hpick, fun hcorrect => ?_,
    toOption_eq_some hall, fun hcorrect => ?_⟩
  · have hsize := hcorrect.size one_pos (by rw [horder]; exact one_lt_two)
    rw [hcount] at hsize
    exact absurd hsize (by decide)
  · have hbest := hcorrect.best rfl rfl 0 List.mem_cons_self (by rw [hsinks]; exact List.not_mem_nil)
      List.not_mem_nil List.not_mem_nil 2 hlive (by decide)
    rw [better_of_lt (by norm_num)] at hbest
    cases hbest

end Qw3.Store
