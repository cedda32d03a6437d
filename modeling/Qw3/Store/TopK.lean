import Qw3.Store.Bounded
import Qw3.Store.Keeping

/-!
# The selection of `pick_topk_blocks`

The picker marks blocks in phases: the live sink blocks, the mandatory ones, the
recent window, and then the best of what is left, by one of four policies.  The
marks are over the slots of the store, and what is returned is the entries of its
directory that are marked.  The two agree where every live slot has an entry.
Where one has none, it can be marked and is not returned, and the marks count it.

* `alwaysKeep_spec` — what the sink, the mandatory blocks and the recent window
  keep.
* `Pool.Held`, `Pool.heldCount` — the live blocks that these three ask for.
* `fill_spec` — every policy fills up to the budget.
* `TopKCorrect` — what a selection should be.
* `Pool.Sound` — the directories and the calls for which it is, whatever the
  scores; `topKCorrect_of_sound`.  That it is for no others is in
  `Qw3.Store.Stray`.
-/

namespace Qw3.Store

open Qw3.Repository (KvMemBlockHandle)

/-- The live sink blocks, oldest first. -/
def Pool.sinks (p : Pool) : List ℕ := p.order.filter fun id => p.sink id && p.live id

/-! ## The blocks that are always kept -/

section Always

variable {p : Pool} {m : Marks} {budget recent : ℕ} {mandatory : List ℕ} {error : PickError}

theorem fresh_sinks (hp : p.Ok) : p.fresh .empty (p.order.filter p.sink) = p.sinks := by
  unfold Pool.fresh Pool.sinks
  rw [List.filter_filter]
  refine List.filter_congr fun id _ => ?_
  rw [hp.keepable, Bool.and_comm]
  show (p.sink id && (p.live id && !false)) = _
  rw [Bool.not_false, Bool.and_true]

/-- The sink phase marks the first of the live sink blocks. -/
theorem keepSinks_eq (hp : p.Ok) (budget : ℕ) :
    keepWhile p.keep budget .empty (p.order.filter p.sink) =
      Marks.empty.addAll (p.sinks.take budget) := by
  rw [keepWhile_eq (hp.nodup.filter _), fresh_sinks hp]
  rfl

theorem keepMandatory_kept (hp : p.Ok) (budget : ℕ) (mandatory : List ℕ) :
    p.Kept (p.keepMandatory p.keep budget mandatory) :=
  (p.empty_kept.keepWhile (hp.nodup.filter _) budget).keepAll mandatory

theorem keepMandatory_marked (hp : p.Ok) {id : ℕ} :
    (p.keepMandatory p.keep budget mandatory).marked id = true ↔
      (id ∈ mandatory ∧ p.live id = true) ∨ id ∈ p.sinks.take budget := by
  unfold Pool.keepMandatory
  rw [keepAll_eq, Marks.addAll_marked, List.mem_filter, hp.keepable, keepSinks_eq hp,
    Marks.addAll_marked]
  refine or_congr_right (or_iff_left ?_)
  exact Bool.false_ne_true

theorem recentWindow_nodup (hp : p.Ok) (recent : ℕ) : (p.recentWindow recent).Nodup :=
  (List.nodup_reverse.mpr hp.nodup).sublist (List.take_sublist _ _)

/-- What is always kept. -/
structure AlwaysKept (p : Pool) (budget recent : ℕ) (mandatory : List ℕ) (m : Marks) : Prop where
  kept : p.Kept m
  count_le : m.count ≤ budget
  sink : ∀ id ∈ p.sinks.take budget, m.marked id = true
  asked : ∀ id ∈ mandatory, p.live id = true → m.marked id = true
  only : ∀ id, m.marked id = true → id ∈ p.sinks ∨ id ∈ mandatory ∨ id ∈ p.recentWindow recent

theorem alwaysKeep_spec (hp : p.Ok)
    (h : p.alwaysKeep p.keep budget recent mandatory error = .ok m) :
    AlwaysKept p budget recent mandatory m := by
  unfold Pool.alwaysKeep at h
  dsimp only at h
  split_ifs at h with hover
  have hover := not_lt.mp hover
  obtain rfl := Except.ok.inj h
  have hrecent := recentWindow_nodup hp recent
  have hmandatory := keepMandatory_kept hp budget mandatory
  have hmarked : ∀ id, (keepWhile p.keep budget (p.keepMandatory p.keep budget mandatory)
      (p.recentWindow recent)).marked id = true ↔
        id ∈ (p.fresh (p.keepMandatory p.keep budget mandatory) (p.recentWindow recent)).take
          (budget - (p.keepMandatory p.keep budget mandatory).count) ∨
        (p.keepMandatory p.keep budget mandatory).marked id = true := fun id => by
    rw [keepWhile_eq hrecent, Marks.addAll_marked]
  refine ⟨hmandatory.keepWhile hrecent budget, ?_, fun id hid => ?_, fun id hid hlive => ?_,
    fun id hid => ?_⟩
  · rw [keepWhile_count hrecent]
    omega
  · exact (hmarked id).mpr (.inr ((keepMandatory_marked hp).mpr (.inr hid)))
  · exact (hmarked id).mpr (.inr ((keepMandatory_marked hp).mpr (.inl ⟨hid, hlive⟩)))
  · rcases (hmarked id).mp hid with hnew | hold
    · exact .inr (.inr (List.mem_filter.mp (List.mem_of_mem_take hnew)).1)
    · rcases (keepMandatory_marked hp).mp hold with hid | hid
      · exact .inr (.inl hid.1)
      · exact .inl (List.mem_of_mem_take hid)

end Always

section Held

variable {p : Pool} {budget recent : ℕ} {mandatory : List ℕ} {m : Marks} {e : PickError}

/-- A live block that the sink, the mandatory list or the recent window asks
for. -/
def Pool.Held (p : Pool) (recent : ℕ) (mandatory : List ℕ) (id : ℕ) : Bool :=
  p.live id && decide (id ∈ p.sinks ∨ id ∈ mandatory ∨ id ∈ p.recentWindow recent)

/-- The number of these. -/
def Pool.heldCount (p : Pool) (recent : ℕ) (mandatory : List ℕ) : ℕ :=
  (List.range p.blockCount).countP (p.Held recent mandatory)

theorem held_iff {id : ℕ} : p.Held recent mandatory id = true ↔
    p.live id = true ∧ (id ∈ p.sinks ∨ id ∈ mandatory ∨ id ∈ p.recentWindow recent) := by
  rw [Pool.Held, Bool.and_eq_true, decide_eq_true_iff]

theorem held_of_alwaysKept (h : AlwaysKept p budget recent mandatory m) {id : ℕ}
    (hid : m.marked id = true) : p.Held recent mandatory id = true :=
  held_iff.mpr ⟨h.kept.live id hid, h.only id hid⟩

/-- Below the budget, everything that is asked for is kept. -/
theorem alwaysKept_of_held (hp : p.Ok)
    (h : p.alwaysKeep p.keep budget recent mandatory e = .ok m) (hlt : m.count < budget) {id : ℕ}
    (hid : p.Held recent mandatory id = true) : m.marked id = true := by
  have hspec := alwaysKeep_spec hp h
  obtain ⟨hlive, hid⟩ := held_iff.mp hid
  rcases hid with hsink | hasked | hrecent
  · -- the loop over the sink has not run out of budget
    have hle := hspec.kept.ok.length_filter_le
      ((hp.nodup.filter _).sublist (List.take_sublist budget p.sinks))
    rw [List.filter_eq_self.mpr hspec.sink, List.length_take] at hle
    refine hspec.sink id ?_
    rwa [List.take_of_length_le (by omega)]
  · exact hspec.asked id hasked hlive
  · unfold Pool.alwaysKeep at h
    dsimp only at h
    split_ifs at h with hover
    obtain rfl := Except.ok.inj h
    have hnodup := recentWindow_nodup hp recent
    rw [keepWhile_count hnodup] at hlt
    rw [keepWhile_eq hnodup, Marks.addAll_marked, List.take_of_length_le (by omega)]
    cases hmark : (p.keepMandatory p.keep budget mandatory).marked id with
    | true => exact .inr rfl
    | false =>
        refine .inl (List.mem_filter.mpr ⟨hrecent, ?_⟩)
        rw [hp.keepable, hlive, hmark]
        rfl

theorem alwaysKept_count (hp : p.Ok)
    (h : p.alwaysKeep p.keep budget recent mandatory e = .ok m) (hlt : m.count < budget) :
    m.count = p.heldCount recent mandatory := by
  rw [(alwaysKeep_spec hp h).kept.ok.count]
  refine List.countP_congr fun id _ => ⟨held_of_alwaysKept (alwaysKeep_spec hp h), ?_⟩
  exact alwaysKept_of_held hp h hlt

/-- Where less is asked for than the budget, it is kept. -/
theorem exists_alwaysKeep (hp : p.Ok) (e : PickError) (hlt : p.heldCount recent mandatory < budget) :
    ∃ m, p.alwaysKeep p.keep budget recent mandatory e = .ok m ∧ m.count < budget := by
  have hmandatory := keepMandatory_kept hp budget mandatory
  have hle : ∀ m : Marks, p.Kept m → (∀ id, m.marked id = true → p.Held recent mandatory id = true) →
      m.count ≤ p.heldCount recent mandatory := by
    intro m hm hsub
    rw [hm.ok.count]
    exact List.countP_mono_left fun id _ => hsub id
  have hkept : ¬ budget < (p.keepMandatory p.keep budget mandatory).count := by
    refine not_lt.mpr ((hle _ hmandatory fun id hid => ?_).trans hlt.le)
    refine held_iff.mpr ⟨hmandatory.live id hid, ?_⟩
    exact ((keepMandatory_marked hp).mp hid).elim (fun h => .inr (.inl h.1)) fun h =>
      .inl (List.mem_of_mem_take h)
  have hok : p.alwaysKeep p.keep budget recent mandatory e =
      .ok (keepWhile p.keep budget (p.keepMandatory p.keep budget mandatory)
        (p.recentWindow recent)) := if_neg hkept
  refine ⟨_, hok, ?_⟩
  have hspec := alwaysKeep_spec hp hok
  exact (hle _ hspec.kept fun id => held_of_alwaysKept hspec).trans_lt hlt

/-- Where the blocks that are asked for fill the budget nothing is ranked. -/
theorem alwaysKeep_full (hp : p.Ok) (hheld : budget ≤ p.heldCount recent mandatory)
    (hm : p.alwaysKeep p.keep budget recent mandatory e = .ok m) : budget ≤ m.count := by
  by_contra hlt
  exact absurd (hheld.trans_eq (alwaysKept_count hp hm (not_le.mp hlt)).symm) hlt

/-- The number of live blocks that are kept before the recent window is looked at. -/
def Pool.askedCount (p : Pool) (budget : ℕ) (mandatory : List ℕ) : ℕ :=
  (List.range p.blockCount).countP fun id => p.live id && decide (id ∈ mandatory ∨ id ∈ p.sinks.take budget)

theorem keepMandatory_count (hp : p.Ok) :
    (p.keepMandatory p.keep budget mandatory).count = p.askedCount budget mandatory := by
  have hkept := keepMandatory_kept hp budget mandatory
  rw [hkept.ok.count]
  refine List.countP_congr ?_
  intro id _
  rw [keepMandatory_marked hp, Bool.and_eq_true, decide_eq_true_iff]
  constructor
  · rintro (⟨hasked, hlive⟩ | hsink)
    · exact ⟨hlive, .inl hasked⟩
    · exact ⟨hkept.live id ((keepMandatory_marked hp).mpr (.inr hsink)), .inr hsink⟩
  · rintro ⟨hlive, hasked | hsink⟩
    · exact .inl ⟨hasked, hlive⟩
    · exact .inr hsink

end Held

/-! ## Filling up -/

section Fill

variable {p : Pool} {c : PickConfig} {scores : ℕ → BlockScores} {prefill : List (ℕ × ℚ)}
  {nth : NthElement} {m m' : Marks}

theorem takeTop_count_le (hp : p.Ok) {quota : ℕ} {score : ℕ → ℚ} {positiveOnly : Bool}
    {budget : ℕ} (hle : m.count ≤ budget) :
    (p.takeTop nth budget quota score positiveOnly m).count ≤ budget := by
  rw [takeTop_count hp]
  omega

/-- **Every policy fills up to the budget**, as far as there are live blocks. -/
theorem fill_spec (hp : p.Ok) (hm : p.Kept m) (hle : m.count ≤ c.budget)
    (h : fill p c scores prefill nth m = .ok m') :
    p.Kept m' ∧ (∀ id, m.marked id = true → m'.marked id = true) ∧
      m'.count = min c.budget p.liveCount := by
  have hlast : ∀ {m₁ : Marks} {score : ℕ → ℚ}, p.Kept m₁ → m₁.count ≤ c.budget →
      (∀ id, m.marked id = true → m₁.marked id = true) →
      p.Kept (p.takeTop nth c.budget (c.budget - m₁.count) score false m₁) ∧
      (∀ id, m.marked id = true →
        (p.takeTop nth c.budget (c.budget - m₁.count) score false m₁).marked id = true) ∧
      (p.takeTop nth c.budget (c.budget - m₁.count) score false m₁).count =
        min c.budget p.liveCount :=
    fun hk hc hmono => ⟨hk.takeTop hp, fun id hid => takeTop_mono hp (hmono id hid),
      takeTop_fill hp hk hc⟩
  unfold fill at h
  split_ifs at h
  · unfold pickFused at h
    dsimp only at h
    split_ifs at h
    all_goals
      obtain rfl := Except.ok.inj h
      exact hlast hm hle fun _ hid => hid
  · obtain rfl := Except.ok.inj h
    exact hlast ((hm.takeTop hp).takeTop hp) (takeTop_count_le hp (takeTop_count_le hp hle))
      fun id hid => takeTop_mono hp (takeTop_mono hp hid)
  · obtain rfl := Except.ok.inj h
    exact hlast ((hm.takeTop hp).takeTop hp) (takeTop_count_le hp (takeTop_count_le hp hle))
      fun id hid => takeTop_mono hp (takeTop_mono hp hid)
  · obtain rfl := Except.ok.inj h
    exact hlast hm hle fun _ hid => hid

/-- Where the budget is reached, nothing is filled. -/
theorem fill_of_full (hfull : c.budget ≤ m.count) :
    fill p c scores prefill nth m = .ok m := by
  unfold fill
  rw [if_neg fun h => not_lt.mpr hfull h.2, if_neg fun h => not_lt.mpr hfull h.2]
  exact congrArg _ (if_pos (.inl hfull))

/-- Without negative scores no policy throws. -/
theorem exists_fill (p : Pool) (c : PickConfig) (nth : NthElement) (scores : ℕ → BlockScores)
    (prefill : List (ℕ × ℚ)) (m : Marks) (hscores : ∀ id, 0 ≤ attentionScore p scores prefill id) :
    ∃ m', fill p c scores prefill nth m = .ok m' := by
  unfold fill
  split_ifs
  · unfold pickFused
    dsimp only
    rw [if_neg]
    · exact ⟨_, rfl⟩
    · rw [List.any_eq_true]
      rintro ⟨id, -, hneg⟩
      exact not_lt.mpr (hscores id) (of_decide_eq_true hneg)
  · exact ⟨_, rfl⟩
  · exact ⟨_, rfl⟩
  · exact ⟨_, rfl⟩

end Fill

/-- The scores of a block that was never scored. -/
def BlockScores.zero : BlockScores := ⟨0, 0, 0, 0⟩

/-! ## The selection -/

/-- What the selection of `pick_topk_blocks` should be. -/
structure TopKCorrect (p : Pool) (c : PickConfig) (scores : ℕ → BlockScores) (mandatory : List ℕ)
    (sel : List ℕ) : Prop where
  chronological : sel.Pairwise fun a b => p.earlier a b = true
  nodup : sel.Nodup
  live : ∀ id ∈ sel, p.live id = true
  asked : ∀ id ∈ mandatory, p.live id = true → id ∈ sel
  /-- the live sink blocks, up to the budget -/
  sink : ∀ id ∈ p.sinks.take c.budget, id ∈ sel
  size : 0 < c.budget → c.budget < p.order.length → sel.length = min c.budget p.liveCount
  /-- under the plain policy nothing that is left is better than what was ranked -/
  best : c.quota = false → c.actionFraction = 0 → ∀ x ∈ sel, x ∉ p.sinks → x ∉ mandatory →
    x ∉ p.recentWindow c.recentBlocks → ∀ y, p.live y = true → y ∉ sel →
      p.better (fun id => (scores id).attn) y x = false

/-- The call throws before it looks at a score: a mandatory block is not live, or
with the sink there are more of them than the budget. -/
def Pool.Refuses (p : Pool) (c : PickConfig) (mandatory : List ℕ) : Prop :=
  p.validate mandatory = false ∨
    c.budget ≠ 0 ∧ c.budget < p.order.length ∧ c.budget < p.askedCount c.budget mandatory

/-- The mandatory blocks are in the directory, and no score matters: all of the
directory is returned, and is asked for where the scores should matter; or the
blocks that are asked for fill the budget. -/
def Pool.Unranked (p : Pool) (c : PickConfig) (mandatory : List ℕ) : Prop :=
  (∀ id ∈ mandatory, p.live id = true → id ∈ p.order) ∧
    if c.budget = 0 ∨ p.order.length ≤ c.budget then
      c.quota = false → c.actionFraction = 0 → ∀ id ∈ p.order, p.live id = true →
        p.Held c.recentBlocks mandatory id = true
    else c.budget ≤ p.heldCount c.recentBlocks mandatory

/-- The calls for which every selection is as it should be: no live block is
outside the directory, or the call throws, or no score matters. -/
def Pool.Sound (p : Pool) (c : PickConfig) (mandatory : List ℕ) : Prop :=
  p.NoStray ∨ p.Refuses c mandatory ∨ p.Unranked c mandatory

section Selection

variable {p : Pool} {c : PickConfig} {scores : ℕ → BlockScores} {prefill : List (ℕ × ℚ)}
  {nth : NthElement} {mandatory sel : List ℕ} {m : Marks}

theorem selected_sublist (p : Pool) (m : Marks) : (p.selected m).Sublist p.order :=
  List.filter_sublist

/-- What is kept is emitted, where it is in the directory. -/
theorem selected_length (hp : p.Ok) (hm : p.Kept m) (hin : ∀ id, m.marked id = true → id ∈ p.order) :
    (p.selected m).length = m.count :=
  hm.ok.length_filter hp.nodup hin

theorem mem_selected {id : ℕ} : id ∈ p.selected m ↔ id ∈ p.order ∧ m.marked id = true :=
  List.mem_filter

theorem topKCorrect_all (hp : p.Ok) (hfits : c.budget = 0 ∨ p.order.length ≤ c.budget)
    (hin : ∀ id ∈ mandatory, p.live id = true → id ∈ p.order)
    (hheld : p.NoStray ∨ (c.quota = false → c.actionFraction = 0 → ∀ id ∈ p.order, p.live id = true →
      p.Held c.recentBlocks mandatory id = true)) :
    TopKCorrect p c scores mandatory (p.order.filter p.live) where
  chronological := hp.chronological.filter _
  nodup := hp.nodup.filter _
  live _ h := (List.mem_filter.mp h).2
  asked id hid hlive := List.mem_filter.mpr ⟨hin id hid hlive, hlive⟩
  sink id hid := by
    have hid := List.mem_filter.mp (List.mem_of_mem_take hid)
    exact List.mem_filter.mpr ⟨hid.1, (Bool.and_eq_true_iff.mp hid.2).2⟩
  size hpos hlt := by
    exact absurd hfits (by omega)
  best hquota haction x hx hsink hasked hrecent y hy hnot := by
    rcases hheld with hstray | hheld
    · exact absurd (List.mem_filter.mpr ⟨hstray y hy, hy⟩) hnot
    · -- all that is returned is asked for
      obtain ⟨hx, hlive⟩ := List.mem_filter.mp hx
      rcases (held_iff.mp (hheld hquota haction x hx hlive)).2 with h | h | h
      · exact absurd h hsink
      · exact absurd h hasked
      · exact absurd h hrecent

/-- The marked blocks of the directory, where all marks are in it. -/
theorem topKCorrect_marked (hp : p.Ok) (halways : AlwaysKept p c.budget c.recentBlocks mandatory m)
    {m' : Marks} (hfill : fill p c scores prefill nth m = .ok m')
    (hin : ∀ id, m'.marked id = true → id ∈ p.order)
    (hbest : c.quota = false → c.actionFraction = 0 → ∀ x, m'.marked x = true → m.marked x = false →
      ∀ y, p.live y = true → m'.marked y = false → p.better (fun id => (scores id).attn) y x = false) :
    TopKCorrect p c scores mandatory (p.selected m') := by
  obtain ⟨hkept, hmono, hcount⟩ := fill_spec hp halways.kept halways.count_le hfill
  constructor
  case chronological => exact hp.chronological.sublist (selected_sublist p m')
  case nodup => exact hp.nodup.sublist (selected_sublist p m')
  case live => exact fun id hid => hkept.live id (mem_selected.mp hid).2
  case asked =>
    intro id hid hlive
    have hmark := hmono id (halways.asked id hid hlive)
    exact mem_selected.mpr ⟨hin id hmark, hmark⟩
  case sink =>
    intro id hid
    have hmark := hmono id (halways.sink id hid)
    exact mem_selected.mpr ⟨hin id hmark, hmark⟩
  case size => exact fun _ _ => (selected_length hp hkept hin).trans hcount
  case best =>
    intro hquota haction x hx hsink hasked hrecent y hy hnot
    have hrest : m.marked x = false := by
      rw [← Bool.not_eq_true]
      intro hold
      rcases halways.only x hold with h | h | h
      · exact hsink h
      · exact hasked h
      · exact hrecent h
    by_cases hmark : m'.marked y = true
    · -- what is marked is in the directory, and is returned
      exact absurd (mem_selected.mpr ⟨hin y hmark, hmark⟩) hnot
    · exact hbest hquota haction x (mem_selected.mp hx).2 hrest y hy (Bool.not_eq_true _ ▸ hmark)

/-- Where no live block is outside the directory the best ones are taken. -/
theorem topKCorrect_ranked (hp : p.Ok) (hstray : p.NoStray)
    (halways : AlwaysKept p c.budget c.recentBlocks mandatory m) {m' : Marks}
    (hfill : fill p c scores prefill nth m = .ok m') :
    TopKCorrect p c scores mandatory (p.selected m') := by
  have hkept := (fill_spec hp halways.kept halways.count_le hfill).1
  refine topKCorrect_marked hp halways hfill (fun id hid => hstray id (hkept.live id hid)) ?_
  intro hquota haction x hx hold y hy hnot
  have hplain : m' = pickTop p c scores nth m := by
    unfold fill at hfill
    rw [if_neg fun h => absurd h.1 (by rw [haction]; exact lt_irrefl _),
      if_neg fun h => by rw [hquota] at h; exact absurd h.1 Bool.false_ne_true] at hfill
    exact (Except.ok.inj hfill).symm
  -- `x` was taken by its rank, and `y` was a candidate
  obtain ⟨chosen, hchosen, -, -, -, hbest⟩ := takeTop_spec hp nth c.budget (c.budget - m.count)
    (fun id => (scores id).attn) false m
  have hmarks : ∀ id, m'.marked id = true ↔ id ∈ chosen ∨ m.marked id = true := by
    intro id
    rw [hplain, pickTop, hchosen, Marks.addAll_marked]
  have hx' : x ∈ chosen := ((hmarks x).mp hx).resolve_right (by rw [hold]; exact Bool.false_ne_true)
  rw [← Bool.not_eq_true, hmarks, not_or, Bool.not_eq_true] at hnot
  exact hbest x hx' y (mem_candidates.mpr ⟨hp.live_lt y hy, hnot.2, hy, by simp⟩) hnot.1

/-- Where the blocks that are asked for fill the budget nothing else is taken. -/
theorem topKCorrect_full (hp : p.Ok) (hin : ∀ id ∈ mandatory, p.live id = true → id ∈ p.order)
    (halways : AlwaysKept p c.budget c.recentBlocks mandatory m) (hfull : c.budget ≤ m.count) {m' : Marks}
    (hfill : fill p c scores prefill nth m = .ok m') :
    TopKCorrect p c scores mandatory (p.selected m') := by
  have hsame : m = m' := by
    rw [fill_of_full hfull] at hfill
    exact Except.ok.inj hfill
  subst hsame
  refine topKCorrect_marked hp halways hfill (fun id hid => ?_) ?_
  · rcases halways.only id hid with hsink | hasked | hrecent
    · exact (List.mem_filter.mp hsink).1
    · exact hin id hasked (halways.kept.live id hid)
    · exact List.mem_reverse.mp (List.mem_of_mem_take hrecent)
  · intro _ _ x hx hold
    rw [hx] at hold
    cases hold

theorem topKCorrect_of_sound (hp : p.Ok) (hsound : p.Sound c mandatory)
    (h : pickTopkBlocks p c scores prefill nth mandatory = .ok sel) :
    TopKCorrect p c scores mandatory sel := by
  unfold pickTopkBlocks at h
  split_ifs at h with hzero hvalid hfits
  · -- a store without blocks
    obtain rfl := Except.ok.inj h
    have horder : p.order = [] := List.eq_nil_iff_forall_not_mem.mpr fun id hid => by
      have := hp.order_lt id hid
      omega
    refine ⟨.nil, .nil, fun _ h => (by cases h), fun id _ hlive => ?_, fun id hid => ?_,
      fun _ hlt => ?_, fun _ _ x hx => (by cases hx)⟩
    · have := hp.live_lt id hlive
      omega
    · rw [Pool.sinks, horder] at hid
      exact absurd (List.mem_of_mem_take hid) List.not_mem_nil
    · rw [horder] at hlt
      exact absurd hlt (Nat.not_lt_zero _)
  · obtain rfl := Except.ok.inj h
    rcases hsound with hstray | hrefused | ⟨hin, hunranked⟩
    · exact topKCorrect_all hp hfits (fun id _ => hstray id) (.inl hstray)
    · rcases hrefused with hfalse | ⟨hbudget, hlt, -⟩
      · exact absurd hfalse hvalid
      · exact absurd hfits (by omega)
    · rw [if_pos hfits] at hunranked
      exact topKCorrect_all hp hfits hin (.inr hunranked)
  · split at h
    · cases h
    · next m hm =>
      split at h
      · cases h
      · next m' hfill =>
        obtain rfl := Except.ok.inj h
        have halways := alwaysKeep_spec hp hm
        rcases hsound with hstray | hrefused | ⟨hin, hunranked⟩
        · exact topKCorrect_ranked hp hstray halways hfill
        · rcases hrefused with hfalse | ⟨-, -, hover⟩
          · exact absurd hfalse hvalid
          · unfold Pool.alwaysKeep at hm
            dsimp only at hm
            rw [keepMandatory_count hp, if_pos hover] at hm
            cases hm
        · rw [if_neg hfits] at hunranked
          exact topKCorrect_full hp hin halways (alwaysKeep_full hp hunranked hm) hfill

end Selection

end Qw3.Store
