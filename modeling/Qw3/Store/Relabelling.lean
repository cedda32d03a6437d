import Qw3.Store.Fusion
import Qw3.Store.Groups

/-!
# Pickers under a relabelling

Two stores that hold the same history name its blocks differently: one by index,
the other by physical slot.  The pickers do not see the difference.

* `Pool.Relabels` — one pool's directory is the other's, relabelled.
* `MarksRelabel` — the same blocks are marked; every loop of the pickers keeps it.
* `Agree` — both calls throw, or both return, with related results.
* `takeTop_relabel`, `fill_relabel`, `pickTopkBlocks_relabel`,
  `pickPrefillPressureFrom_relabel`, `addGroups_relabel`.
-/

namespace Qw3.Store

/-- The pool `q` has the directory of `p` with its blocks relabelled by `φ`, and
none of them is deleted. -/
structure Pool.Relabels (φ : ℕ → ℕ) (p q : Pool) : Prop where
  left : p.Ok
  right : q.Ok
  order : q.order = p.order.map φ
  live : ∀ i ∈ p.order, p.live i = true
  live' : ∀ i ∈ p.order, q.live (φ i) = true
  sink : ∀ i ∈ p.order, q.sink (φ i) = p.sink i
  earlier : ∀ i ∈ p.order, ∀ j ∈ p.order, q.earlier (φ i) (φ j) = p.earlier i j
  position : ∀ i ∈ p.order, q.position (φ i) = p.position i

/-- Both calls throw, or both return, with related results. -/
inductive Agree {α β : Type} (R : α → β → Prop) : Except PickError α → Except PickError β → Prop
  | ok {a : α} {b : β} (h : R a b) : Agree R (.ok a) (.ok b)
  | error {e e' : PickError} : Agree R (.error e) (.error e')

/-- On the blocks of a directory the same ones are marked. -/
structure MarksRelabel (φ : ℕ → ℕ) (l : List ℕ) (m n : Marks) : Prop where
  count : n.count = m.count
  marked : ∀ i ∈ l, n.marked (φ i) = m.marked i

variable {φ : ℕ → ℕ} {p q : Pool} {l ids : List ℕ} {m n : Marks} {budget : ℕ}

theorem Pool.Relabels.inj (h : p.Relabels φ q) :
    ∀ i ∈ p.order, ∀ j ∈ p.order, φ i = φ j → i = j := by
  have hnodup := h.right.nodup
  rw [h.order] at hnodup
  exact fun i hi j hj => List.inj_on_of_nodup_map hnodup hi hj

theorem Pool.Relabels.mem (h : p.Relabels φ q) {i : ℕ} (hi : i ∈ p.order) : φ i ∈ q.order := by
  rw [h.order]
  exact List.mem_map_of_mem hi

theorem Pool.Relabels.keepable (h : p.Relabels φ q) {i : ℕ} (hi : i ∈ p.order) :
    p.Keepable i = true ∧ q.Keepable (φ i) = true := by
  rw [h.left.keepable, h.right.keepable]
  exact ⟨h.live i hi, h.live' i hi⟩

/-! ## Marking -/

namespace MarksRelabel

theorem empty (φ : ℕ → ℕ) (l : List ℕ) : MarksRelabel φ l .empty .empty := ⟨rfl, fun _ _ => rfl⟩

theorem add (hinj : ∀ i ∈ l, ∀ j ∈ l, φ i = φ j → i = j) (h : MarksRelabel φ l m n) {i : ℕ}
    (hi : i ∈ l) : MarksRelabel φ l (m.add i) (n.add (φ i)) := by
  have hsame := h.marked i hi
  constructor
  · cases hmark : m.marked i with
    | true =>
        rw [Marks.add_of_marked hmark, Marks.add_of_marked (hsame.trans hmark), h.count]
    | false =>
        rw [Marks.add_count_of_not hmark, Marks.add_count_of_not (hsame.trans hmark), h.count]
  · intro j hj
    rw [Bool.eq_iff_iff, Marks.add_marked, Marks.add_marked, h.marked j hj]
    refine or_congr_left ⟨hinj j hj i hi, ?_⟩
    intro heq
    rw [heq]

theorem keepAll (hinj : ∀ i ∈ l, ∀ j ∈ l, φ i = φ j → i = j) (h : MarksRelabel φ l m n)
    (hids : ∀ i ∈ ids, i ∈ l) :
    MarksRelabel φ l (keepAll Marks.add m ids) (keepAll Marks.add n (ids.map φ)) := by
  induction ids generalizing m n with
  | nil => exact h
  | cons i rest ih =>
      exact ih (h.add hinj (hids i List.mem_cons_self)) fun j hj => hids j (List.mem_cons_of_mem _ hj)

theorem keepWhile (hinj : ∀ i ∈ l, ∀ j ∈ l, φ i = φ j → i = j) (h : MarksRelabel φ l m n)
    (hids : ∀ i ∈ ids, i ∈ l) :
    MarksRelabel φ l (keepWhile Marks.add budget m ids)
      (keepWhile Marks.add budget n (ids.map φ)) := by
  induction ids generalizing m n with
  | nil => exact h
  | cons i rest ih =>
      have hrest : ∀ j ∈ rest, j ∈ l := fun j hj => hids j (List.mem_cons_of_mem _ hj)
      show MarksRelabel φ l
        (Store.keepWhile Marks.add budget (if m.count < budget then m.add i else m) rest)
        (Store.keepWhile Marks.add budget (if n.count < budget then n.add (φ i) else n)
          (rest.map φ))
      rw [h.count]
      split_ifs
      · exact ih (h.add hinj (hids i List.mem_cons_self)) hrest
      · exact ih h hrest

end MarksRelabel

/-- The blocks that one marks are the blocks that the other marks. -/
theorem selected_relabel (h : p.Relabels φ q) (hm : MarksRelabel φ p.order m n) :
    q.selected n = (p.selected m).map φ := by
  unfold Pool.selected
  rw [h.order, List.filter_map]
  refine congrArg (List.map φ) (List.filter_congr ?_)
  intro i hi
  exact hm.marked i hi

/-! ## The blocks that are always kept -/

section Always

variable {recent : ℕ} {mandatory : List ℕ} {e e' : PickError}

theorem order_filter_sink (h : p.Relabels φ q) :
    q.order.filter q.sink = (p.order.filter p.sink).map φ := by
  rw [h.order, List.filter_map]
  refine congrArg (List.map φ) (List.filter_congr ?_)
  intro i hi
  exact h.sink i hi

theorem recentWindow_relabel (h : p.Relabels φ q) (recent : ℕ) :
    q.recentWindow recent = (p.recentWindow recent).map φ := by
  unfold Pool.recentWindow
  rw [h.order, ← List.map_reverse, List.map_take]

theorem keepMandatory_relabel (h : p.Relabels φ q) (budget : ℕ) (hids : ∀ i ∈ mandatory, i ∈ p.order) :
    MarksRelabel φ p.order (p.keepMandatory Marks.add budget mandatory)
      (q.keepMandatory Marks.add budget (mandatory.map φ)) := by
  unfold Pool.keepMandatory
  rw [order_filter_sink h]
  refine MarksRelabel.keepAll h.inj (.keepWhile h.inj (.empty φ p.order) ?_) hids
  exact fun i hi => (List.mem_filter.mp hi).1

theorem alwaysKeep_relabel (h : p.Relabels φ q) (hids : ∀ i ∈ mandatory, i ∈ p.order) :
    Agree (MarksRelabel φ p.order) (p.alwaysKeep Marks.add budget recent mandatory e)
      (q.alwaysKeep Marks.add budget recent (mandatory.map φ) e') := by
  have hm := keepMandatory_relabel h budget hids
  unfold Pool.alwaysKeep
  dsimp only
  rw [hm.count, recentWindow_relabel h]
  split_ifs
  · exact .error
  · refine .ok (.keepWhile h.inj hm ?_)
    exact fun i hi => List.mem_reverse.mp (List.mem_of_mem_take hi)

/-! With the liveness checks of `keep`, which blocks of a directory pass. -/

theorem Pool.Relabels.keepable_of_mem (h : p.Relabels φ q) (hids : ∀ i ∈ ids, i ∈ p.order) :
    ∀ j ∈ ids.map φ, q.Keepable j = true := by
  intro j hj
  obtain ⟨i, hi, rfl⟩ := List.mem_map.mp hj
  exact (h.keepable (hids i hi)).2

theorem keepWhile_relabel (h : p.Relabels φ q) (hm : MarksRelabel φ p.order m n)
    (hids : ∀ i ∈ ids, i ∈ p.order) :
    MarksRelabel φ p.order (keepWhile p.keep budget m ids) (keepWhile q.keep budget n (ids.map φ)) := by
  rw [← keepWhile_add fun i hi => (h.keepable (hids i hi)).1,
    ← keepWhile_add (h.keepable_of_mem hids)]
  exact hm.keepWhile h.inj hids

theorem keepMandatory_relabel' (h : p.Relabels φ q) (budget : ℕ) (hids : ∀ i ∈ mandatory, i ∈ p.order) :
    MarksRelabel φ p.order (p.keepMandatory p.keep budget mandatory)
      (q.keepMandatory q.keep budget (mandatory.map φ)) := by
  unfold Pool.keepMandatory
  rw [order_filter_sink h, ← keepAll_add fun i hi => (h.keepable (hids i hi)).1,
    ← keepAll_add (h.keepable_of_mem hids)]
  refine MarksRelabel.keepAll h.inj (keepWhile_relabel h (.empty φ p.order) ?_) hids
  exact fun i hi => (List.mem_filter.mp hi).1

theorem alwaysKeep_relabel' (h : p.Relabels φ q) (hids : ∀ i ∈ mandatory, i ∈ p.order) :
    Agree (MarksRelabel φ p.order) (p.alwaysKeep p.keep budget recent mandatory e)
      (q.alwaysKeep q.keep budget recent (mandatory.map φ) e') := by
  have hm := keepMandatory_relabel' h budget hids
  unfold Pool.alwaysKeep
  dsimp only
  rw [hm.count, recentWindow_relabel h]
  split_ifs
  · exact .error
  · refine .ok (keepWhile_relabel h hm ?_)
    exact fun i hi => List.mem_reverse.mp (List.mem_of_mem_take hi)

end Always

/-! ## The best candidates -/

section TakeTop

variable {score score' : ℕ → ℚ} {positiveOnly : Bool}

/-- A directory has no ties. -/
theorem Pool.Ok.total (hp : p.Ok) {i j : ℕ} (hi : i ∈ p.order) (hj : j ∈ p.order)
    (hij : p.earlier i j = false) (hji : p.earlier j i = false) : i = j := by
  by_contra hne
  have hsymm : Std.Symm fun a b => p.earlier a b = true ∨ p.earlier b a = true := ⟨fun _ _ => Or.symm⟩
  have hone : p.order.Pairwise fun a b => p.earlier a b = true ∨ p.earlier b a = true :=
    hp.chronological.imp fun h => .inl h
  rcases hone.forall hi hj hne with h | h
  · rw [h] at hij
    cases hij
  · rw [h] at hji
    cases hji

theorem better_relabel (h : p.Relabels φ q) (hscore : ∀ i ∈ p.order, score' (φ i) = score i) {i j : ℕ}
    (hi : i ∈ p.order) (hj : j ∈ p.order) : q.better score' (φ i) (φ j) = p.better score i j := by
  unfold Pool.better
  rw [hscore i hi, hscore j hj, h.earlier j hj i hi]

/-- The candidates are the same blocks. -/
theorem mem_candidates_relabel (h : p.Relabels φ q) (hm : MarksRelabel φ p.order m n)
    (hscore : ∀ i ∈ p.order, score' (φ i) = score i) {i : ℕ} (hi : i ∈ p.order) :
    φ i ∈ q.candidates score' positiveOnly n ↔ i ∈ p.candidates score positiveOnly m := by
  rw [mem_candidates, mem_candidates, hm.marked i hi, h.live i hi, h.live' i hi, hscore i hi]
  have hlt := h.left.order_lt i hi
  have hlt' := h.right.order_lt (φ i) (h.mem hi)
  exact ⟨fun hc => ⟨hlt, hc.2⟩, fun hc => ⟨hlt', hc.2⟩⟩

theorem candidates_relabel (h : p.Relabels φ q) (hp : p.NoStray) (hq : q.NoStray)
    (hm : MarksRelabel φ p.order m n) (hscore : ∀ i ∈ p.order, score' (φ i) = score i) :
    (q.candidates score' positiveOnly n).Perm ((p.candidates score positiveOnly m).map φ) := by
  have horder : ∀ i ∈ p.candidates score positiveOnly m, i ∈ p.order := by
    intro i hi
    exact hp i (mem_candidates.mp hi).2.2.1
  refine (List.perm_ext_iff_of_nodup (List.nodup_range.filter _) ?_).mpr ?_
  · refine List.Nodup.map_on ?_ (List.nodup_range.filter _)
    exact fun i hi j hj => h.inj i (horder i hi) j (horder j hj)
  · intro b
    rw [List.mem_map]
    constructor
    · intro hb
      have hb' := hq b (mem_candidates.mp hb).2.2.1
      rw [h.order] at hb'
      obtain ⟨i, hi, rfl⟩ := List.mem_map.mp hb'
      exact ⟨i, (mem_candidates_relabel h hm hscore hi).mp hb, rfl⟩
    · rintro ⟨i, hi, rfl⟩
      exact (mem_candidates_relabel h hm hscore (horder i hi)).mpr hi

/-- **`take_top`** takes the same blocks, whatever the two `nth_element` do. -/
theorem takeTop_relabel {nth nth' : NthElement} {quota : ℕ} (h : p.Relabels φ q) (hp : p.NoStray)
    (hq : q.NoStray) (hm : MarksRelabel φ p.order m n)
    (hscore : ∀ i ∈ p.order, score' (φ i) = score i) :
    MarksRelabel φ p.order (p.takeTop nth budget quota score positiveOnly m)
      (q.takeTop nth' budget quota score' positiveOnly n) := by
  obtain ⟨chosen, heq, hnodup, hsub, hlength, hbest⟩ :=
    takeTop_spec h.left nth budget quota score positiveOnly m
  obtain ⟨chosen', heq', hnodup', hsub', hlength', hbest'⟩ :=
    takeTop_spec h.right nth' budget quota score' positiveOnly n
  have hperm : (q.candidates score' positiveOnly n).Perm
      ((p.candidates score positiveOnly m).map φ) := candidates_relabel h hp hq hm hscore
  have horder : ∀ i ∈ chosen, i ∈ p.order := by
    intro i hi
    exact hp i (mem_candidates.mp (hsub i hi)).2.2.1
  have hmap : (chosen.map φ).Nodup :=
    hnodup.map_on fun i hi j hj => h.inj i (horder i hi) j (horder j hj)
  have hlen : (chosen.map φ).length = chosen'.length := by
    rw [List.length_map, hlength, hlength', hperm.length_eq, List.length_map, hm.count]
  -- two blocks that could stand for each other would tie
  have hswap : ∀ x ∈ chosen.map φ, ∀ y ∈ chosen', y ∉ chosen.map φ → x ∉ chosen' → False := by
    intro x hx y hy hyx hxy
    obtain ⟨i, hi, rfl⟩ := List.mem_map.mp hx
    obtain ⟨j, hj, rfl⟩ := List.mem_map.mp (hperm.subset (hsub' y hy))
    have hj' : j ∉ chosen := fun hmem => hyx (List.mem_map_of_mem hmem)
    have hin := hp j (mem_candidates.mp hj).2.2.1
    have hji := hbest i hi j hj hj'
    have hij := hbest' (φ j) hy (φ i)
      ((mem_candidates_relabel h hm hscore (horder i hi)).mpr (hsub i hi)) hxy
    rw [better_relabel h hscore (horder i hi) hin] at hij
    exact hj' (better_total (h.left.total (horder i hi) hin) hji hij ▸ hi)
  have hiff : ∀ b, b ∈ chosen' ↔ b ∈ chosen.map φ := by
    intro b
    constructor
    · refine mem_of_no_swap hmap hlen.symm ?_ b
      intro y hy x hx hxy hyx
      exact hswap x hx y hy hyx hxy
    · exact mem_of_no_swap hnodup' hlen hswap b
  rw [heq, heq']
  constructor
  case count =>
    rw [Marks.addAll_count hnodup fun i hi => (mem_candidates.mp (hsub i hi)).2.1,
      Marks.addAll_count hnodup' fun i hi => (mem_candidates.mp (hsub' i hi)).2.1, hm.count, ← hlen,
      List.length_map]
  case marked =>
    intro i hi
    rw [Bool.eq_iff_iff, Marks.addAll_marked, Marks.addAll_marked, hm.marked i hi, hiff]
    refine or_congr_left ⟨?_, fun hmem => List.mem_map_of_mem hmem⟩
    intro hmem
    obtain ⟨j, hj, hφ⟩ := List.mem_map.mp hmem
    exact h.inj j (horder j hj) i hi hφ ▸ hj

end TakeTop

/-! ## `pick_topk_blocks` -/

section Fill

variable {c : PickConfig} {scores scores' : ℕ → BlockScores} {prefill : List (ℕ × ℚ)}
  {nth nth' : NthElement} {score score' : ℕ → ℚ} {mandatory : List ℕ}

theorem usePrefill_relabel (h : p.Relabels φ q) (hscores : ∀ i ∈ p.order, scores' (φ i) = scores i) :
    usePrefill q scores' prefill = usePrefill p scores prefill := by
  unfold usePrefill
  rw [h.order, List.all_map]
  refine congrArg _ ?_
  rw [Bool.eq_iff_iff, List.all_eq_true, List.all_eq_true]
  refine forall₂_congr ?_
  intro i hi
  show (!(q.live (φ i) && decide (0 < (scores' (φ i)).action))) = true ↔ _
  rw [h.live' i hi, h.live i hi, hscores i hi]

theorem attentionScore_relabel (h : p.Relabels φ q)
    (hscores : ∀ i ∈ p.order, scores' (φ i) = scores i) :
    ∀ i ∈ p.order, attentionScore q scores' prefill (φ i) = attentionScore p scores prefill i := by
  intro i hi
  unfold attentionScore
  rw [usePrefill_relabel h hscores, h.position i hi, hscores i hi]

theorem fusionPool_relabel (h : p.Relabels φ q) (hm : MarksRelabel φ p.order m n) :
    fusionPool q n = (fusionPool p m).map φ := by
  unfold fusionPool
  rw [h.order, List.filter_map]
  refine congrArg (List.map φ) (List.filter_congr ?_)
  intro i hi
  show (!n.marked (φ i)) = _
  rw [hm.marked i hi]

theorem streamMax_relabel (hscore : ∀ i ∈ l, score' (φ i) = score i) :
    streamMax score' (l.map φ) = streamMax score l := by
  unfold streamMax
  rw [List.foldl_map]
  refine List.foldl_ext _ _ _ ?_
  intro x i hi
  rw [hscore i hi]

theorem streamSum_relabel (hscore : ∀ i ∈ l, score' (φ i) = score i) :
    streamSum score' (l.map φ) = streamSum score l := by
  have htotal : streamTotal score' (l.map φ) = streamTotal score l := by
    unfold streamTotal
    rw [List.map_map]
    refine congrArg List.sum (List.map_congr_left ?_)
    intro i hi
    show max 0 (score' (φ i)) = _
    rw [hscore i hi]
  rw [streamSum_eq, streamSum_eq, htotal, streamMax_relabel hscore]

/-- The score by which the fusion selects. -/
theorem fusionScore_relabel (h : p.Relabels φ q) (hm : MarksRelabel φ p.order m n)
    (hscores : ∀ i ∈ p.order, scores' (φ i) = scores i) :
    ∀ i ∈ p.order, fusionScore q c scores' prefill n (φ i) = fusionScore p c scores prefill m i := by
  intro i hi
  have hpool : ∀ j ∈ fusionPool p m, j ∈ p.order := fun j hj => (List.mem_filter.mp hj).1
  have hq : ∀ j ∈ fusionPool p m, (scores' (φ j)).retrieval = (scores j).retrieval := by
    intro j hj
    rw [hscores j (hpool j hj)]
  have ha : ∀ j ∈ fusionPool p m,
      attentionScore q scores' prefill (φ j) = attentionScore p scores prefill j := by
    intro j hj
    exact attentionScore_relabel h hscores j (hpool j hj)
  have hqsum : streamSum (fun j => (scores' j).retrieval) ((fusionPool p m).map φ) =
      streamSum (fun j => (scores j).retrieval) (fusionPool p m) := streamSum_relabel hq
  have hqmax : streamMax (fun j => (scores' j).retrieval) ((fusionPool p m).map φ) =
      streamMax (fun j => (scores j).retrieval) (fusionPool p m) := streamMax_relabel hq
  have hmem : φ i ∈ (fusionPool p m).map φ ↔ i ∈ fusionPool p m := by
    rw [List.mem_map]
    constructor
    · rintro ⟨j, hj, hφ⟩
      exact h.inj j (hpool j hj) i hi hφ ▸ hj
    · exact fun hin => ⟨i, hin, rfl⟩
  unfold fusionScore
  rw [fusionPool_relabel h hm, hqsum, streamSum_relabel ha]
  split_ifs
  · unfold fusedScore
    dsimp only
    rw [fusionPool_relabel h hm, hqsum, hqmax, streamSum_relabel ha, streamMax_relabel ha,
      hscores i hi, attentionScore_relabel h hscores i hi]
    exact if_congr hmem rfl rfl
  · exact congrArg BlockScores.retrieval (hscores i hi)

theorem pickFused_relabel (h : p.Relabels φ q) (hp : p.NoStray) (hq : q.NoStray)
    (hm : MarksRelabel φ p.order m n) (hscores : ∀ i ∈ p.order, scores' (φ i) = scores i) :
    Agree (MarksRelabel φ p.order) (pickFused p c scores prefill nth m)
      (pickFused q c scores' prefill nth' n) := by
  have hany : ((fusionPool q n).any fun id => decide (attentionScore q scores' prefill id < 0)) =
      (fusionPool p m).any fun id => decide (attentionScore p scores prefill id < 0) := by
    rw [fusionPool_relabel h hm, List.any_map]
    rw [Bool.eq_iff_iff, List.any_eq_true, List.any_eq_true]
    refine exists_congr fun i => and_congr_right ?_
    intro hi
    show decide (attentionScore q scores' prefill (φ i) < 0) = true ↔ _
    rw [attentionScore_relabel h hscores i (List.mem_filter.mp hi).1]
  unfold pickFused
  dsimp only
  rw [hany, hm.count]
  by_cases hneg : ((fusionPool p m).any fun id => decide (attentionScore p scores prefill id < 0)) = true
  · rw [if_pos hneg, if_pos hneg]
    exact .error
  · rw [if_neg hneg, if_neg hneg]
    exact .ok (takeTop_relabel h hp hq hm (fusionScore_relabel h hm hscores))

/-- By one of the scores of a block. -/
theorem takeTop_field (f : BlockScores → ℚ) {quota : ℕ} {positiveOnly : Bool} (h : p.Relabels φ q)
    (hp : p.NoStray) (hq : q.NoStray) (hm : MarksRelabel φ p.order m n)
    (hscores : ∀ i ∈ p.order, scores' (φ i) = scores i) :
    MarksRelabel φ p.order (p.takeTop nth budget quota (fun id => f (scores id)) positiveOnly m)
      (q.takeTop nth' budget quota (fun id => f (scores' id)) positiveOnly n) :=
  takeTop_relabel h hp hq hm fun i hi => congrArg f (hscores i hi)

/-- The same, up to the budget. -/
theorem takeTop_upTo (f : BlockScores → ℚ) {positiveOnly : Bool} (h : p.Relabels φ q)
    (hp : p.NoStray) (hq : q.NoStray) (hm : MarksRelabel φ p.order m n)
    (hscores : ∀ i ∈ p.order, scores' (φ i) = scores i) :
    MarksRelabel φ p.order
      (p.takeTop nth budget (budget - m.count) (fun id => f (scores id)) positiveOnly m)
      (q.takeTop nth' budget (budget - n.count) (fun id => f (scores' id)) positiveOnly n) := by
  rw [hm.count]
  exact takeTop_field f h hp hq hm hscores

theorem pickActionQuota_relabel (h : p.Relabels φ q) (hp : p.NoStray) (hq : q.NoStray)
    (hm : MarksRelabel φ p.order m n) (hscores : ∀ i ∈ p.order, scores' (φ i) = scores i) :
    MarksRelabel φ p.order (pickActionQuota p c scores prefill nth m)
      (pickActionQuota q c scores' prefill nth' n) := by
  unfold pickActionQuota
  dsimp only
  rw [hm.count]
  refine takeTop_upTo BlockScores.retrieval h hp hq ?_ hscores
  refine takeTop_relabel h hp hq ?_ (attentionScore_relabel h hscores)
  exact takeTop_field BlockScores.retrieval h hp hq hm hscores

theorem pickQuota_relabel (h : p.Relabels φ q) (hp : p.NoStray) (hq : q.NoStray)
    (hm : MarksRelabel φ p.order m n) (hscores : ∀ i ∈ p.order, scores' (φ i) = scores i) :
    MarksRelabel φ p.order (pickQuota p c scores nth m) (pickQuota q c scores' nth' n) := by
  unfold pickQuota
  dsimp only
  rw [hm.count]
  refine takeTop_upTo BlockScores.attn h hp hq ?_ hscores
  refine takeTop_field BlockScores.profile h hp hq ?_ hscores
  exact takeTop_field BlockScores.retrieval h hp hq hm hscores

/-- **Every policy** adds the same blocks. -/
theorem fill_relabel (h : p.Relabels φ q) (hp : p.NoStray) (hq : q.NoStray)
    (hm : MarksRelabel φ p.order m n) (hscores : ∀ i ∈ p.order, scores' (φ i) = scores i) :
    Agree (MarksRelabel φ p.order) (fill p c scores prefill nth m) (fill q c scores' prefill nth' n) := by
  unfold fill
  rw [hm.count]
  split_ifs
  · exact pickFused_relabel h hp hq hm hscores
  · exact .ok (pickActionQuota_relabel h hp hq hm hscores)
  · exact .ok (pickQuota_relabel h hp hq hm hscores)
  · exact .ok (takeTop_upTo BlockScores.attn h hp hq hm hscores)

/-- The blocks of a directory pass the checks of the mandatory list. -/
theorem validate_of_order (hlive : ∀ i ∈ p.order, p.live i = true) (hids : ∀ i ∈ mandatory, i ∈ p.order) :
    ¬ p.validate mandatory = false := by
  rw [Bool.not_eq_false]
  unfold Pool.validate
  have hall : (mandatory.all fun id =>
      (!(p.repository || decide (id < p.blockCount))) || p.live id) = true := by
    rw [List.all_eq_true]
    intro i hi
    rw [hlive i (hids i hi), Bool.or_true]
  rw [hall, Bool.or_true]

theorem Pool.Relabels.live_of_mem (h : p.Relabels φ q) : ∀ j ∈ q.order, q.live j = true := by
  intro j hj
  rw [h.order] at hj
  obtain ⟨i, hi, rfl⟩ := List.mem_map.mp hj
  exact h.live' i hi

theorem Pool.Relabels.validate (h : p.Relabels φ q) (hids : ∀ i ∈ mandatory, i ∈ p.order) :
    ¬ p.validate mandatory = false ∧ ¬ q.validate (mandatory.map φ) = false := by
  refine ⟨validate_of_order h.live hids, validate_of_order h.live_of_mem ?_⟩
  intro j hj
  obtain ⟨i, hi, rfl⟩ := List.mem_map.mp hj
  exact h.mem (hids i hi)

/-- Everything in the directory. -/
theorem Pool.Relabels.filter_live (h : p.Relabels φ q) :
    q.order.filter q.live = (p.order.filter p.live).map φ := by
  rw [List.filter_eq_self.mpr h.live, List.filter_eq_self.mpr h.live_of_mem, h.order]

theorem Pool.Relabels.length (h : p.Relabels φ q) : q.order.length = p.order.length := by
  rw [h.order, List.length_map]

/-- A store without blocks has no directory. -/
theorem Pool.Ok.order_eq_nil (hp : p.Ok) (hzero : p.blockCount = 0) : p.order = [] := by
  refine List.eq_nil_iff_forall_not_mem.mpr ?_
  intro i hi
  have := hp.order_lt i hi
  omega

theorem Pool.Relabels.blockCount_ne_zero (h : p.Relabels φ q) (hnil : p.order ≠ []) :
    p.blockCount ≠ 0 ∧ q.blockCount ≠ 0 := by
  constructor
  · exact fun hzero => hnil (h.left.order_eq_nil hzero)
  · intro hzero
    have hmap := h.order.symm.trans (h.right.order_eq_nil hzero)
    exact hnil (List.map_eq_nil_iff.mp hmap)

/-- Without blocks in the directory nothing is selected. -/
theorem pickTopkBlocks_nil (horder : p.order = []) (hvalid : ¬ p.validate mandatory = false) :
    pickTopkBlocks p c scores prefill nth mandatory = .ok [] := by
  have hfits : c.budget = 0 ∨ p.order.length ≤ c.budget := by
    rw [horder]
    exact .inr (Nat.zero_le _)
  unfold pickTopkBlocks
  rw [if_neg hvalid, if_pos hfits, horder, List.filter_nil, ite_self]

/-- The directory decides the selection: no live block is outside it, or
everything is returned, or the blocks that the sink, the mandatory list and the
recent window ask for fill the budget. -/
def Pool.Decided (p : Pool) (c : PickConfig) (mandatory : List ℕ) : Prop :=
  p.NoStray ∨ c.budget = 0 ∨ p.order.length ≤ c.budget ∨ c.budget ≤ p.heldCount c.recentBlocks mandatory

/-- **`pick_topk_blocks`** selects the same blocks. -/
theorem pickTopkBlocks_relabel (h : p.Relabels φ q) (hq : q.NoStray) (hdecided : p.Decided c mandatory)
    (hids : ∀ i ∈ mandatory, i ∈ p.order) (hscores : ∀ i ∈ p.order, scores' (φ i) = scores i) :
    Agree (fun sel sel' => sel' = sel.map φ) (pickTopkBlocks p c scores prefill nth mandatory)
      (pickTopkBlocks q c scores' prefill nth' (mandatory.map φ)) := by
  obtain ⟨hvalid, hvalid'⟩ := h.validate hids
  by_cases hnil : p.order = []
  · rw [pickTopkBlocks_nil hnil hvalid,
      pickTopkBlocks_nil (by rw [h.order, hnil, List.map_nil]) hvalid']
    exact .ok rfl
  obtain ⟨hzero, hzero'⟩ := h.blockCount_ne_zero hnil
  unfold pickTopkBlocks
  rw [if_neg hzero, if_neg hzero', if_neg hvalid, if_neg hvalid', h.length]
  by_cases hfits : c.budget = 0 ∨ p.order.length ≤ c.budget
  · rw [if_pos hfits, if_pos hfits]
    exact .ok h.filter_live
  · rw [if_neg hfits, if_neg hfits]
    have halways : Agree (MarksRelabel φ p.order)
        (p.alwaysKeep p.keep c.budget c.recentBlocks mandatory .sinkExceeds)
        (q.alwaysKeep q.keep c.budget c.recentBlocks (mandatory.map φ) .sinkExceeds) :=
      alwaysKeep_relabel' h hids
    generalize hm : p.alwaysKeep p.keep c.budget c.recentBlocks mandatory .sinkExceeds = r
      at halways ⊢
    generalize q.alwaysKeep q.keep c.budget c.recentBlocks (mandatory.map φ) .sinkExceeds = r'
      at halways ⊢
    cases halways with
    | error => exact .error
    | @ok m n hmarks =>
        have hfill : Agree (MarksRelabel φ p.order) (fill p c scores prefill nth m)
            (fill q c scores' prefill nth' n) := by
          rcases hdecided with hp | hzero | hall | hheld
          · exact fill_relabel h hp hq hmarks hscores
          · exact absurd (.inl hzero) hfits
          · exact absurd (.inr hall) hfits
          · have hfull := alwaysKeep_full h.left hheld hm
            rw [fill_of_full hfull, fill_of_full (hmarks.count ▸ hfull)]
            exact .ok hmarks
        dsimp only
        generalize fill p c scores prefill nth m = r at hfill ⊢
        generalize fill q c scores' prefill nth' n = r' at hfill ⊢
        cases hfill with
        | error => exact .error
        | ok hmarks => exact .ok (selected_relabel h hmarks)

end Fill

/-! ## `pick_prefill_pressure_from` -/

section Pressure

variable {c : PickConfig} {mandatory : List ℕ} {actions : List (ℕ × ℚ)}

/-- The candidates come in the same order. -/
theorem pressureCandidates_relabel (h : p.Relabels φ q) (hm : MarksRelabel φ p.order m n)
    (hactions : ∀ a ∈ actions, a.1 ∈ p.order) :
    pressureCandidates q n (actions.map (Prod.map φ id)) =
      (pressureCandidates p m actions).map (Prod.map φ id) := by
  unfold pressureCandidates
  rw [List.filter_map]
  have hfilter : actions.filter ((fun a => decide (a.1 < q.blockCount) && decide (a.1 ∈ q.order) &&
      q.live a.1 && !n.marked a.1 && decide (0 < a.2)) ∘ Prod.map φ id) =
        actions.filter fun a => decide (a.1 < p.blockCount) && decide (a.1 ∈ p.order) &&
          p.live a.1 && !m.marked a.1 && decide (0 < a.2) := by
    refine List.filter_congr ?_
    intro a ha
    have hin := hactions a ha
    show (decide (φ a.1 < q.blockCount) && decide (φ a.1 ∈ q.order) && q.live (φ a.1) &&
      !n.marked (φ a.1) && decide (0 < a.2)) = _
    rw [decide_eq_true (h.right.order_lt _ (h.mem hin)), decide_eq_true (h.mem hin),
      h.live' _ hin, hm.marked _ hin, decide_eq_true (h.left.order_lt _ hin), decide_eq_true hin,
      h.live _ hin]
  rw [hfilter]
  refine (List.map_insertionSort _ _ (Prod.map φ id) _ ?_).symm
  -- ties are broken by the same order
  intro a ha b hb
  have hin := hactions a (List.mem_filter.mp ha).1
  have hin' := hactions b (List.mem_filter.mp hb).1
  show _ ↔ b.2 < a.2 ∨ b.2 = a.2 ∧ q.earlier (φ a.1) (φ b.1) = false
  rw [h.earlier _ hin _ hin']

/-- The resident candidates are the same blocks. -/
theorem resident_relabel (h : p.Relabels φ q) (hactions : ∀ a ∈ actions, a.1 ∈ p.order) {i : ℕ}
    (hi : i ∈ p.order) :
    (decide (φ i ∈ q.order) && q.live (φ i) &&
        (actions.map (Prod.map φ id)).any fun a => decide (a.1 = φ i)) =
      (decide (i ∈ p.order) && p.live i && actions.any fun a => decide (a.1 = i)) := by
  rw [decide_eq_true (h.mem hi), h.live' i hi, decide_eq_true hi, h.live i hi, List.any_map]
  refine congrArg (true && true && ·) ?_
  rw [Bool.eq_iff_iff, List.any_eq_true, List.any_eq_true]
  refine exists_congr fun a => and_congr_right ?_
  intro ha
  show decide (φ a.1 = φ i) = true ↔ _
  rw [decide_eq_true_iff, decide_eq_true_iff]
  exact ⟨h.inj _ (hactions a ha) i hi, congrArg φ⟩

/-- What is asked for is in the snapshot. -/
theorem not_outside (hids : ∀ i ∈ mandatory, i ∈ p.order) :
    ¬ (p.repository = true ∧ (mandatory.any fun id => decide (id ∉ p.order)) = true) := by
  rintro ⟨-, hany⟩
  obtain ⟨i, hi, hnot⟩ := List.any_eq_true.mp hany
  exact of_decide_eq_true hnot (hids i hi)

theorem pickPrefillPressureFrom_nil (horder : p.order = []) (hvalid : ¬ p.validate mandatory = false)
    (hids : ∀ i ∈ mandatory, i ∈ p.order) : pickPrefillPressureFrom p c mandatory actions = .ok [] := by
  have hfits : c.prefillBudget = 0 ∨ p.order.length ≤ c.prefillBudget := by
    rw [horder]
    exact .inr (Nat.zero_le _)
  unfold pickPrefillPressureFrom
  rw [if_neg hvalid, if_neg (not_outside hids), if_pos hfits, horder, List.filter_nil, ite_self]

/-- What is left to fill with, newest first. -/
theorem pressureRest_relabel (h : p.Relabels φ q) (hactions : ∀ a ∈ actions, a.1 ∈ p.order) :
    (if (actions.map (Prod.map φ id)).isEmpty then q.order.reverse else q.order.reverse.filter fun j =>
        decide (j ∈ q.order) && q.live j &&
          (actions.map (Prod.map φ id)).any fun a => decide (a.1 = j)) =
      (if actions.isEmpty then p.order.reverse else p.order.reverse.filter fun i =>
        decide (i ∈ p.order) && p.live i && actions.any fun a => decide (a.1 = i)).map φ := by
  have hreverse : q.order.reverse = p.order.reverse.map φ := by
    rw [h.order, List.map_reverse]
  rw [List.isEmpty_map, hreverse, apply_ite (List.map φ), List.filter_map]
  refine if_congr Iff.rfl rfl (congrArg (List.map φ) (List.filter_congr ?_))
  intro i hi
  exact resident_relabel h hactions (List.mem_reverse.mp hi)

/-- **The selection under pressure** is the same. -/
theorem pickPrefillPressureFrom_relabel (h : p.Relabels φ q) (hids : ∀ i ∈ mandatory, i ∈ p.order)
    (hactions : ∀ a ∈ actions, a.1 ∈ p.order) :
    Agree (fun sel sel' => sel' = sel.map φ) (pickPrefillPressureFrom p c mandatory actions)
      (pickPrefillPressureFrom q c (mandatory.map φ) (actions.map (Prod.map φ id))) := by
  obtain ⟨hvalid, hvalid'⟩ := h.validate hids
  have hids' : ∀ j ∈ mandatory.map φ, j ∈ q.order := by
    intro j hj
    obtain ⟨i, hi, rfl⟩ := List.mem_map.mp hj
    exact h.mem (hids i hi)
  by_cases hnil : p.order = []
  · rw [pickPrefillPressureFrom_nil hnil hvalid hids,
      pickPrefillPressureFrom_nil (by rw [h.order, hnil, List.map_nil]) hvalid' hids']
    exact .ok rfl
  obtain ⟨hzero, hzero'⟩ := h.blockCount_ne_zero hnil
  have hm := keepMandatory_relabel' h c.prefillBudget hids
  have hnegative : ((actions.map (Prod.map φ id)).any fun a => decide (a.2 < 0)) =
      actions.any fun a => decide (a.2 < 0) := List.any_map
  have hcandidates : (pressureCandidates q (q.keepMandatory q.keep c.prefillBudget (mandatory.map φ))
      (actions.map (Prod.map φ id))).map Prod.fst =
      ((pressureCandidates p (p.keepMandatory p.keep c.prefillBudget mandatory) actions).map
        Prod.fst).map φ := by
    rw [pressureCandidates_relabel h hm hactions, List.map_map, List.map_map]
    rfl
  unfold pickPrefillPressureFrom
  dsimp only
  rw [if_neg hzero, if_neg hzero', if_neg hvalid, if_neg hvalid', if_neg (not_outside hids),
    if_neg (not_outside hids'), h.length, hm.count, hnegative, hcandidates,
    pressureRest_relabel h hactions]
  by_cases hfits : c.prefillBudget = 0 ∨ p.order.length ≤ c.prefillBudget
  · rw [if_pos hfits, if_pos hfits]
    exact .ok h.filter_live
  rw [if_neg hfits, if_neg hfits]
  by_cases hover : c.prefillBudget < (p.keepMandatory p.keep c.prefillBudget mandatory).count
  · rw [if_pos hover, if_pos hover]
    exact .error
  rw [if_neg hover, if_neg hover]
  by_cases hneg : (actions.any fun a => decide (a.2 < 0)) = true
  · rw [if_pos hneg, if_pos hneg]
    exact .error
  rw [if_neg hneg, if_neg hneg]
  refine .ok (selected_relabel h (keepWhile_relabel h (keepWhile_relabel h hm ?_) ?_))
  · intro i hi
    obtain ⟨a, ha, rfl⟩ := List.mem_map.mp hi
    have ha := (List.mem_filter.mp ((List.mem_insertionSort _).mp ha)).1
    exact hactions a ha
  · intro i hi
    split_ifs at hi
    · exact List.mem_reverse.mp hi
    · exact List.mem_reverse.mp (List.mem_filter.mp hi).1

end Pressure

/-! ## The groups -/

section Groups

variable {blocks blocks' : ℕ → Option (List ℕ)}

/-- **The loop over the groups** adds the same groups. -/
theorem addGroups_relabel (hinj : ∀ i ∈ l, ∀ j ∈ l, φ i = φ j → i = j)
    (hblocks : ∀ g, blocks' g = (blocks g).map (List.map φ))
    (hmem : ∀ g ids, blocks g = some ids → ∀ i ∈ ids, i ∈ l) (gs : List ℕ)
    (hm : MarksRelabel φ l m n) :
    MarksRelabel φ l (addGroups Marks.add budget blocks gs m)
      (addGroups Marks.add budget blocks' gs n) := by
  induction gs generalizing m n with
  | nil => exact hm
  | cons g gs ih =>
      unfold addGroups
      rw [hblocks g]
      cases hg : blocks g with
      | none => exact ih hm
      | some ids =>
          have hadd := hm.keepAll hinj (hmem g ids hg)
          have hnew : ((ids.map φ).filter fun id => !n.marked id).length =
              (ids.filter fun id => !m.marked id).length := by
            rw [List.filter_map, List.length_map]
            refine congrArg List.length (List.filter_congr ?_)
            intro i hi
            show (!n.marked (φ i)) = _
            rw [hm.marked i (hmem g ids hg i hi)]
          dsimp only [Option.map_some]
          rw [hnew, hm.count, hadd.count]
          split_ifs
          · exact ih hm
          · exact hadd
          · exact ih hadd

end Groups

end Qw3.Store
