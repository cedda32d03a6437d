import Qw3.Store.TopK

/-!
# The selection of semantic groups

* `addGroups_spec` — the greedy loop adds groups whole, and a group that it
  skips never fits later.
* `GroupsCorrect` — what a selection by groups should be.
* `semanticGroups` — both pickers select so where not everything fits.
-/

namespace Qw3.Store

open Qw3.Repository (KvMemBlockHandle)

/-- What a selection by groups should be, where not everything fits; `blocks`
are the blocks of the groups that are in range and whole. -/
structure GroupsCorrect (p : Pool) (c : PickConfig) (mandatory : List ℕ) (n : ℕ)
    (blocks : ℕ → Option (List ℕ)) (sel : List ℕ) : Prop where
  chronological : sel.Pairwise fun a b => p.earlier a b = true
  nodup : sel.Nodup
  size : sel.length ≤ c.budget
  origin : ∀ id ∈ sel, id ∈ p.sinks ∨ id ∈ mandatory ∨ id ∈ p.recentWindow c.recentBlocks ∨
    ∃ g < n, ∃ ids, blocks g = some ids ∧ id ∈ ids ∧ ∀ j ∈ ids, j ∈ sel
  /-- a group that is left has more new blocks than there is room for -/
  maximal : (∀ id ∈ mandatory, p.live id = true → id ∈ p.order) →
    ∀ g < n, ∀ ids, blocks g = some ids → (∃ j ∈ ids, j ∉ sel) →
      c.budget < sel.length + (ids.filter fun j => decide (j ∉ sel)).length

/-! ## The greedy loop -/

section Greedy

variable {p : Pool} {m m' : Marks} {budget : ℕ} {ids : List ℕ} {blocks : ℕ → Option (List ℕ)}

/-- The blocks that a group would add. -/
def newBlocks (m : Marks) (ids : List ℕ) : List ℕ := ids.filter fun id => !m.marked id

/-- With every further mark a group loses at most one of its new blocks. -/
theorem count_add_newBlocks (hm : m.Ok p.blockCount) (hm' : m'.Ok p.blockCount) (hids : ids.Nodup)
    (hmono : ∀ id, m.marked id = true → m'.marked id = true) :
    m.count + (newBlocks m ids).length ≤ m'.count + (newBlocks m' ids).length := by
  have hsplit : (newBlocks m ids).length =
      ((newBlocks m ids).filter m'.marked).length + (newBlocks m' ids).length := by
    have hpart := List.length_eq_length_filter_add (l := newBlocks m ids) m'.marked
    rw [hpart]
    congr 2
    unfold newBlocks
    rw [List.filter_filter]
    refine List.filter_congr fun id _ => ?_
    cases hmark : m.marked id with
    | false => rw [Bool.not_false, Bool.and_true]
    | true => rw [hmono id hmark]; rfl
  have hdiff := Marks.countP_diff (l := List.range p.blockCount) hmono
  have hle : ((newBlocks m ids).filter m'.marked).length ≤
      ((List.range p.blockCount).filter fun id => m'.marked id && !m.marked id).length := by
    refine (List.subperm_of_subset ((hids.filter _).filter _) fun id hid => ?_).length_le
    obtain ⟨hnew, hmark'⟩ := List.mem_filter.mp hid
    have hnot := (List.mem_filter.mp hnew).2
    exact List.mem_filter.mpr ⟨List.mem_range.mpr (hm'.lt id hmark'), by rw [hmark', hnot]; rfl⟩
  have hcount : m.count ≤ m'.count := by
    rw [hm.count, hm'.count]
    exact List.countP_mono_left fun id _ => hmono id
  rw [hdiff, ← hm.count, ← hm'.count] at hle
  omega

/-- Adding a whole group. -/
theorem keepAll_group (hids : ids.Nodup) (hkeep : ∀ id ∈ ids, p.Keepable id = true) :
    (∀ id, (keepAll p.keep m ids).marked id = true ↔ id ∈ ids ∨ m.marked id = true) ∧
      (keepAll p.keep m ids).count = m.count + (newBlocks m ids).length := by
  rw [keepAll_eq, List.filter_eq_self.mpr hkeep]
  refine ⟨fun id => Marks.addAll_marked, ?_⟩
  induction ids generalizing m with
  | nil => rfl
  | cons id ids ih =>
      obtain ⟨hnot, hids⟩ := List.nodup_cons.mp hids
      rw [Marks.addAll_cons, ih hids fun j hj => hkeep j (List.mem_cons_of_mem _ hj)]
      have hrest : newBlocks (m.add id) ids = newBlocks m ids := List.filter_congr fun j hj => by
        have hne : j ≠ id := fun heq => hnot (heq ▸ hj)
        have hiff : (m.add id).marked j = m.marked j := by
          rw [Bool.eq_iff_iff, Marks.add_marked]
          exact or_iff_right hne
        rw [hiff]
      rw [hrest]
      cases hmark : m.marked id with
      | true =>
          rw [Marks.add_of_marked hmark, newBlocks, newBlocks,
            List.filter_cons_of_neg (by rw [hmark]; decide)]
      | false =>
          have hcons : newBlocks m (id :: ids) = id :: newBlocks m ids :=
            List.filter_cons_of_pos (by rw [hmark]; rfl)
          rw [Marks.add_count_of_not hmark, hcons, List.length_cons]
          omega

/-- What the loop over the groups has done. -/
structure Added (p : Pool) (budget : ℕ) (blocks : ℕ → Option (List ℕ)) (gs : List ℕ)
    (m m' : Marks) : Prop where
  kept : p.Kept m'
  mono : ∀ id, m.marked id = true → m'.marked id = true
  count_le : m'.count ≤ budget
  origin : ∀ id, m'.marked id = true → m.marked id = true ∨
    ∃ g ∈ gs, ∃ ids, blocks g = some ids ∧ id ∈ ids ∧ ∀ j ∈ ids, m'.marked j = true
  maximal : ∀ g ∈ gs, ∀ ids, blocks g = some ids → (∃ j ∈ ids, m'.marked j = false) →
    budget < m'.count + (newBlocks m' ids).length

/-- Where the budget is reached, no group with a new block fits. -/
theorem Added.of_full (hm : p.Kept m) (hfull : m.count = budget) (gs : List ℕ) :
    Added p budget blocks gs m m where
  kept := hm
  mono _ h := h
  count_le := hfull.le
  origin _ h := .inl h
  maximal g _ ids _ hleft := by
    obtain ⟨j, hj, hmark⟩ := hleft
    have hpos : 0 < (newBlocks m ids).length :=
      List.length_pos_of_mem (List.mem_filter.mpr ⟨hj, by rw [hmark]; rfl⟩)
    omega

/-- A group that is skipped, or left out. -/
theorem Added.skip {g : ℕ} {gs : List ℕ} (h : Added p budget blocks gs m m')
    (hg : ∀ ids, blocks g = some ids → (∃ j ∈ ids, m'.marked j = false) →
      budget < m'.count + (newBlocks m' ids).length) :
    Added p budget blocks (g :: gs) m m' where
  kept := h.kept
  mono := h.mono
  count_le := h.count_le
  origin id hid := (h.origin id hid).imp_right fun ⟨f, hf, hrest⟩ =>
    ⟨f, List.mem_cons_of_mem _ hf, hrest⟩
  maximal f hf ids hids hleft := by
    rcases List.mem_cons.mp hf with rfl | hf
    · exact hg ids hids hleft
    · exact h.maximal f hf ids hids hleft

/-- **The greedy loop**: groups are added whole, and what is left does not
fit. -/
theorem addGroups_spec
    (hblocks : ∀ g ids, blocks g = some ids → ids.Nodup ∧ ∀ id ∈ ids, p.Keepable id = true)
    (gs : List ℕ) (hm : p.Kept m) (hle : m.count ≤ budget) :
    Added p budget blocks gs m (addGroups p.keep budget blocks gs m) := by
  induction gs generalizing m with
  | nil =>
      exact ⟨hm, fun _ h => h, hle, fun _ h => .inl h, fun _ h => (by cases h)⟩
  | cons g gs ih =>
      unfold addGroups
      cases hg : blocks g with
      | none => exact (ih hm hle).skip fun ids hids => by rw [hg] at hids; cases hids
      | some ids =>
          obtain ⟨hnodup, hkeep⟩ := hblocks g ids hg
          dsimp only
          split_ifs with hroom hfull
          · -- the group does not fit, and never will
            have hrest := ih hm hle
            refine hrest.skip fun ids' hids' _ => ?_
            obtain rfl := Option.some.inj (hg.symm.trans hids')
            have hlose := count_add_newBlocks hm.ok hrest.kept.ok hnodup hrest.mono
            have hroom : budget - m.count < (newBlocks m ids).length := hroom
            omega
          · obtain ⟨hmarked, hcount⟩ := keepAll_group (m := m) hnodup hkeep
            have hadded : Added p budget blocks (g :: gs) _ _ := .of_full (hm.keepAll ids) hfull _
            exact
              { hadded with
                mono := fun id h => (hmarked id).mpr (.inr h)
                origin := fun id h => ((hmarked id).mp h).symm.imp_right fun hid =>
                  ⟨g, List.mem_cons_self, ids, hg, hid, fun j hj => (hmarked j).mpr (.inl hj)⟩ }
          · obtain ⟨hmarked, hcount⟩ := keepAll_group (m := m) hnodup hkeep
            have hroom : ¬ budget - m.count < (newBlocks m ids).length := hroom
            have hrest := ih (hm.keepAll ids) (by omega)
            have hall : ∀ j ∈ ids, (addGroups p.keep budget blocks gs
                (keepAll p.keep m ids)).marked j = true := fun j hj =>
              hrest.mono j ((hmarked j).mpr (.inl hj))
            have hskip : Added p budget blocks (g :: gs) (keepAll p.keep m ids)
                (addGroups p.keep budget blocks gs (keepAll p.keep m ids)) := by
              refine hrest.skip fun ids' hids' hleft => ?_
              obtain rfl := Option.some.inj (hg.symm.trans hids')
              obtain ⟨j, hj, hnot⟩ := hleft
              rw [hall j hj] at hnot
              cases hnot
            exact
              { hskip with
                mono := fun id h => hskip.mono id ((hmarked id).mpr (.inr h))
                origin := fun id h => by
                  rcases hskip.origin id h with hold | hnew
                  · rcases (hmarked id).mp hold with hid | hid
                    · exact .inr ⟨g, List.mem_cons_self, ids, hg, hid, hall⟩
                    · exact .inl hid
                  · exact .inr hnew }

end Greedy

/-! ## The selections -/

section Selection

variable {p : Pool} {c : PickConfig} {m : Marks} {mandatory : List ℕ} {error : PickError} {n : ℕ}
  {blocks : ℕ → Option (List ℕ)} {gs : List ℕ}

theorem mem_rankedGroups {score : ℕ → ℚ} {g : ℕ} : g ∈ rankedGroups n score ↔ g < n := by
  unfold rankedGroups
  rw [List.mem_insertionSort, List.mem_range]

theorem groupsCorrect (hp : p.Ok)
    (hm : p.alwaysKeep p.keep c.budget c.recentBlocks mandatory error = .ok m)
    (hblocks : ∀ g ids, blocks g = some ids → ids.Nodup ∧ ∀ id ∈ ids, p.live id = true ∧ id ∈ p.order)
    (hgs : ∀ g, g ∈ gs ↔ g < n) :
    GroupsCorrect p c mandatory n blocks (p.selected (addGroups p.keep c.budget blocks gs m)) := by
  have halways := alwaysKeep_spec hp hm
  have hadded : Added p c.budget blocks gs m (addGroups p.keep c.budget blocks gs m) :=
    addGroups_spec (fun g ids hg => ⟨(hblocks g ids hg).1, fun id hid => by
      rw [hp.keepable]
      exact ((hblocks g ids hg).2 id hid).1⟩) gs halways.kept halways.count_le
  generalize addGroups p.keep c.budget blocks gs m = m' at hadded
  have horder : ∀ g ids, blocks g = some ids → ∀ j ∈ ids,
      (j ∈ p.selected m' ↔ m'.marked j = true) := fun g ids hg j hj =>
    mem_selected.trans (and_iff_right ((hblocks g ids hg).2 j hj).2)
  refine ⟨hp.chronological.sublist (selected_sublist p m'), hp.nodup.sublist (selected_sublist p m'),
    (hadded.kept.ok.length_filter_le hp.nodup).trans hadded.count_le, fun id hid => ?_,
    fun hinside g hg ids hids hleft => ?_⟩
  · rcases hadded.origin id (mem_selected.mp hid).2 with hold | ⟨g, hg, ids, hids, hin, hall⟩
    · rcases halways.only id hold with h | h | h
      · exact .inl h
      · exact .inr (.inl h)
      · exact .inr (.inr (.inl h))
    · exact .inr (.inr (.inr ⟨g, (hgs g).mp hg, ids, hids, hin, fun j hj =>
        (horder g ids hids j hj).mpr (hall j hj)⟩))
  · -- everything that is kept is returned
    have hin : ∀ id, m'.marked id = true → id ∈ p.order := fun id hid => by
      rcases hadded.origin id hid with hold | ⟨g, -, ids, hids, hin, -⟩
      · rcases halways.only id hold with h | h | h
        · exact (List.mem_filter.mp h).1
        · exact hinside id h (halways.kept.live id hold)
        · exact List.mem_reverse.mp (List.mem_of_mem_take h)
      · exact ((hblocks g ids hids).2 id hin).2
    obtain ⟨j, hj, hnot⟩ := hleft
    have hmarked : m'.marked j = false := by
      rw [← Bool.not_eq_true, ← horder g ids hids j hj]
      exact hnot
    have hnew : (ids.filter fun j => decide (j ∉ p.selected m')) = newBlocks m' ids :=
      List.filter_congr fun j hj => by
        rw [Bool.eq_iff_iff, decide_eq_true_iff, horder g ids hids j hj, Bool.not_eq_true,
          Bool.not_eq_true']
    rw [hnew, selected_length hp hadded.kept hin]
    exact hadded.maximal g ((hgs g).mpr hg) ids hids ⟨j, hj, hmarked⟩

/-- The blocks of a group of a legacy store. -/
theorem groupBlocks_spec (s : Legacy) (sinkBlocks : ℕ) (view : Option (ℕ → Bool))
    {blockTokens covered : ℕ} {span : ℕ × ℕ} {ids : List ℕ}
    (h : groupBlocks (s.pool sinkBlocks view) blockTokens covered span = some ids) :
    ids.Nodup ∧ ∀ id ∈ ids, (s.pool sinkBlocks view).live id = true ∧
      id ∈ (s.pool sinkBlocks view).order := by
  unfold groupBlocks at h
  dsimp only at h
  split_ifs at h with hrange hfirst hlive
  obtain rfl := Option.some.inj h
  refine ⟨List.nodup_range' _, fun id hid => ?_⟩
  have hid := List.all_eq_true.mp hlive id hid
  exact ⟨hid, s.pool_noStray sinkBlocks view id hid⟩

end Selection

/-! ## The groups of a repository -/

section Repository

variable {s : State} {sinkBlocks : ℕ} {live : ℕ → Bool} {first stop covered : ℕ}

theorem visitSpan_spec {l : List (ℕ × KvMemBlockHandle)} {ids : List ℕ}
    (h : visitSpan s live first stop l covered = some ids) :
    ids.Sublist (l.map fun e => e.2.slot) ∧ ∀ id ∈ ids, live id = true := by
  induction l generalizing covered ids with
  | nil =>
      unfold visitSpan at h
      split_ifs at h
      obtain rfl := Option.some.inj h
      exact ⟨List.nil_sublist _, fun _ h => (by cases h)⟩
  | cons e rest ih =>
      unfold visitSpan at h
      dsimp only at h
      split_ifs at h with hend hcovered hskip hgap
      · obtain rfl := Option.some.inj h
        exact ⟨List.nil_sublist _, fun _ h => (by cases h)⟩
      · obtain ⟨hsub, hlive⟩ := ih h
        exact ⟨hsub.cons _, hlive⟩
      · obtain ⟨tail, htail, rfl⟩ := Option.map_eq_some_iff.mp h
        obtain ⟨hsub, hlive⟩ := ih htail
        refine ⟨hsub.cons_cons _, fun id hid => ?_⟩
        rcases List.mem_cons.mp hid with rfl | hid
        · exact Bool.not_eq_false _ ▸ (not_or.mp hskip).1
        · exact hlive id hid

/-- The handle of an entry's slot is the entry's. -/
theorem State.repositoryHandle_of_entry (hs : s.Inv) {e : ℕ × KvMemBlockHandle}
    (he : e ∈ s.history.entries) : s.repositoryHandle e.2.slot = e.2 := by
  have hentry := hs.directory.entry e he
  rw [State.repositoryHandle, if_pos hentry.slot_lt, hentry.generation]

theorem State.live_of_entry (hs : s.Inv) {e : ℕ × KvMemBlockHandle} (he : e ∈ s.history.entries) :
    (s.pool sinkBlocks).live e.2.slot = true ↔ s.repo.Pinnable e.2 := by
  show (decide (e.2.slot < s.blockCount) && decide (s.repo.Pinnable _)) = true ↔ _
  rw [State.repositoryHandle_of_entry hs he, decide_eq_true (hs.directory.entry e he).slot_lt,
    Bool.true_and, decide_eq_true_iff]

theorem State.live_of_order (hs : s.Inv) {id : ℕ} (hid : id ∈ (s.pool sinkBlocks).order) :
    (s.pool sinkBlocks).live id = true := by
  obtain ⟨e, he, hpin, rfl⟩ := State.mem_pool_order.mp hid
  exact (State.live_of_entry hs he).mpr hpin

/-- The blocks of a group of a store with a repository. -/
theorem repositoryGroup_spec (hs : s.Inv) {span : ℕ × ℕ} {ids : List ℕ}
    (h : repositoryGroup s (s.pool sinkBlocks).live span = some ids) :
    ids.Nodup ∧ ∀ id ∈ ids, (s.pool sinkBlocks).live id = true ∧ id ∈ (s.pool sinkBlocks).order := by
  unfold repositoryGroup historySpanBlocks at h
  split_ifs at h with hrange hempty
  · obtain rfl := Option.some.inj h
    exact ⟨List.nodup_nil, fun _ h => (by cases h)⟩
  · obtain ⟨hsub, hlive⟩ := visitSpan_spec h
    have hnodup : ((s.history.floor span.1).map fun e => e.2.slot).Nodup := by
      refine List.Nodup.map_on (fun e he f hf heq => ?_) ?_
      · exact hs.directory.eq_of_slot (OrdMap.mem_of_mem_floor he) (OrdMap.mem_of_mem_floor hf) heq
      · exact (s.history.floor_sorted span.1).imp fun h heq =>
          absurd h (by rw [heq]; exact lt_irrefl _)
    refine ⟨hnodup.sublist hsub, fun id hid => ⟨hlive id hid, ?_⟩⟩
    obtain ⟨e, he, rfl⟩ := List.mem_map.mp (hsub.subset hid)
    have he := OrdMap.mem_of_mem_floor he
    exact State.mem_pool_order.mpr ⟨e, he, (State.live_of_entry hs he).mp (hlive _ hid), rfl⟩

end Repository

/-! ## A `keep` without a liveness check -/

section Unchecked

variable {p : Pool} {m : Marks} {budget recent : ℕ} {mandatory : List ℕ} {error : PickError}

theorem keepAll_add {ids : List ℕ} (h : ∀ id ∈ ids, p.Keepable id = true) :
    keepAll Marks.add m ids = keepAll p.keep m ids :=
  List.foldl_ext _ _ _ fun _ id hid => (Pool.keep_of_keepable (h id hid)).symm

theorem keepWhile_add {ids : List ℕ} (h : ∀ id ∈ ids, p.Keepable id = true) :
    keepWhile Marks.add budget m ids = keepWhile p.keep budget m ids :=
  List.foldl_ext _ _ _ fun m id hid => by rw [Pool.keep_of_keepable (h id hid)]

theorem alwaysKeep_add (horder : ∀ id ∈ p.order, p.Keepable id = true)
    (hmandatory : ∀ id ∈ mandatory, p.Keepable id = true) :
    p.alwaysKeep Marks.add budget recent mandatory error =
      p.alwaysKeep p.keep budget recent mandatory error := by
  have hsinks : ∀ id ∈ p.order.filter p.sink, p.Keepable id = true := fun id hid =>
    horder id (List.mem_filter.mp hid).1
  have hrecent : ∀ id ∈ p.recentWindow recent, p.Keepable id = true := fun id hid =>
    horder id (List.mem_reverse.mp (List.mem_of_mem_take hid))
  unfold Pool.alwaysKeep Pool.keepMandatory
  dsimp only
  rw [keepWhile_add hsinks, keepAll_add hmandatory, keepWhile_add hrecent]

theorem addGroups_add {blocks : ℕ → Option (List ℕ)}
    (hblocks : ∀ g ids, blocks g = some ids → ∀ id ∈ ids, p.Keepable id = true) (gs : List ℕ)
    (m : Marks) : addGroups Marks.add budget blocks gs m = addGroups p.keep budget blocks gs m := by
  induction gs generalizing m with
  | nil => rfl
  | cons g gs ih =>
      unfold addGroups
      cases hg : blocks g with
      | none => exact ih m
      | some ids =>
          dsimp only
          rw [keepAll_add (hblocks g ids hg), ih, ih]

end Unchecked

/-! ## Both pickers -/

/-- Everything live where it fits, and otherwise a correct selection. -/
structure GroupSelection (p : Pool) (c : PickConfig) (mandatory : List ℕ) (n : ℕ)
    (blocks : ℕ → Option (List ℕ)) (sel : List ℕ) : Prop where
  fits : c.budget = 0 ∨ p.order.length ≤ c.budget → sel = p.order.filter p.live
  chosen : 0 < c.budget → c.budget < p.order.length → GroupsCorrect p c mandatory n blocks sel

theorem Legacy.groupSelection (s : Legacy) {sinkBlocks : ℕ} {view : Option (ℕ → Bool)}
    {c : PickConfig} {groups : List (ℕ × ℕ)} {scores : List ℚ} {mandatory sel : List ℕ}
    (h : s.pickSemanticGroups sinkBlocks view c groups scores mandatory = .ok sel) :
    GroupSelection (s.pool sinkBlocks view) c mandatory groups.length
      (fun g => groupBlocks (s.pool sinkBlocks view) s.config.blockTokens s.coveredTokens
        (groups.getD g (0, 0))) sel := by
  have hlength : (s.pool sinkBlocks view).order.length = s.blockCount := List.length_range
  have hblocks : (s.pool sinkBlocks view).blockCount = s.blockCount := rfl
  unfold Legacy.pickSemanticGroups Pool.pickSemanticGroups at h
  split_ifs at h with hzero hvalid hmismatch hfits
  · obtain rfl := Except.ok.inj h
    have horder : (s.pool sinkBlocks view).order = [] := by
      rw [← List.length_eq_zero_iff, hlength, ← hblocks, hzero]
    rw [hblocks] at hzero
    exact ⟨fun _ => by rw [horder]; rfl, fun _ hlt => absurd hlt (by omega)⟩
  · obtain rfl := Except.ok.inj h
    exact ⟨fun _ => rfl, fun _ hlt => absurd hfits (by omega)⟩
  · split at h
    · cases h
    · next m hm =>
      obtain rfl := Except.ok.inj h
      refine ⟨fun hfits' => absurd hfits' (by omega), fun _ _ => ?_⟩
      exact groupsCorrect (s.pool_ok sinkBlocks view) hm
        (fun g ids hg => groupBlocks_spec s sinkBlocks view hg) fun g => mem_rankedGroups

theorem State.groupSelection {s : State} (hs : s.Inv) {sinkBlocks : ℕ} {c : PickConfig}
    {groups : List (ℕ × ℕ)} {scores : List ℚ} {mandatory sel : List ℕ}
    (h : s.pickRepositorySemanticGroups sinkBlocks c groups scores mandatory = .ok sel) :
    GroupSelection (s.pool sinkBlocks) c mandatory groups.length
      (fun g => repositoryGroup s (s.pool sinkBlocks).live (groups.getD g (0, 0))) sel := by
  have hp := s.pool_ok hs sinkBlocks
  have horder : ∀ id ∈ (s.pool sinkBlocks).order, (s.pool sinkBlocks).Keepable id = true :=
    fun id hid => hp.keepable.trans (State.live_of_order hs hid)
  unfold State.pickRepositorySemanticGroups at h
  dsimp only at h
  split_ifs at h with hmismatch hvalid hfits
  · obtain rfl := Except.ok.inj h
    refine ⟨fun _ => ?_, fun _ _ => absurd hfits (by omega)⟩
    exact (List.filter_eq_self.mpr fun id hid => State.live_of_order hs hid).symm
  · have hmandatory : ∀ id ∈ mandatory, (s.pool sinkBlocks).Keepable id = true := fun id hid => by
      have hvalid := List.all_eq_true.mp (Bool.not_eq_false _ ▸ hvalid :
        (s.pool sinkBlocks).validate mandatory = true) id hid
      exact hp.keepable.trans hvalid
    have hblocks : ∀ g ids, repositoryGroup s (s.pool sinkBlocks).live (groups.getD g (0, 0)) =
        some ids → ids.Nodup ∧ ∀ id ∈ ids, (s.pool sinkBlocks).live id = true ∧
          id ∈ (s.pool sinkBlocks).order := fun g ids hg => repositoryGroup_spec hs hg
    rw [alwaysKeep_add horder hmandatory] at h
    split at h
    · cases h
    · next m hm =>
      obtain rfl := Except.ok.inj h
      refine ⟨fun hfits' => absurd hfits' hfits, fun _ _ => ?_⟩
      rw [addGroups_add fun g ids hg id hid => hp.keepable.trans ((hblocks g ids hg).2 id hid).1]
      exact groupsCorrect hp hm hblocks fun g => mem_rankedGroups

/-- **The selection of semantic groups.** -/
theorem semanticGroups :
    (∀ (s : Legacy) sinkBlocks view (c : PickConfig) groups scores mandatory sel,
      s.pickSemanticGroups sinkBlocks view c groups scores mandatory = .ok sel →
        GroupSelection (s.pool sinkBlocks view) c mandatory groups.length
          (fun g => groupBlocks (s.pool sinkBlocks view) s.config.blockTokens s.coveredTokens
            (groups.getD g (0, 0))) sel) ∧
    ∀ s, machine.Reachable s → ∀ sinkBlocks (c : PickConfig) groups scores mandatory sel,
      s.pickRepositorySemanticGroups sinkBlocks c groups scores mandatory = .ok sel →
        GroupSelection (s.pool sinkBlocks) c mandatory groups.length
          (fun g => repositoryGroup s (s.pool sinkBlocks).live (groups.getD g (0, 0))) sel := by
  constructor
  · intro s sinkBlocks view c groups scores mandatory sel h
    exact s.groupSelection h
  · intro s hs sinkBlocks c groups scores mandatory sel h
    exact State.groupSelection (machine_invariant.reachable hs) h

/-- The better group overlaps three blocks and does not fit. -/
theorem semanticGroups_afterAppend :
    ∃ s, machine.Reachable s ∧ (s.pool 0).order = [0, 1, 2] ∧
      GroupSelection (s.pool 0) ⟨2, 2, 0, false, 0, 0, 0, false⟩ [] 2
        (fun g => repositoryGroup s (s.pool 0).live ([(0, 4), (2, 9)].getD g (0, 0))) [0] := by
  have hrun : (machine.run (State.initial ⟨4, true⟩ ⟨4, 4⟩)
      [.prepareAppend 10 0, .extend 12, .commitAppend 10]).any
      (fun s => decide ((s.pool 0).order = [0, 1, 2] ∧
        (s.pickRepositorySemanticGroups 0 ⟨2, 2, 0, false, 0, 0, 0, false⟩ [(0, 4), (2, 9)] [1, 2]
          []).toOption = some [0])) = true := by
    decide +kernel
  obtain ⟨s, hs, hstate⟩ := machine.exists_reachable ⟨_, _, validConfig_small, rfl⟩ hrun
  obtain ⟨horder, hpick⟩ := of_decide_eq_true hstate
  exact ⟨s, hs, horder, semanticGroups.2 s hs 0 ⟨2, 2, 0, false, 0, 0, 0, false⟩ [(0, 4), (2, 9)]
    [1, 2] [] [0] (toOption_eq_some hpick)⟩

/-- Where everything fits, everything is selected, without any group. -/
theorem fittingStore_needsNoGroup :
    ∃ s, legacyMachine.Reachable s ∧ ∃ c : PickConfig,
      s.pickSemanticGroups 0 none c [] [] [] = .ok [0, 1] ∧
        ¬ GroupsCorrect (s.pool 0 none) c [] 0 (fun _ => none) [0, 1] := by
  have hrun : (legacyMachine.run (.initial ⟨⟨4, true⟩, ⟨true, false, 0, 0, 0⟩⟩)
      [.registerAppend 8]).any (fun s => decide ((s.pickSemanticGroups 0 none
        ⟨2, 2, 0, false, 0, 0, 0, false⟩ [] [] []).toOption = some [0, 1] ∧
        (s.pool 0 none).sinks = [])) = true := by
    decide +kernel
  obtain ⟨s, hs, hstate⟩ := legacyMachine.exists_reachable ⟨_, by decide, rfl⟩ hrun
  obtain ⟨hpick, hsinks⟩ := of_decide_eq_true hstate
  refine ⟨s, hs, ⟨2, 2, 0, false, 0, 0, 0, false⟩, toOption_eq_some hpick, fun hcorrect => ?_⟩
  rcases hcorrect.origin 0 List.mem_cons_self with h | h | h | ⟨g, hg, -⟩
  · rw [hsinks] at h
    cases h
  · cases h
  · rw [Pool.recentWindow, List.take_zero] at h
    cases h
  · exact absurd hg (Nat.not_lt_zero g)

end Qw3.Store
