import Qw3.Store.Contiguous
import Qw3.Store.Relabelling
import Qw3.Store.RepositorySelection
import Qw3.Store.Stray

/-!
# One history in two stores

A legacy store names the blocks of its history by index; a store with a
repository keeps them in slots, in any order.  Where both hold the same history
they should select the same blocks of it.

The pickers of semantic groups and of blocks under pressure read the directory
only, and the directory of one store is that of the other under another name for
each block.  The picker of the best blocks reads the slots as well.  So for it the
slots without an entry matter, unless the call has no rank to give: it returns
everything, or what it keeps in any case fills the budget.

* `SameHistory` — the same history, and none of its blocks deleted.
* `SameHistory.relabels` — one directory is the other, relabelled by
  `State.blockIndex`.
* `SameHistory.group` — a span means the same blocks in both.
* `GroupsAgree`, `PressureAgree`, `TopkAgree` — the pickers agree; the last for
  one list of mandatory blocks and all scores.
* `modeAgreement` — what agrees, and when; `strayBlock_disagrees` — a run
  after which it does not.
-/

namespace Qw3.Store

open Qw3.Repository (KvMemBlockHandle)

/-- The index in the history of the block in a slot. -/
def State.blockIndex (t : State) (slot : ℕ) : ℕ := (t.blocks slot).historyPosStart / t.config.blockTokens

/-- Both stores hold the same history, and no block of it is deleted. -/
structure SameHistory (s : Legacy) (view : Option (ℕ → Bool)) (t : State) : Prop where
  blockTokens : s.config.blockTokens = t.config.blockTokens
  totalTokens : s.totalTokens = t.totalTokens
  live : ∀ i < s.blockCount, (s.pool 0 view).live i = true
  /-- every position is in a block of the directory that can be pinned -/
  covered : ∀ p < t.totalTokens, ∃ e ∈ t.history.entries, t.repo.Pinnable e.2 ∧
    e.1 ≤ p ∧ p < e.1 + (t.blocks e.2.slot).nTokens

instance (s : Legacy) (view : Option (ℕ → Bool)) (t : State) : Decidable (SameHistory s view t) :=
  decidable_of_iff (s.config.blockTokens = t.config.blockTokens ∧ s.totalTokens = t.totalTokens ∧
    (∀ i < s.blockCount, (s.pool 0 view).live i = true) ∧
    ∀ p < t.totalTokens, ∃ e ∈ t.history.entries, t.repo.Pinnable e.2 ∧
      e.1 ≤ p ∧ p < e.1 + (t.blocks e.2.slot).nTokens)
    ⟨fun h => ⟨h.1, h.2.1, h.2.2.1, h.2.2.2⟩, fun h => ⟨h.1, h.2, h.3, h.4⟩⟩

/-- The members of a list in increasing order say what the list is. -/
theorem eq_range'_of_pairwise {l : List ℕ} {k n : ℕ} (hl : l.Pairwise (· < ·))
    (hmem : ∀ i, i ∈ l ↔ k ≤ i ∧ i < n) : l = List.range' k (n - k) := by
  have hanti : ∀ a b : ℕ, a ∈ l → b ∈ List.range' k (n - k) → a < b → b < a → a = b :=
    fun a b _ _ hab hba => absurd hba hab.not_gt
  have hperm : l.Perm (List.range' k (n - k)) := by
    refine (List.perm_ext_iff_of_nodup (hl.imp Nat.ne_of_lt) (List.nodup_range' _)).mpr ?_
    intro i
    rw [hmem, List.mem_range'_1]
    omega
  exact hperm.eq_of_pairwise hanti hl List.pairwise_lt_range'

/-- The end of the last block is the end of the history. -/
theorem Legacy.Contiguous.coveredTokens {s : Legacy} (hs : s.Contiguous) (hpos : 0 < s.blockCount) :
    s.coveredTokens = s.totalTokens := by
  have hlast : s.blockCount - 1 < s.blockCount := by omega
  have hlt := (hs.there (s.blockCount - 1)).mp hlast
  have hend := hs.total_le
  have hsplit : s.blockCount * s.config.blockTokens =
      (s.blockCount - 1) * s.config.blockTokens + s.config.blockTokens := by
    rw [← Nat.succ_mul, Nat.succ_eq_add_one, Nat.sub_add_cancel hpos]
  unfold Legacy.coveredTokens
  rw [hs.origPosStart _ hlast, hs.nTokens _ hlast]
  omega

namespace SameHistory

variable {s : Legacy} {view : Option (ℕ → Bool)} {t : State} {sinkBlocks : ℕ}

/-- The entry of a block of the history. -/
theorem exists_entry (h : SameHistory s view t) (ht : t.Inv) {i : ℕ}
    (hi : i * t.config.blockTokens < t.totalTokens) :
    ∃ e ∈ t.history.entries, t.repo.Pinnable e.2 ∧ e.1 = i * t.config.blockTokens := by
  obtain ⟨e, he, hpin, hle, hlt⟩ := h.covered _ hi
  have hentry := ht.directory.entry e he
  refine ⟨e, he, hpin, ?_⟩
  obtain ⟨j, hj⟩ := Nat.dvd_of_mod_eq_zero hentry.aligned
  have hn := hentry.nTokens_le
  have hpos := ht.block_pos
  rw [Nat.mul_comm] at hj
  have hji : j ≤ i := Nat.le_of_mul_le_mul_right (hj ▸ hle) hpos
  have hij : i < j + 1 := by
    refine Nat.lt_of_mul_lt_mul_right (a := t.config.blockTokens) ?_
    rw [Nat.add_mul, Nat.one_mul]
    omega
  rw [hj, Nat.le_antisymm hji (Nat.lt_succ_iff.mp hij)]

/-- An entry is the one of its block, and can be pinned. -/
theorem entry (h : SameHistory s view t) (ht : t.Inv) {e : ℕ × KvMemBlockHandle}
    (he : e ∈ t.history.entries) : t.repo.Pinnable e.2 ∧
      e.1 = t.blockIndex e.2.slot * t.config.blockTokens := by
  have hentry := ht.directory.entry e he
  have hkey : e.1 = t.blockIndex e.2.slot * t.config.blockTokens := by
    rw [State.blockIndex, hentry.key]
    exact (Nat.div_mul_cancel (Nat.dvd_of_mod_eq_zero hentry.aligned)).symm
  refine ⟨?_, hkey⟩
  obtain ⟨f, hf, hpin, heq⟩ := h.exists_entry ht (hkey ▸ ht.directory.key_lt he)
  rw [OrdMap.eq_of_mem he hf (hkey.trans heq.symm)]
  exact hpin

/-- Every block but the last is full. -/
theorem nTokens (h : SameHistory s view t) (ht : t.Inv) {e : ℕ × KvMemBlockHandle}
    (he : e ∈ t.history.entries) :
    (t.blocks e.2.slot).nTokens = min t.config.blockTokens (t.totalTokens - e.1) := by
  have hentry := ht.directory.entry e he
  have hlimit := hentry.limit
  have hn := hentry.nTokens_le
  have hpos := hentry.nTokens_pos
  -- the last position that the block could hold is in it
  obtain ⟨f, hf, -, hle, hlt⟩ :=
    h.covered (e.1 + min t.config.blockTokens (t.totalTokens - e.1) - 1) (by omega)
  have hfn := (ht.directory.entry f hf).nTokens_le
  obtain hef | hef | hef := lt_trichotomy e.1 f.1
  · have hapart := ht.directory.apart he hf hef
    omega
  · rw [OrdMap.eq_of_mem hf he hef.symm] at hlt
    omega
  · have hdisjoint := ht.directory.disjoint hf he hef
    omega

theorem index_lt (h : SameHistory s view t) (hs : s.Contiguous) {i : ℕ} :
    i < s.blockCount ↔ i * t.config.blockTokens < t.totalTokens := by
  rw [hs.there, h.blockTokens, h.totalTokens]

/-- The blocks of the directory from one on, by their indices. -/
theorem indices (h : SameHistory s view t) (hs : s.Contiguous) (ht : t.Inv)
    {l : List (ℕ × KvMemBlockHandle)} {k : ℕ} (hl : l.Pairwise fun e f => e.1 < f.1)
    (hmem : ∀ e, e ∈ l ↔ e ∈ t.history.entries ∧ k * t.config.blockTokens ≤ e.1) :
    l.map (fun e => t.blockIndex e.2.slot) = List.range' k (s.blockCount - k) := by
  have hpos := ht.block_pos
  apply eq_range'_of_pairwise
  · refine List.pairwise_map.mpr (hl.imp_of_mem ?_)
    intro e f he hf hlt
    rw [(h.entry ht ((hmem e).mp he).1).2, (h.entry ht ((hmem f).mp hf).1).2] at hlt
    exact Nat.lt_of_mul_lt_mul_right hlt
  · intro i
    rw [List.mem_map, h.index_lt hs]
    constructor
    · rintro ⟨e, he, rfl⟩
      obtain ⟨hin, hle⟩ := (hmem e).mp he
      have hkey := ht.directory.key_lt hin
      rw [(h.entry ht hin).2] at hle hkey
      exact ⟨Nat.le_of_mul_le_mul_right hle hpos, hkey⟩
    · rintro ⟨hle, hlt⟩
      obtain ⟨e, he, -, hkey⟩ := h.exists_entry ht hlt
      refine ⟨e, (hmem e).mpr ⟨he, hkey ▸ Nat.mul_le_mul_right _ hle⟩, ?_⟩
      exact Nat.eq_of_mul_eq_mul_right hpos ((h.entry ht he).2.symm.trans hkey)

/-- Nothing is missing from the directory. -/
theorem order (h : SameHistory s view t) (ht : t.Inv) (sinkBlocks : ℕ) :
    (t.pool sinkBlocks).order = t.history.entries.map fun e => e.2.slot := by
  refine congrArg (List.map _) (List.filter_eq_self.mpr ?_)
  intro e he
  exact decide_eq_true (h.entry ht he).1

/-- **One directory is the other**, relabelled. -/
theorem relabels (h : SameHistory s view t) (hs : s.Contiguous) (ht : t.Inv) (sinkBlocks : ℕ) :
    (t.pool sinkBlocks).Relabels t.blockIndex (s.pool sinkBlocks view) := by
  have hmap : (s.pool sinkBlocks view).order = (t.pool sinkBlocks).order.map t.blockIndex := by
    rw [h.order ht, List.map_map]
    show List.range s.blockCount = t.history.entries.map fun e => t.blockIndex e.2.slot
    rw [h.indices hs ht t.history.sorted fun e => ?_, List.range_eq_range', Nat.sub_zero]
    exact ⟨fun he => ⟨he, by omega⟩, And.left⟩
  have hlt : ∀ i ∈ (t.pool sinkBlocks).order, t.blockIndex i < s.blockCount := by
    intro i hi
    refine List.mem_range.mp ?_
    show t.blockIndex i ∈ (s.pool sinkBlocks view).order
    rw [hmap]
    exact List.mem_map_of_mem hi
  have hinj : ∀ ⦃i⦄, i ∈ (t.pool sinkBlocks).order → ∀ ⦃j⦄, j ∈ (t.pool sinkBlocks).order →
      t.blockIndex i = t.blockIndex j → i = j :=
    List.inj_on_of_nodup_map (hmap ▸ (s.pool_ok sinkBlocks view).nodup)
  -- where a block begins is where its index says
  have hbegin : ∀ i ∈ (t.pool sinkBlocks).order,
      (t.blocks i).historyPosStart = t.blockIndex i * t.config.blockTokens := by
    intro i hi
    obtain ⟨e, he, -, rfl⟩ := State.mem_pool_order.mp hi
    rw [(ht.directory.entry e he).key]
    exact (h.entry ht he).2
  constructor
  case left => exact State.pool_ok ht sinkBlocks
  case right => exact s.pool_ok sinkBlocks view
  case order => exact hmap
  case live => exact fun i hi => State.live_of_order ht hi
  case live' => exact fun i hi => h.live _ (hlt i hi)
  case sink =>
    intro i hi
    show decide (t.blockIndex i < sinkBlocks) =
      decide ((t.blocks i).historyPosStart < sinkBlocks * t.config.blockTokens)
    rw [hbegin i hi, decide_eq_decide]
    exact (Nat.mul_lt_mul_right ht.block_pos).symm
  case earlier =>
    intro i hi j hj
    show decide (t.blockIndex i < t.blockIndex j) =
      if (t.blocks i).historyPosStart ≠ (t.blocks j).historyPosStart then
        decide ((t.blocks i).historyPosStart < (t.blocks j).historyPosStart)
      else decide ((t.blocks i).logicalId < (t.blocks j).logicalId)
    rw [hbegin i hi, hbegin j hj]
    by_cases heq : t.blockIndex i = t.blockIndex j
    · -- then it is one block
      obtain rfl := hinj hi hj heq
      rw [if_neg (not_not.mpr rfl), decide_eq_false (lt_irrefl _), decide_eq_false (lt_irrefl _)]
    · rw [if_pos fun hmul => heq (Nat.eq_of_mul_eq_mul_right ht.block_pos hmul), decide_eq_decide]
      exact (Nat.mul_lt_mul_right ht.block_pos).symm
  case position =>
    intro i hi
    show (s.blocks (t.blockIndex i)).origPosStart = (t.blocks i).historyPosStart
    rw [hs.origPosStart _ (hlt i hi), hbegin i hi, h.blockTokens]

/-- The entries from the block of a position on. -/
theorem floor (h : SameHistory s view t) (hs : s.Contiguous) (ht : t.Inv) {first : ℕ}
    (hfirst : first < t.totalTokens) :
    (t.history.floor first).map (fun e => t.blockIndex e.2.slot) =
      List.range' (first / t.config.blockTokens) (s.blockCount - first / t.config.blockTokens) := by
  have hle := Nat.div_mul_le_self first t.config.blockTokens
  obtain ⟨e, he, -, hkey⟩ := h.exists_entry ht (hle.trans_lt hfirst)
  rw [OrdMap.floor_eq he (hkey ▸ hle) ?_]
  · refine h.indices hs ht (t.history.lowerBound_sorted e.1) ?_
    intro f
    rw [OrdMap.mem_lowerBound, hkey]
  · intro f hf hfle
    have hindex := (h.entry ht hf).2
    rw [hindex] at hfle
    rw [hkey, hindex]
    exact Nat.mul_le_mul_right _ ((Nat.le_div_iff_mul_le ht.block_pos).mpr hfle)

/-- **The loop over a span** visits its blocks in order, and finds no gap. -/
theorem visitSpan (h : SameHistory s view t) (ht : t.Inv) (sinkBlocks : ℕ) {first stop k len : ℕ}
    (hstop : stop ≤ t.totalTokens) (hlt : first < stop) (hend : stop ≤ (k + len) * t.config.blockTokens)
    (hk : first / t.config.blockTokens ≤ k) {l : List (ℕ × KvMemBlockHandle)}
    (hl : ∀ e ∈ l, e ∈ t.history.entries)
    (hindices : l.map (fun e => t.blockIndex e.2.slot) = List.range' k len) :
    ∃ ids, Store.visitSpan t (t.pool sinkBlocks).live first stop l
        (max first (min stop (k * t.config.blockTokens))) = some ids ∧
      ids.map t.blockIndex = List.range' k ((stop - 1) / t.config.blockTokens + 1 - k) := by
  have hpos := ht.block_pos
  induction len generalizing k l with
  | zero =>
      -- the span ends before the next block
      obtain rfl := List.map_eq_nil_iff.mp hindices
      rw [Nat.add_zero] at hend
      have hlast : (stop - 1) / t.config.blockTokens < k := (Nat.div_lt_iff_lt_mul hpos).mpr (by omega)
      refine ⟨[], if_neg (by omega), ?_⟩
      rw [Nat.sub_eq_zero_of_le hlast]
      rfl
  | succ len ih =>
      obtain ⟨e, rest, rfl⟩ := List.exists_cons_of_ne_nil (l := l) (by
        rintro rfl
        exact absurd hindices (by simp))
      rw [List.map_cons, List.range'_succ] at hindices
      obtain ⟨hindex, hrest⟩ := List.cons.inj hindices
      have he := hl e List.mem_cons_self
      have hkey : e.1 = k * t.config.blockTokens := by rw [(h.entry ht he).2, hindex]
      have hbegin := (ht.directory.entry e he).key.trans hkey
      have hn := h.nTokens ht he
      have hnext : (k + 1) * t.config.blockTokens = k * t.config.blockTokens + t.config.blockTokens :=
        Nat.succ_mul _ _
      have hfirst : first < (k + 1) * t.config.blockTokens :=
        (Nat.div_lt_iff_lt_mul hpos).mp (Nat.lt_succ_iff.mpr hk)
      have hlive : ¬ (t.pool sinkBlocks).live e.2.slot = false := by
        rw [(State.live_of_entry ht he).mpr (h.entry ht he).1]
        exact Bool.noConfusion
      unfold Store.visitSpan
      dsimp only
      rw [hkey] at hn ⊢
      rw [hbegin, hn]
      by_cases hlast : stop ≤ k * t.config.blockTokens
      · have hdiv : (stop - 1) / t.config.blockTokens < k := (Nat.div_lt_iff_lt_mul hpos).mpr (by omega)
        refine ⟨[], by rw [if_pos hlast, if_neg (by omega)], ?_⟩
        rw [Nat.sub_eq_zero_of_le hdiv]
        rfl
      · have hdiv : k ≤ (stop - 1) / t.config.blockTokens :=
          (Nat.le_div_iff_mul_le hpos).mpr (by omega)
        have hskip : ¬ ((t.pool sinkBlocks).live e.2.slot = false ∨
            k * t.config.blockTokens + min t.config.blockTokens
              (t.totalTokens - k * t.config.blockTokens) ≤ first ∨ stop ≤ k * t.config.blockTokens) := by
          rintro (hdead | hbefore | hafter)
          · exact hlive hdead
          · omega
          · exact hlast hafter
        have hcovered : max (max first (min stop (k * t.config.blockTokens)))
            (min stop (k * t.config.blockTokens + min t.config.blockTokens
              (t.totalTokens - k * t.config.blockTokens))) =
            max first (min stop ((k + 1) * t.config.blockTokens)) := by omega
        obtain ⟨ids, hids, hmap⟩ := ih (k := k + 1) (by rw [Nat.add_right_comm]; exact hend)
          (Nat.le_succ_of_le hk) (fun f hf => hl f (List.mem_cons_of_mem _ hf)) hrest
        rw [if_neg hlast, if_neg hskip, if_neg (by omega), hcovered, hids]
        refine ⟨e.2.slot :: ids, rfl, ?_⟩
        have hcount : (stop - 1) / t.config.blockTokens + 1 - k =
            (stop - 1) / t.config.blockTokens + 1 - (k + 1) + 1 := by omega
        rw [List.map_cons, hmap, hindex, hcount, List.range'_succ]

/-- **A span means the same blocks** in both stores. -/
theorem group (h : SameHistory s view t) (hs : s.Contiguous) (ht : t.Inv) (hpos : 0 < s.blockCount)
    (span : ℕ × ℕ) :
    groupBlocks (s.pool sinkBlocks view) s.config.blockTokens s.coveredTokens span =
      (repositoryGroup t (t.pool sinkBlocks).live span).map (List.map t.blockIndex) := by
  have hblock := ht.block_pos
  have hend := hs.total_le
  unfold groupBlocks repositoryGroup
  dsimp only
  rw [hs.coveredTokens hpos, h.totalTokens]
  by_cases hout : span.2 ≤ span.1 ∨ t.totalTokens ≤ span.1
  · rw [if_pos hout, if_pos hout]
    rfl
  rw [if_neg hout, if_neg hout]
  obtain ⟨hlt, hfirst⟩ := not_or.mp hout
  have hstop : min span.2 t.totalTokens ≤ t.totalTokens := min_le_right _ _
  have hspan : span.1 < min span.2 t.totalTokens := lt_min (not_le.mp hlt) (not_le.mp hfirst)
  generalize min span.2 t.totalTokens = stop at hstop hspan ⊢
  rw [h.totalTokens, h.blockTokens] at hend
  have hbegin := Nat.div_mul_le_self span.1 t.config.blockTokens
  have hin : span.1 / t.config.blockTokens < s.blockCount :=
    (h.index_lt hs).mpr (hbegin.trans_lt (not_le.mp hfirst))
  have hlast : (stop - 1) / t.config.blockTokens < s.blockCount :=
    (Nat.div_lt_iff_lt_mul hblock).mpr (by omega)
  have hcap : min ((stop - 1) / t.config.blockTokens) ((s.pool sinkBlocks view).blockCount - 1) =
      (stop - 1) / t.config.blockTokens := min_eq_left (show _ ≤ s.blockCount - 1 by omega)
  have hall : (List.range' (span.1 / t.config.blockTokens) ((stop - 1) / t.config.blockTokens + 1 -
      span.1 / t.config.blockTokens)).all (s.pool sinkBlocks view).live = true := by
    rw [List.all_eq_true]
    intro i hi
    have hi := (List.mem_range'_1.mp hi).2
    exact h.live i (by omega)
  -- the loop of the repository, from the block of the first position on
  obtain ⟨ids, hids, hmap⟩ := h.visitSpan ht sinkBlocks hstop hspan
    (by rw [Nat.add_sub_cancel' hin.le]; exact hstop.trans hend) le_rfl
    (fun e he => OrdMap.mem_of_mem_floor he) (h.floor hs ht (not_le.mp hfirst))
  rw [max_eq_left ((min_le_right _ _).trans hbegin)] at hids
  unfold historySpanBlocks
  rw [if_neg (not_le.mpr hspan), hids, Option.map_some, hmap, h.blockTokens, max_eq_right hblock,
    if_neg (show ¬ (s.pool sinkBlocks view).blockCount ≤ _ from not_le.mpr hin), hcap, if_pos hall]

end SameHistory

/-! ## The pickers -/

section Pickers

variable {s : Legacy} {view : Option (ℕ → Bool)} {t : State} {sinkBlocks : ℕ} {c : PickConfig}

/-- Both pickers of semantic groups throw, or select the same blocks of the
history. -/
def GroupsAgree (s : Legacy) (view : Option (ℕ → Bool)) (t : State) (sinkBlocks : ℕ) (c : PickConfig) :
    Prop :=
  ∀ groups scores mandatory, groups.length = scores.length ∨ 0 < t.totalTokens →
    (∀ i ∈ mandatory, i ∈ (t.pool sinkBlocks).order) →
    Agree (fun sel sel' => sel' = sel.map t.blockIndex)
      (t.pickRepositorySemanticGroups sinkBlocks c groups scores mandatory)
      (s.pickSemanticGroups sinkBlocks view c groups scores (mandatory.map t.blockIndex))

/-- The same of `pick_prefill_pressure_blocks`. -/
def PressureAgree (s : Legacy) (view : Option (ℕ → Bool)) (t : State) (sinkBlocks : ℕ)
    (c : PickConfig) : Prop :=
  ∀ mandatory actions, (∀ i ∈ mandatory, i ∈ (t.pool sinkBlocks).order) →
    (∀ a ∈ actions, a.1 ∈ (t.pool sinkBlocks).order) →
    Agree (fun sel sel' => sel' = sel.map t.blockIndex)
      (pickPrefillPressureFrom (t.pool sinkBlocks) c mandatory actions)
      (pickPrefillPressureFrom (s.pool sinkBlocks view) c (mandatory.map t.blockIndex)
        (actions.map (Prod.map t.blockIndex id)))

/-- The same of `pick_topk_blocks` with a list of mandatory blocks, whatever the
scores: the blocks of the history have the same in both stores. -/
def TopkAgree (s : Legacy) (view : Option (ℕ → Bool)) (t : State) (sinkBlocks : ℕ) (c : PickConfig)
    (mandatory : List ℕ) : Prop :=
  ∀ nth nth' scores scores' prefill,
    (∀ i ∈ (t.pool sinkBlocks).order, scores' (t.blockIndex i) = scores i) →
    Agree (fun sel sel' => sel' = sel.map t.blockIndex)
      (pickTopkBlocks (t.pool sinkBlocks) c scores prefill nth mandatory)
      (pickTopkBlocks (s.pool sinkBlocks view) c scores' prefill nth' (mandatory.map t.blockIndex))

theorem SameHistory.groupsAgree (h : SameHistory s view t) (hs : s.Contiguous) (ht : t.Inv) :
    GroupsAgree s view t sinkBlocks c := by
  intro groups scores mandatory hscored hids
  have hrel := h.relabels hs ht sinkBlocks
  obtain ⟨hvalid, hvalid'⟩ := hrel.validate hids
  have hlength : s.blockCount = (t.pool sinkBlocks).order.length := by
    rw [← hrel.length]
    exact List.length_range.symm
  unfold State.pickRepositorySemanticGroups Legacy.pickSemanticGroups Pool.pickSemanticGroups
  dsimp only
  by_cases hzero : s.blockCount = 0
  · -- no history
    have hnone : ¬ 0 < t.totalTokens := by
      have hiff := (h.index_lt hs (i := 0)).not
      rw [Nat.zero_mul] at hiff
      exact hiff.mp (by omega)
    have hnil := List.eq_nil_of_length_eq_zero (hlength.symm.trans hzero)
    rw [if_neg (not_not.mpr (hscored.resolve_right hnone)), if_neg hvalid,
      if_pos (.inr (by rw [← hlength, hzero]; exact Nat.zero_le _)),
      if_pos (show (s.pool sinkBlocks view).blockCount = 0 from hzero), hnil]
    exact .ok rfl
  rw [if_neg (show ¬ (s.pool sinkBlocks view).blockCount = 0 from hzero), if_neg hvalid, if_neg hvalid']
  by_cases hmismatch : groups.length ≠ scores.length
  · rw [if_pos hmismatch, if_pos hmismatch]
    exact .error
  rw [if_neg hmismatch, if_neg hmismatch]
  by_cases hfits : c.budget = 0 ∨ s.blockCount ≤ c.budget
  · rw [if_pos (show _ ∨ (s.pool sinkBlocks view).blockCount ≤ _ from hfits),
      if_pos (hlength ▸ hfits), hrel.filter_live, List.filter_eq_self.mpr hrel.live]
    exact .ok rfl
  rw [if_neg (show ¬ (_ ∨ (s.pool sinkBlocks view).blockCount ≤ _) from hfits),
    if_neg (hlength ▸ hfits)]
  have hkeepable : ∀ j ∈ (s.pool sinkBlocks view).order,
      (s.pool sinkBlocks view).Keepable j = true := by
    intro j hj
    rw [hrel.right.keepable]
    exact hrel.live_of_mem j hj
  have halways : Agree (MarksRelabel t.blockIndex (t.pool sinkBlocks).order)
      ((t.pool sinkBlocks).alwaysKeep Marks.add c.budget c.recentBlocks mandatory .groupExceeds)
      ((s.pool sinkBlocks view).alwaysKeep (s.pool sinkBlocks view).keep c.budget c.recentBlocks
        (mandatory.map t.blockIndex) .semanticExceeds) := by
    rw [← alwaysKeep_add hkeepable (hrel.keepable_of_mem hids)]
    exact alwaysKeep_relabel hrel hids
  generalize (t.pool sinkBlocks).alwaysKeep Marks.add c.budget c.recentBlocks mandatory .groupExceeds = r
    at halways ⊢
  generalize (s.pool sinkBlocks view).alwaysKeep (s.pool sinkBlocks view).keep c.budget c.recentBlocks
    (mandatory.map t.blockIndex) .semanticExceeds = r' at halways ⊢
  cases halways with
  | error => exact .error
  | @ok m n hmarks =>
      dsimp only
      rw [← addGroups_add fun g ids hg i hi => ?_]
      · refine .ok (selected_relabel hrel (addGroups_relabel hrel.inj ?_ ?_ _ hmarks))
        · exact fun g => h.group hs ht (Nat.pos_of_ne_zero hzero) (groups.getD g (0, 0))
        · exact fun g ids hg i hi => ((repositoryGroup_spec ht hg).2 i hi).2
      · exact hkeepable i ((groupBlocks_spec s sinkBlocks view hg).2 i hi).2

theorem SameHistory.pressureAgree (h : SameHistory s view t) (hs : s.Contiguous) (ht : t.Inv) :
    PressureAgree s view t sinkBlocks c := by
  intro mandatory actions hids hactions
  exact pickPrefillPressureFrom_relabel (h.relabels hs ht sinkBlocks) hids hactions

theorem SameHistory.topkAgree (h : SameHistory s view t) (hs : s.Contiguous) (ht : t.Inv)
    {mandatory : List ℕ} (hids : ∀ i ∈ mandatory, i ∈ (t.pool sinkBlocks).order)
    (hdecided : (t.pool sinkBlocks).Decided c mandatory) : TopkAgree s view t sinkBlocks c mandatory := by
  intro nth nth' scores scores' prefill hscores
  exact pickTopkBlocks_relabel (h.relabels hs ht sinkBlocks) (s.pool_noStray sinkBlocks view) hdecided
    hids hscores

end Pickers

/-! ## Both stores -/

section Agreement

variable {s : Legacy} {view : Option (ℕ → Bool)} {t : State} {sinkBlocks : ℕ} {c : PickConfig}

/-- Where the directory does not decide, a block outside of it can take the place
of one that the legacy store selects. -/
theorem SameHistory.decided (h : SameHistory s view t) (hs : s.Contiguous) (ht : t.Inv)
    {mandatory : List ℕ} (hids : ∀ i ∈ mandatory, i ∈ (t.pool sinkBlocks).order)
    (hagree : TopkAgree s view t sinkBlocks c mandatory) : (t.pool sinkBlocks).Decided c mandatory := by
  by_contra hnot
  unfold Pool.Decided Pool.NoStray at hnot
  push Not at hnot
  obtain ⟨⟨z, hlive, hout⟩, hbudget, hlt, hheld⟩ := hnot
  have hrel := h.relabels hs ht sinkBlocks
  have hpos := Nat.pos_of_ne_zero hbudget
  have hreturns := not_refuses_of_held (hrel.validate hids).1 hheld
  obtain ⟨sel, hsel, hlength⟩ := exists_underfilled hrel.left .sort hreturns hlive hout
    (not_or.mpr ⟨hbudget, not_le.mpr hlt⟩) hheld
  have hscores : ∀ i ∈ (t.pool sinkBlocks).order, BlockScores.zero = strayScores z i := by
    intro i hi
    refine (if_neg ?_).symm
    rintro rfl
    exact hout hi
  have hboth := hagree .sort .sort (strayScores z) (fun _ => .zero) [] hscores
  rw [hsel] at hboth
  generalize hsel' : pickTopkBlocks (s.pool sinkBlocks view) c (fun _ => .zero) [] .sort
    (mandatory.map t.blockIndex) = r at hboth
  cases hboth with
  | @ok _ sel' heq =>
      have hsize := (topKCorrect_of_sound hrel.right (.inl (s.pool_noStray sinkBlocks view)) hsel').size
        hpos (by rw [hrel.length]; exact hlt)
      have hall : (s.pool sinkBlocks view).liveCount = s.blockCount := by
        refine (List.countP_eq_length.mpr ?_).trans List.length_range
        exact fun i hi => h.live i (List.mem_range.mp hi)
      have horder : s.blockCount = (t.pool sinkBlocks).order.length := by
        rw [← hrel.length]
        exact List.length_range.symm
      rw [hall, heq, List.length_map] at hsize
      omega

/-- **When both stores select the same blocks** of one history: semantic groups
and the blocks under pressure always, the best blocks exactly where the directory
of the bounded store decides. -/
theorem modeAgreement (c₀ : SelectionConfig) (s : Legacy) (t : State) (hs : legacyMachine.Reachable s)
    (ht : (windowMachine c₀).Reachable t) (view : Option (ℕ → Bool)) (h : SameHistory s view t)
    (sinkBlocks : ℕ) (c : PickConfig) :
    GroupsAgree s view t sinkBlocks c ∧ PressureAgree s view t sinkBlocks c ∧
      ∀ mandatory, (∀ i ∈ mandatory, i ∈ (t.pool sinkBlocks).order) →
        (TopkAgree s view t sinkBlocks c mandatory ↔ (t.pool sinkBlocks).Decided c mandatory) := by
  have hs := Legacy.contiguous_invariant.reachable hs
  have ht := ((window_invariant c₀).reachable ht).1
  exact ⟨h.groupsAgree hs ht, h.pressureAgree hs ht, fun _ hids => ⟨h.decided hs ht hids, h.topkAgree hs ht hids⟩⟩

/-- The blocks of the bounded store are in other slots, and out of order. -/
theorem modeAgreement_reordered :
    ∃ s t, legacyMachine.Reachable s ∧ (windowMachine smallLegacy.selection).Reachable t ∧
      (t.pool 0).order = [0, 3, 2] ∧ (s.pool 0 none).order = [0, 1, 2] ∧ SameHistory s none t ∧
        ∀ c, GroupsAgree s none t 0 c ∧ PressureAgree s none t 0 c ∧
          ∀ mandatory, (∀ i ∈ mandatory, i ∈ [0, 3, 2]) → TopkAgree s none t 0 c mandatory := by
  have hrun : (legacyMachine.run (.initial smallLegacy) [.registerAppend 10]).any (fun s =>
      ((windowMachine smallLegacy.selection).run (State.initial ⟨4, true⟩ ⟨4, 4⟩)
        ([.prepareAppend 10 0, .commitAppend 10, .prepareRewind 4, .commitRewind, .other (.reset ⟨2, 3⟩),
          .other (.releasing ⟨2, 3⟩), .other (.free ⟨2, 3⟩), .prepareAppend 6 4,
          .commitAppend 6].map WindowAction.call)).any fun t =>
        decide ((t.pool 0).order = [0, 3, 2] ∧ (s.pool 0 none).order = [0, 1, 2] ∧
          SameHistory s none t ∧ ∀ id ∈ List.range t.blockCount, (t.pool 0).live id = true →
            id ∈ (t.pool 0).order)) = true := by
    decide +kernel
  obtain ⟨s, hs, hrun⟩ := legacyMachine.exists_reachable ⟨smallLegacy, by decide, rfl⟩ hrun
  obtain ⟨t, ht, hstate⟩ := (windowMachine smallLegacy.selection).exists_reachable
    ⟨_, _, validConfig_small, rfl⟩ hrun
  obtain ⟨horder, horder', h, hlive⟩ := of_decide_eq_true hstate
  refine ⟨s, t, hs, ht, horder, horder', h, ?_⟩
  intro c
  obtain ⟨hgroups, hpressure, htopk⟩ := modeAgreement smallLegacy.selection s t hs ht none h 0 c
  refine ⟨hgroups, hpressure, fun mandatory hids => (htopk mandatory (horder.symm ▸ hids)).mpr (.inl ?_)⟩
  intro id hid
  have ht := ((window_invariant smallLegacy.selection).reachable ht).1
  exact hlive id (List.mem_range.mpr ((State.pool_ok ht 0).live_lt id hid)) hid

/-- A block that a rewind has dropped is rescued afterwards: it takes the place of
the best block of the history.  Where the first block is asked for, and there is no
room for another one, both stores select it. -/
theorem strayBlock_disagrees :
    ∃ s t, legacyMachine.Reachable s ∧ (windowMachine smallLegacy.selection).Reachable t ∧
      SameHistory s none t ∧ ∃ (c : PickConfig) (scores : ℕ → BlockScores),
        (t.pool 0).order = [0, 1] ∧ (∀ i ∈ (t.pool 0).order, scores (t.blockIndex i) = scores i) ∧
        pickTopkBlocks (t.pool 0) c scores [] .sort [] = .ok [] ∧
        pickTopkBlocks (s.pool 0 none) c scores [] .sort [] = .ok [1] ∧ ¬ TopkAgree s none t 0 c [] ∧
        TopkAgree s none t 0 c [0] := by
  have hrun : (legacyMachine.run (.initial smallLegacy) [.registerAppend 10, .truncateTo 8]).any
      (fun s => ((windowMachine smallLegacy.selection).run (State.initial ⟨4, true⟩ ⟨4, 4⟩)
        (rewindUnderRetirement.map WindowAction.call)).any fun t =>
        decide (SameHistory s none t ∧ (t.pool 0).order = [0, 1] ∧ t.blockIndex 0 = 0 ∧
          t.blockIndex 1 = 1 ∧ 1 ≤ (t.pool 0).heldCount 0 [0] ∧
          (pickTopkBlocks (t.pool 0) ⟨1, 1, 0, false, 0, 0, 0, false⟩ (fun id => ⟨0, 0, id, 0⟩) []
            .sort []).toOption = some [] ∧
          (pickTopkBlocks (s.pool 0 none) ⟨1, 1, 0, false, 0, 0, 0, false⟩ (fun id => ⟨0, 0, id, 0⟩) []
            .sort []).toOption = some [1])) = true := by
    decide +kernel
  obtain ⟨s, hs, hrun⟩ := legacyMachine.exists_reachable ⟨smallLegacy, by decide, rfl⟩ hrun
  obtain ⟨t, ht, hstate⟩ := (windowMachine smallLegacy.selection).exists_reachable
    ⟨_, _, validConfig_small, rfl⟩ hrun
  obtain ⟨h, horder, hzero, hone, hheld, hpick, hpick'⟩ := of_decide_eq_true hstate
  have hpick := toOption_eq_some hpick
  have hpick' := toOption_eq_some hpick'
  have hscores : ∀ i ∈ (t.pool 0).order,
      BlockScores.mk 0 0 (t.blockIndex i : ℚ) 0 = BlockScores.mk 0 0 (i : ℚ) 0 := by
    intro i hi
    rw [horder] at hi
    rcases List.mem_pair.mp hi with rfl | rfl
    · rw [hzero]
    · rw [hone]
  refine ⟨s, t, hs, ht, h, ⟨1, 1, 0, false, 0, 0, 0, false⟩, fun id => ⟨0, 0, id, 0⟩, horder, hscores,
    hpick, hpick', ?_, ?_⟩
  · intro hagree
    have hboth := hagree .sort .sort (fun id => ⟨0, 0, id, 0⟩) (fun id => ⟨0, 0, id, 0⟩) [] hscores
    rw [hpick, List.map_nil, hpick'] at hboth
    cases hboth with
    | ok heq => exact List.cons_ne_nil 1 [] heq
  · have hids : ∀ i ∈ [0], i ∈ (t.pool 0).order := by
      rw [horder]
      decide
    exact h.topkAgree (Legacy.contiguous_invariant.reachable hs)
      ((window_invariant smallLegacy.selection).reachable ht).1 hids (.inr (.inr (.inr hheld)))

end Agreement

end Qw3.Store
