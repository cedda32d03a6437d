import Qw3.Plan.MandatoryFit
import Qw3.Store.Groups

/-!
# The mandatory fit and the pickers

The pickers keep the whole sink beside the mandatory list; the fit gives the
live edges precedence over it.

* `KvmemMandatoryFitInput.liveEdge` — the live edges that the fit keeps.
* `KvmemMandatoryFitInput.Composable` — the raw mandatory set fits the budget,
  or the live edges and the sink do.
* `fitComposition` — the hard blocks and the sink fit the budget exactly then,
  and then no picker refuses the hard blocks.
* `longLiveInterval_exceeds` — an input for which all of them refuse.
-/

namespace Qw3.Plan

open Qw3.Store

/-! ## Which blocks a loop adds -/

namespace Fit

variable {prompt limit : ℕ} {s : Fit} {ids : List ℕ}

/-- The blocks that a loop can still add. -/
def fresh (prompt : ℕ) (s : Fit) (ids : List ℕ) : List ℕ :=
  ids.filter fun id => decide (id < prompt) && !s.hard id

/-- A new block below the limit is added. -/
theorem addBlock_new {a : ℕ} (hlt : a < prompt) (hhard : s.hard a = false)
    (hlimit : s.hardCount < limit) :
    ∃ t, s.addBlock prompt limit a = (t, true) ∧
      (∀ j, t.hard j = true ↔ j = a ∨ s.hard j = true) ∧ t.hardCount = s.hardCount + 1 := by
  refine ⟨⟨Function.update s.hard a true, s.hardCount + 1⟩, if_neg ?_, fun j => ?_, rfl⟩
  · rw [hhard]
    push Not
    exact ⟨hlt, Bool.false_ne_true, hlimit⟩
  · show Function.update s.hard a true j = true ↔ _
    by_cases hj : j = a
    · rw [hj, Function.update_self]
      exact ⟨fun _ => .inl rfl, fun _ => rfl⟩
    · rw [Function.update_of_ne hj, or_iff_right hj]

theorem addAll_of_full (hfull : limit ≤ s.hardCount) : s.addAll prompt limit ids = s := by
  have hall : ∀ id ∈ ids, (fun _ : ℕ => true) id = true := fun _ _ => rfl
  exact (addAll_extends hall s).full hfull

theorem addWhile_eq (s : Fit) (ids : List ℕ) :
    s.addWhile prompt limit ids = s.addAll prompt limit ids := by
  induction ids generalizing s with
  | nil => rfl
  | cons id ids ih =>
      unfold addWhile
      split_ifs with hlimit
      · rw [ih]
        rfl
      · exact (addAll_of_full (not_lt.mp hlimit)).symm

/-- **A loop** adds the first of the blocks that it can add. -/
theorem addAll_spec (prompt limit : ℕ) (hids : ids.Nodup) (s : Fit) :
    (∀ id, (s.addAll prompt limit ids).hard id = true ↔
      s.hard id = true ∨ id ∈ (fresh prompt s ids).take (limit - s.hardCount)) ∧
    (s.addAll prompt limit ids).hardCount =
      s.hardCount + min (limit - s.hardCount) (fresh prompt s ids).length := by
  induction ids generalizing s with
  | nil =>
      refine ⟨fun id => ?_, ?_⟩
      · rw [fresh, List.filter_nil, List.take_nil]
        exact (or_iff_left List.not_mem_nil).symm
      · rw [fresh, List.filter_nil, List.length_nil, Nat.min_zero]
        rfl
  | cons a ids ih =>
      obtain ⟨hnot, hids⟩ := List.nodup_cons.mp hids
      by_cases hlimit : limit ≤ s.hardCount
      · rw [addAll_of_full hlimit, Nat.sub_eq_zero_of_le hlimit, List.take_zero, Nat.zero_min]
        exact ⟨fun id => (or_iff_left List.not_mem_nil).symm, rfl⟩
      · show (∀ id, ((s.addBlock prompt limit a).1.addAll prompt limit ids).hard id = true ↔ _) ∧
          ((s.addBlock prompt limit a).1.addAll prompt limit ids).hardCount = _
        by_cases ha : prompt ≤ a ∨ s.hard a = true
        · have hskip : s.addBlock prompt limit a = (s, false) :=
            if_pos (ha.imp_right fun h => .inl h)
          have hfresh : fresh prompt s (a :: ids) = fresh prompt s ids := by
            refine List.filter_cons_of_neg ?_
            rw [Bool.and_eq_true, decide_eq_true_iff, Bool.not_eq_true']
            rintro ⟨hlt, hhard⟩
            rcases ha with hle | ha
            · exact absurd hlt (not_lt.mpr hle)
            · rw [hhard] at ha
              cases ha
          rw [hskip, hfresh]
          exact ih hids s
        · obtain ⟨hlt, hhard⟩ := not_or.mp ha
          have hhard := Bool.eq_false_iff.mpr hhard
          obtain ⟨t, hadd, hmark, hsucc⟩ := addBlock_new (not_le.mp hlt) hhard (not_le.mp hlimit)
          have hfresh : fresh prompt s (a :: ids) = a :: fresh prompt s ids := by
            refine List.filter_cons_of_pos ?_
            rw [hhard, decide_eq_true (not_le.mp hlt)]
            rfl
          have hrest : fresh prompt t ids = fresh prompt s ids := List.filter_congr fun j hj => by
            have hiff : t.hard j = s.hard j := by
              rw [Bool.eq_iff_iff, hmark]
              exact or_iff_right (ne_of_mem_of_not_mem hj hnot)
            rw [hiff]
          obtain ⟨hmarks, hcount⟩ := ih hids t
          have hleft : limit - s.hardCount = (limit - (s.hardCount + 1)) + 1 := by omega
          rw [hadd, hfresh, hleft, List.take_succ_cons]
          rw [hrest, hsucc] at hmarks hcount
          refine ⟨fun id => ?_, ?_⟩
          · rw [hmarks, hmark, List.mem_cons, or_assoc, or_left_comm]
          · rw [hcount, List.length_cons]
            omega

end Fit

/-- The numbers of an interval below a bound. -/
theorem filter_range'_lt (a n e : ℕ) :
    ((List.range' a n).filter fun id => decide (id < e)) = List.range' a (min n (e - a)) := by
  induction n generalizing a with
  | zero => rw [Nat.zero_min]; rfl
  | succ n ih =>
      rw [List.range'_succ]
      by_cases ha : a < e
      · have hmin : min (n + 1) (e - a) = min n (e - (a + 1)) + 1 := by omega
        rw [List.filter_cons_of_pos (by exact decide_eq_true ha), ih, hmin, List.range'_succ]
      · have hmin : min (n + 1) (e - a) = 0 := by omega
        have hrest : min n (e - (a + 1)) = 0 := by omega
        rw [List.filter_cons_of_neg (by rw [decide_eq_true_iff]; exact ha), ih, hmin, hrest]
        rfl

theorem mem_take_range' {a n k id : ℕ} :
    id ∈ (List.range' a n).take k ↔ a ≤ id ∧ id < a + min n k := by
  rcases le_total n k with hle | hle
  · rw [List.take_range'_of_length_le hle, List.mem_range'_1, min_eq_left hle]
  · rw [List.take_range'_of_length_ge hle, List.mem_range'_1, min_eq_right hle]

namespace KvmemMandatoryFitInput

open Fit

variable (i : KvmemMandatoryFitInput)

/-- A live edge that the fit keeps: one of the newest blocks, or of the head as
far as the limit goes. -/
def liveEdge (id : ℕ) : Bool :=
  decide (i.HasLive ∧
    (i.tailBegin ≤ id ∧ id < min i.liveEnd i.promptBlocks ∧ id < i.tailBegin + i.hardLimit ∨
      min i.liveBegin i.promptBlocks ≤ id ∧ id < i.tailBegin ∧
        id < min i.liveBegin i.promptBlocks + min 16 (i.hardLimit - i.desiredTail)))

variable {i}

theorem liveEdge_iff {id : ℕ} : i.liveEdge id = true ↔ i.HasLive ∧
    (i.tailBegin ≤ id ∧ id < min i.liveEnd i.promptBlocks ∧ id < i.tailBegin + i.hardLimit ∨
      min i.liveBegin i.promptBlocks ≤ id ∧ id < i.tailBegin ∧
        id < min i.liveBegin i.promptBlocks + min 16 (i.hardLimit - i.desiredTail)) :=
  decide_eq_true_iff

/-- The first phase keeps the live edges. -/
theorem addLive_hard {id : ℕ} :
    (i.addLive ⟨fun _ => false, 0⟩).hard id = true ↔ i.liveEdge id = true := by
  rw [liveEdge_iff]
  unfold addLive
  split_ifs with hlive
  · rw [and_iff_right hlive]
    have hlt : min i.liveBegin i.promptBlocks < min i.liveEnd i.promptBlocks := hlive
    have hraw : i.rawLive = min i.liveEnd i.promptBlocks - min i.liveBegin i.promptBlocks :=
      if_pos hlive
    have htail : i.tailBegin + i.desiredTail = min i.liveEnd i.promptBlocks := by
      unfold tailBegin desiredTail
      omega
    have hbegin : min i.liveBegin i.promptBlocks ≤ i.tailBegin := by
      unfold tailBegin desiredTail
      omega
    rw [addWhile_eq, ← List.range'_eq_map_range]
    -- the tail
    obtain ⟨hmarks, hcount⟩ := addAll_spec i.promptBlocks i.hardLimit
      (List.nodup_range' (s := i.tailBegin) (n := i.desiredTail)) ⟨fun _ => false, 0⟩
    have hfresh : fresh i.promptBlocks ⟨fun _ => false, 0⟩ (List.range' i.tailBegin i.desiredTail) =
        List.range' i.tailBegin i.desiredTail := List.filter_eq_self.mpr fun id hid => by
      have hid := List.mem_range'_1.mp hid
      rw [decide_eq_true (by omega)]
      rfl
    rw [hfresh, List.length_range'] at hcount
    generalize (⟨fun _ => false, 0⟩ : Fit).addAll i.promptBlocks i.hardLimit
      (List.range' i.tailBegin i.desiredTail) = t at hmarks hcount
    have hmarks : ∀ id, t.hard id = true ↔ i.tailBegin ≤ id ∧
        id < i.tailBegin + min i.desiredTail i.hardLimit := fun id => by
      rw [hmarks, hfresh, mem_take_range']
      exact or_iff_right Bool.false_ne_true
    have hcount : t.hardCount = min i.hardLimit i.desiredTail := by
      rw [hcount]
      exact Nat.zero_add _
    -- the head
    rw [(addAll_spec _ _ List.nodup_range' t).1, hmarks, hcount]
    by_cases hroom : i.hardLimit ≤ i.desiredTail
    · rw [Nat.sub_eq_zero_of_le (by omega : i.hardLimit ≤ min i.hardLimit i.desiredTail),
        List.take_zero]
      simp only [List.not_mem_nil, or_false]
      omega
    · have hhead : fresh i.promptBlocks t
          (List.range' (min i.liveBegin i.promptBlocks) (min 16 i.rawLive)) =
          List.range' (min i.liveBegin i.promptBlocks)
            (min (min 16 i.rawLive) (i.tailBegin - min i.liveBegin i.promptBlocks)) := by
        rw [← filter_range'_lt]
        refine List.filter_congr fun id hid => ?_
        have hid := List.mem_range'_1.mp hid
        have hmark := hmarks id
        rw [Bool.eq_iff_iff, Bool.and_eq_true, decide_eq_true_iff, decide_eq_true_iff,
          Bool.not_eq_true', ← Bool.not_eq_true, hmark]
        omega
      rw [hhead, mem_take_range']
      omega
  · exact iff_of_false not_false fun h => hlive h.1

/-! ## The hard blocks beside the sink -/

variable (i) in
/-- How many blocks of the prompt are marked or in the sink. -/
def sinkUnion (marks : ℕ → Bool) : ℕ :=
  markCount i.promptBlocks fun id => marks id || decide (id < i.sinkBlocks)

variable (i) in
/-- The raw mandatory set fits the budget, or the live edges and the sink do. -/
def Composable : Prop :=
  i.mandatoryBlocks.length ≤ i.budgetBlocks ∨ i.sinkUnion i.liveEdge ≤ i.budgetBlocks

theorem sinkUnion_congr {marks marks' : ℕ → Bool} (h : ∀ id < i.promptBlocks,
    (marks id = true ∨ id < i.sinkBlocks ↔ marks' id = true ∨ id < i.sinkBlocks)) :
    i.sinkUnion marks = i.sinkUnion marks' := by
  refine List.countP_congr fun id hid => ?_
  rw [Bool.or_eq_true, Bool.or_eq_true, decide_eq_true_iff]
  exact h id (List.mem_range.mp hid)

/-- **The allocation and the sink fit the budget** if and only if the live edges
and the sink do. -/
theorem sinkUnion_allocated (hsink : i.sinkBlocks ≤ i.budgetBlocks) {s : Fit}
    (hext : Extends i.raw i.promptBlocks i.hardLimit (i.addSink (i.addLive ⟨fun _ => false, 0⟩)) s) :
    i.sinkUnion s.hard ≤ i.budgetBlocks ↔ i.sinkUnion i.liveEdge ≤ i.budgetBlocks := by
  have hwithin := ((i.addLive_extends ⟨fun _ => false, 0⟩).trans (i.addSink_extends _)).trans hext
    |>.within i.within_start
  have hedges : ∀ id, (i.addLive ⟨fun _ => false, 0⟩).hard id = true ↔ i.liveEdge id = true :=
    fun id => addLive_hard
  unfold addSink at hext
  rw [addWhile_eq] at hext
  generalize i.addLive ⟨fun _ => false, 0⟩ = t at hext hedges
  obtain ⟨hmarks, hcount⟩ := addAll_spec i.promptBlocks i.hardLimit
    (List.nodup_range (n := i.sink)) t
  have hlimit : i.hardLimit ≤ i.budgetBlocks := Nat.sub_le _ _
  by_cases hfull : i.hardLimit ≤ (t.addAll i.promptBlocks i.hardLimit (List.range i.sink)).hardCount
  · -- the limit is reached within the sink
    obtain rfl := hext.full hfull
    have hsame : i.sinkUnion (t.addAll i.promptBlocks i.hardLimit (List.range i.sink)).hard =
        i.sinkUnion i.liveEdge := sinkUnion_congr fun id _ => by
      rw [hmarks, hedges, or_assoc]
      refine or_congr_right ⟨fun h => h.elim (fun h => ?_) fun h => h, .inr⟩
      have hid := List.mem_range.mp (List.mem_filter.mp (List.mem_of_mem_take h)).1
      unfold sink at hid
      omega
    rw [hsame]
  · -- the whole sink is hard
    have hall : ∀ id < i.promptBlocks, id < i.sinkBlocks → s.hard id = true := fun id hid hlt => by
      refine hext.mono id ((hmarks id).mpr ?_)
      cases hhard : t.hard id with
      | true => exact .inl rfl
      | false =>
          rw [List.take_of_length_le (by omega)]
          refine .inr (List.mem_filter.mpr ⟨List.mem_range.mpr ?_, ?_⟩)
          · unfold sink
            omega
          · rw [decide_eq_true hid, hhard]
            rfl
    have hhard : i.sinkUnion s.hard = s.hardCount := by
      rw [hwithin.count]
      refine List.countP_congr fun id hid => ?_
      rw [Bool.or_eq_true, decide_eq_true_iff]
      exact or_iff_left_of_imp (hall id (List.mem_range.mp hid))
    have hedge : i.sinkUnion i.liveEdge ≤ i.sinkUnion s.hard := by
      refine List.countP_mono_left fun id hid h => ?_
      rw [Bool.or_eq_true, decide_eq_true_iff] at h ⊢
      exact h.imp_left fun h => hext.mono id ((hmarks id).mpr (.inl ((hedges id).mpr h)))
    have hle := hwithin.le_limit
    exact iff_of_true (by omega) (by omega)

end KvmemMandatoryFitInput

/-! ## The pickers -/

section Pickers

variable {i : KvmemMandatoryFitInput} {c : PickConfig} {hard : List ℕ}

/-- How many blocks the list and the sink are. -/
def hardUnion (i : KvmemMandatoryFitInput) (hard : List ℕ) : ℕ :=
  i.sinkUnion fun id => decide (id ∈ hard)

/-- What the pickers keep first is within the budget. -/
theorem keepMandatory_count_le {p : Pool} (hp : p.Ok)
    (hsinks : ∀ id ∈ p.order, p.sink id = true → id < i.sinkBlocks)
    (hhard : ∀ id ∈ hard, id < i.promptBlocks) (hsink : i.sinkBlocks ≤ i.budgetBlocks)
    (hfits : hardUnion i hard ≤ i.budgetBlocks) :
    (p.keepMandatory p.keep i.budgetBlocks hard).count ≤ i.budgetBlocks := by
  have hkept := keepMandatory_kept hp i.budgetBlocks hard
  have hmarked : ∀ id, (p.keepMandatory p.keep i.budgetBlocks hard).marked id = true →
      id ∈ hard ∨ id < i.sinkBlocks := fun id hid => by
    rcases (keepMandatory_marked hp).mp hid with h | h
    · exact .inl h.1
    · have hid := List.mem_filter.mp (List.mem_of_mem_take h)
      exact .inr (hsinks id hid.1 (Bool.and_eq_true_iff.mp hid.2).1)
  by_cases hle : i.sinkBlocks ≤ i.promptBlocks
  · unfold hardUnion KvmemMandatoryFitInput.sinkUnion markCount at hfits
    rw [List.countP_eq_length_filter] at hfits
    refine (hkept.ok.count_le_length (List.nodup_range.filter _) fun id hid => ?_).trans hfits
    have hid := hmarked id hid
    refine List.mem_filter.mpr ⟨List.mem_range.mpr ?_, ?_⟩
    · rcases hid with h | h
      · exact hhard id h
      · omega
    · rw [Bool.or_eq_true, decide_eq_true_iff, decide_eq_true_iff]
      exact hid
  · refine (hkept.ok.count_le_length (List.nodup_range (n := i.sinkBlocks)) fun id hid => ?_).trans
      (List.length_range ▸ hsink)
    rcases hmarked id hid with h | h
    · have := hhard id h
      exact List.mem_range.mpr (by omega)
    · exact List.mem_range.mpr h

/-- No picker of the pool refuses the mandatory list for its size. -/
structure Accepts (p : Pool) (c : PickConfig) (hard : List ℕ) : Prop where
  topk : ∀ scores prefill nth,
    pickTopkBlocks p c scores prefill nth hard ≠ .error .sinkExceeds
  semantic : ∀ blockTokens covered groups scores,
    p.pickSemanticGroups c blockTokens covered groups scores hard ≠ .error .semanticExceeds
  pressure : ∀ actionScores, pickPrefillPressureFrom p c hard actionScores ≠ .error .prefillExceeds

theorem fill_error {p : Pool} {scores : ℕ → BlockScores} {prefill : List (ℕ × ℚ)}
    {nth : NthElement} {m : Marks} {e : PickError} (h : fill p c scores prefill nth m = .error e) :
    e = .invalidScores := by
  unfold fill pickFused at h
  dsimp only at h
  split_ifs at h
  exact (Except.error.inj h).symm

theorem accepts {p : Pool} (hbudget : (p.keepMandatory p.keep c.budget hard).count ≤ c.budget)
    (hprefill : (p.keepMandatory p.keep c.prefillBudget hard).count ≤ c.prefillBudget) :
    Accepts p c hard := by
  have halways : ∀ e, ∃ m, p.alwaysKeep p.keep c.budget c.recentBlocks hard e = .ok m := fun e =>
    ⟨_, if_neg (not_lt.mpr hbudget)⟩
  refine ⟨fun scores prefill nth h => ?_, fun blockTokens covered groups scores h => ?_,
    fun actionScores h => ?_⟩
  · obtain ⟨m, hm⟩ := halways .sinkExceeds
    unfold pickTopkBlocks at h
    rw [hm] at h
    split_ifs at h
    · cases h
    · dsimp only at h
      cases hfill : fill p c scores prefill nth m with
      | ok m' => simp only [hfill] at h; cases h
      | error e =>
          simp only [hfill] at h
          cases h
          cases fill_error hfill
  · obtain ⟨m, hm⟩ := halways .semanticExceeds
    unfold Pool.pickSemanticGroups at h
    rw [hm] at h
    split_ifs at h <;> cases h
  · unfold pickPrefillPressureFrom at h
    dsimp only at h
    rw [if_neg (not_lt.mpr hprefill)] at h
    split_ifs at h <;> cases h

/-- The hard blocks and the sink fit the budget, and no picker of a store with
this sink and budget refuses them.  In a bounded store the sink is the beginning
of the history; its block IDs are the prompt's where they are in this order. -/
structure Composes (i : KvmemMandatoryFitInput) (hard : List ℕ) : Prop where
  size : hardUnion i hard ≤ i.budgetBlocks
  legacy : ∀ (s : Legacy) view (c : PickConfig), c.budget = i.budgetBlocks →
    c.prefillBudget = i.budgetBlocks → Accepts (s.pool i.sinkBlocks view) c hard
  bounded : ∀ s, machine.Reachable s → ∀ c : PickConfig, c.budget = i.budgetBlocks →
    c.prefillBudget = i.budgetBlocks → (∀ id ∈ (s.pool i.sinkBlocks).order,
      (s.pool i.sinkBlocks).sink id = true → id < i.sinkBlocks) →
    Accepts (s.pool i.sinkBlocks) c hard ∧ ∀ groups scores,
      s.pickRepositorySemanticGroups i.sinkBlocks c groups scores hard ≠ .error .groupExceeds

theorem composes_of_size (hhard : ∀ id ∈ hard, id < i.promptBlocks)
    (hsink : i.sinkBlocks ≤ i.budgetBlocks) (hfits : hardUnion i hard ≤ i.budgetBlocks) :
    Composes i hard where
  size := hfits
  legacy s view c hbudget hprefill := by
    have hcount := keepMandatory_count_le (s.pool_ok i.sinkBlocks view)
      (fun _ _ h => of_decide_eq_true h) hhard hsink hfits
    exact accepts (hbudget ▸ hcount) (hprefill ▸ hcount)
  bounded s hs c hbudget hprefill hsinks := by
    have hs := machine_invariant.reachable hs
    have hp := s.pool_ok hs i.sinkBlocks
    have hcount := keepMandatory_count_le hp hsinks hhard hsink hfits
    refine ⟨accepts (hbudget ▸ hcount) (hprefill ▸ hcount), fun groups scores h => ?_⟩
    unfold State.pickRepositorySemanticGroups at h
    dsimp only at h
    split_ifs at h with hmismatch hvalid
    · cases h
    · cases h
    · have hall := List.all_eq_true.mp (Bool.not_eq_false _ ▸ hvalid :
        (s.pool i.sinkBlocks).validate hard = true)
      rw [alwaysKeep_add (fun id hid => hp.keepable.trans (State.live_of_order hs hid))
        fun id hid => hp.keepable.trans (hall id hid),
        show (s.pool i.sinkBlocks).alwaysKeep _ c.budget _ hard _ = _ from
          if_neg (not_lt.mpr (hbudget ▸ hcount))] at h
      cases h

end Pickers

/-! ## Both together -/

theorem hardUnion_markedBlocks (i : KvmemMandatoryFitInput) (marks : ℕ → Bool) :
    hardUnion i (markedBlocks i.promptBlocks marks) = i.sinkUnion marks :=
  KvmemMandatoryFitInput.sinkUnion_congr fun id hid => by
    rw [decide_eq_true_iff, mem_markedBlocks, and_iff_right hid]

theorem hardUnion_mandatory (i : KvmemMandatoryFitInput) :
    hardUnion i i.mandatoryBlocks = i.mandatoryBlocks.length := by
  rw [← KvmemMandatoryFitInput.markedBlocks_raw, hardUnion_markedBlocks, markedBlocks_length]
  refine List.countP_congr fun id hid => ?_
  rw [Bool.or_eq_true, decide_eq_true_iff]
  refine or_iff_left_of_imp fun hlt => KvmemMandatoryFitInput.raw_iff.mpr ?_
  exact ⟨List.mem_range.mp hid, .inl hlt⟩

theorem hardUnion_iff {i : KvmemMandatoryFitInput} (hsink : i.sinkBlocks ≤ i.budgetBlocks)
    {out : KvmemMandatoryFitResult} (hout : FitsTo i out) (hok : FitOk i out) :
    hardUnion i out.hardBlocks ≤ i.budgetBlocks ↔ i.Composable := by
  by_cases hfits : i.mandatoryBlocks.length ≤ i.budgetBlocks
  · rw [hok.fits hfits, hardUnion_mandatory]
    exact iff_of_true hfits (.inl hfits)
  · unfold KvmemMandatoryFitInput.Composable
    rw [or_iff_right hfits]
    have hrun := hout (i.budgetBlocks + 1) (Nat.lt_succ_self _)
    unfold kvmemFitMandatoryBlocks at hrun
    by_cases hzero : i.promptBlocks = 0 ∨ i.budgetBlocks = 0
    · -- nothing fits an empty budget, and nothing is kept
      rw [if_pos hzero] at hrun
      obtain rfl := Option.some.inj hrun
      have hsame : hardUnion i KvmemMandatoryFitResult.zero.hardBlocks = i.sinkUnion i.liveEdge :=
        KvmemMandatoryFitInput.sinkUnion_congr fun id hid => by
          have hedge : ¬ i.liveEdge id = true := fun h => by
            have hedge := (KvmemMandatoryFitInput.liveEdge_iff.mp h).2
            unfold KvmemMandatoryFitInput.hardLimit at hedge
            omega
          exact or_congr_left (iff_of_false (by simp [KvmemMandatoryFitResult.zero]) hedge)
      rw [hsame]
    · obtain ⟨s, hext, hs⟩ := i.allocate_spec
      rw [if_neg hzero] at hrun
      dsimp only at hrun
      rw [if_neg (KvmemMandatoryFitInput.markCount_raw ▸ hfits), hs _ (Nat.lt_succ_self _),
        Option.map_some] at hrun
      obtain rfl := Option.some.inj hrun
      rw [hardUnion_markedBlocks]
      exact KvmemMandatoryFitInput.sinkUnion_allocated hsink hext

/-- **Exactly when the fit composes with the pickers.** -/
theorem fitComposition (i : KvmemMandatoryFitInput)
    (hkeep : i.sinkBlocks + i.recentBlocks ≤ i.budgetBlocks) :
    ∃ out, FitsTo i out ∧ (Composes i out.hardBlocks ↔ i.Composable) := by
  have hsink : i.sinkBlocks ≤ i.budgetBlocks := by omega
  obtain ⟨out, hout, hok⟩ := mandatoryFit i
  have hhard : ∀ id ∈ out.hardBlocks, id < i.promptBlocks := fun id hid => (hok.mandatory id hid).1
  rw [← hardUnion_iff hsink hout hok]
  exact ⟨out, hout, fun h => h.size, composes_of_size hhard hsink⟩

/-- Where all of it fits, and where the spans do not, while the short live interval does. -/
theorem fitComposition_short :
    (∃ out, FitsTo ⟨60, 16, 4, 8, [⟨6, 9, 0⟩], 52, 60⟩ out ∧
      Composes ⟨60, 16, 4, 8, [⟨6, 9, 0⟩], 52, 60⟩ out.hardBlocks) ∧
    ∃ out, FitsTo ⟨60, 16, 4, 8, [⟨6, 26, 0⟩], 52, 56⟩ out ∧
      Composes ⟨60, 16, 4, 8, [⟨6, 26, 0⟩], 52, 56⟩ out.hardBlocks ∧
      16 < (⟨60, 16, 4, 8, [⟨6, 26, 0⟩], 52, 56⟩ : KvmemMandatoryFitInput).mandatoryBlocks.length := by
  obtain ⟨out, hout, hiff⟩ := fitComposition ⟨60, 16, 4, 8, [⟨6, 9, 0⟩], 52, 60⟩ (by decide)
  obtain ⟨out', hout', hiff'⟩ := fitComposition ⟨60, 16, 4, 8, [⟨6, 26, 0⟩], 52, 56⟩ (by decide)
  exact ⟨⟨out, hout, hiff.mpr (.inl (by decide))⟩, out', hout', hiff'.mpr (.inr (by decide)), by decide⟩

/-- The picker threw for the size of the mandatory list. -/
def sinkExceeds (x : Except PickError (List ℕ)) : Bool :=
  match x with
  | .error .sinkExceeds => true
  | _ => false

/-- The head and the tail of a long live interval leave no room for the sink,
which the picker then adds. -/
theorem longLiveInterval_exceeds :
    ∃ out, FitsTo ⟨60, 16, 8, 8, [], 20, 60⟩ out ∧ out.hardBlocks.length = 14 ∧
      hardUnion ⟨60, 16, 8, 8, [], 20, 60⟩ out.hardBlocks = 22 ∧
      sinkExceeds (pickTopkBlocks ((⟨⟨⟨4, true⟩, ⟨true, false, 0, 0, 0⟩⟩, 60, fun _ => {}, 240⟩ :
        Legacy).pool 8 none) ⟨16, 16, 8, false, 0, 0, 0, false⟩ (fun _ => .zero) [] .sort
        out.hardBlocks) = true := by
  obtain ⟨out, hout, -⟩ := mandatoryFit ⟨60, 16, 8, 8, [], 20, 60⟩
  have hrun := hout 17 (by decide)
  have hhard : (kvmemFitMandatoryBlocks 17 ⟨60, 16, 8, 8, [], 20, 60⟩).map
      KvmemMandatoryFitResult.hardBlocks = some (List.range' 20 6 ++ List.range' 52 8) := by
    decide +kernel
  rw [hrun, Option.map_some, Option.some.injEq] at hhard
  refine ⟨out, hout, ?_, ?_, ?_⟩
  all_goals
    rw [hhard]
    decide +kernel

end Qw3.Plan
