import Qw3.Store.Invariant
import Qw3.Store.Picking

/-!
# What the pickers keep

* `Pool.Ok` — the directory of a store: distinct live slots in chronological
  order; `Legacy.pool_ok` and `State.pool_ok` derive it.
* `Pool.Kept` — the marks are live blocks, counted once.
* `keepWhile_eq`, `takeTop_spec` — one lemma for each loop: which blocks it
  marks.
* `NthElement.sort` — a sort splits as `nth_element` has to.
-/

namespace Qw3.Store

open Qw3.Repository (KvMemBlockHandle)

/-- A strict order up to ties. -/
structure StrictWeak (r : ℕ → ℕ → Bool) : Prop where
  trans : ∀ a b c, r a b = true → r b c = true → r a c = true
  asymm : ∀ a b, r a b = true → r b a = false
  negTrans : ∀ a b c, r a b = false → r b c = false → r a c = false

theorem StrictWeak.of_key {α : Type} [LinearOrder α] (key : ℕ → α) :
    StrictWeak fun a b => decide (key a < key b) where
  trans _ _ _ hab hbc := decide_eq_true ((of_decide_eq_true hab).trans (of_decide_eq_true hbc))
  asymm _ _ hab := decide_eq_false (of_decide_eq_true hab).not_gt
  negTrans _ _ _ hab hbc := by
    have hab := not_lt.mp (of_decide_eq_false hab)
    have hbc := not_lt.mp (of_decide_eq_false hbc)
    exact decide_eq_false (hbc.trans hab).not_gt

theorem StrictWeak.swap {r : ℕ → ℕ → Bool} (h : StrictWeak r) : StrictWeak fun a b => r b a where
  trans a b c hab hbc := h.trans c b a hbc hab
  asymm a b hab := h.asymm b a hab
  negTrans a b c hab hbc := h.negTrans c b a hbc hab

/-- By a key first, and by another order where the keys agree. -/
theorem StrictWeak.lex {α : Type} [LinearOrder α] (key : ℕ → α) {r : ℕ → ℕ → Bool}
    (h : StrictWeak r) :
    StrictWeak fun a b => if key a ≠ key b then decide (key a < key b) else r a b := by
  have htrue : ∀ a b, (if key a ≠ key b then decide (key a < key b) else r a b) = true ↔
      key a < key b ∨ key a = key b ∧ r a b = true := fun a b => by
    split_ifs with hab
    · rw [decide_eq_true_iff]
      exact ⟨.inl, fun h => h.resolve_right fun h => hab h.1⟩
    · have hab := not_not.mp hab
      exact ⟨fun h => .inr ⟨hab, h⟩, fun h => (h.resolve_left hab.not_lt).2⟩
  have hfalse : ∀ a b, (if key a ≠ key b then decide (key a < key b) else r a b) = false ↔
      key b ≤ key a ∧ (key a = key b → r a b = false) := fun a b => by
    rw [← Bool.not_eq_true, htrue, not_or, not_lt, not_and, Bool.not_eq_true]
  refine ⟨fun a b c => ?_, fun a b => ?_, fun a b c => ?_⟩
  · rw [htrue, htrue, htrue]
    rintro (hab | ⟨hab, hrab⟩) (hbc | ⟨hbc, hrbc⟩)
    · exact .inl (hab.trans hbc)
    · exact .inl (hbc ▸ hab)
    · exact .inl (hab ▸ hbc)
    · exact .inr ⟨hab.trans hbc, h.trans a b c hrab hrbc⟩
  · rw [htrue, hfalse]
    rintro (hab | ⟨hab, hrab⟩)
    · exact ⟨hab.le, fun heq => absurd heq hab.ne'⟩
    · exact ⟨hab.le, fun _ => h.asymm a b hrab⟩
  · rw [hfalse, hfalse, hfalse]
    rintro ⟨hab, hrab⟩ ⟨hbc, hrbc⟩
    refine ⟨hbc.trans hab, fun hac => ?_⟩
    have heq : key a = key b := le_antisymm (hac.trans_le hbc) hab
    exact h.negTrans a b c (hrab heq) (hrbc (heq.symm.trans hac))

/-- What the pickers rely on. -/
structure Pool.Ok (p : Pool) : Prop where
  nodup : p.order.Nodup
  order_lt : ∀ id ∈ p.order, id < p.blockCount
  live_lt : ∀ id, p.live id = true → id < p.blockCount
  chronological : p.order.Pairwise fun a b => p.earlier a b = true
  earlier : StrictWeak p.earlier

/-- No live block is outside the directory. -/
def Pool.NoStray (p : Pool) : Prop := ∀ id, p.live id = true → id ∈ p.order

/-- The number of live blocks. -/
def Pool.liveCount (p : Pool) : ℕ := (List.range p.blockCount).countP p.live

/-! ## The pools of the two stores -/

theorem Legacy.pool_ok (s : Legacy) (sinkBlocks : ℕ) (view : Option (ℕ → Bool)) :
    (s.pool sinkBlocks view).Ok where
  nodup := List.nodup_range
  order_lt _ h := List.mem_range.mp h
  live_lt _ h := of_decide_eq_true (Bool.and_eq_true_iff.mp h).1
  chronological := List.pairwise_lt_range.imp fun h => decide_eq_true h
  earlier := .of_key fun id => id

theorem Legacy.pool_noStray (s : Legacy) (sinkBlocks : ℕ) (view : Option (ℕ → Bool)) :
    (s.pool sinkBlocks view).NoStray :=
  fun id h => List.mem_range.mpr ((s.pool_ok sinkBlocks view).live_lt id h)

theorem State.mem_pool_order {s : State} {sinkBlocks id : ℕ} :
    id ∈ (s.pool sinkBlocks).order ↔
      ∃ e ∈ s.history.entries, s.repo.Pinnable e.2 ∧ e.2.slot = id := by
  show id ∈ List.map _ (List.filter _ _) ↔ _
  rw [List.mem_map]
  refine exists_congr fun e => ?_
  rw [List.mem_filter, decide_eq_true_iff, and_assoc]

theorem State.pool_ok {s : State} (hs : s.Inv) (sinkBlocks : ℕ) : (s.pool sinkBlocks).Ok where
  nodup := by
    refine List.Nodup.map_on (fun e he f hf heq => ?_) ?_
    · exact hs.directory.eq_of_slot (List.mem_filter.mp he).1 (List.mem_filter.mp hf).1 heq
    · exact (s.history.sorted.imp fun h heq => absurd h (by rw [heq]; exact lt_irrefl _)).filter _
  order_lt id h := by
    obtain ⟨e, he, -, rfl⟩ := mem_pool_order.mp h
    exact (hs.directory.entry e he).slot_lt
  live_lt _ h := of_decide_eq_true (Bool.and_eq_true_iff.mp h).1
  chronological := by
    refine List.pairwise_map.mpr ((s.history.sorted.filter _).imp_of_mem fun he hf hlt => ?_)
    have hkey := (hs.directory.entry _ (List.mem_filter.mp he).1).key
    have hkey' := (hs.directory.entry _ (List.mem_filter.mp hf).1).key
    show (if _ ≠ _ then _ else _) = true
    rw [hkey, hkey', if_pos hlt.ne]
    exact decide_eq_true hlt
  earlier := .lex (fun id => (s.blocks id).historyPosStart)
    (.of_key fun id => (s.blocks id).logicalId)

/-! ## The order of the candidates -/

theorem Pool.Ok.better {p : Pool} (hp : p.Ok) (score : ℕ → ℚ) : StrictWeak (p.better score) := by
  have heq : p.better score = fun a b =>
      if score b ≠ score a then decide (score b < score a) else p.earlier b a := by
    funext a b
    exact if_congr ne_comm rfl rfl
  rw [heq]
  exact (hp.earlier.lex score).swap

/-- Sorting splits as `nth_element` has to. -/
def NthElement.sort : NthElement where
  run better l _ := l.insertionSort fun a b => better b a = false
  perm _ _ _ := List.perm_insertionSort _ _
  split better l k htrans hasymm hneg x hx y hy := by
    have htotal : Std.Total fun a b => better b a = false := ⟨fun a b => by
      cases h : better b a with
      | false => exact .inl rfl
      | true => exact .inr (hasymm b a h)⟩
    have htransitive : IsTrans ℕ fun a b => better b a = false :=
      ⟨fun a b c hab hbc => hneg c b a hbc hab⟩
    have hsorted := List.pairwise_insertionSort (fun a b => better b a = false) l
    rw [← List.take_append_drop k (l.insertionSort _)] at hsorted
    exact (List.pairwise_append.mp hsorted).2.2 x hx y hy

/-! ## Keeping -/

section Keep

variable {p : Pool} {m : Marks} {id j budget : ℕ} {ids : List ℕ}

/-- The block is one that `keep` takes. -/
def Pool.Keepable (p : Pool) (id : ℕ) : Bool := decide (id < p.blockCount) && p.live id

/-- The marks are live blocks, counted once. -/
structure Pool.Kept (p : Pool) (m : Marks) : Prop where
  ok : m.Ok p.blockCount
  live : ∀ id, m.marked id = true → p.live id = true

theorem Pool.Ok.keepable (hp : p.Ok) : p.Keepable id = p.live id := by
  unfold Pool.Keepable
  cases hlive : p.live id with
  | false => exact Bool.and_false _
  | true => rw [Bool.and_true, decide_eq_true (hp.live_lt id hlive)]

theorem Pool.empty_kept (p : Pool) : p.Kept .empty :=
  ⟨Marks.empty_ok _, fun _ h => by cases h⟩

theorem Pool.keep_of_keepable (h : p.Keepable id = true) : p.keep m id = m.add id := by
  have h := Bool.and_eq_true_iff.mp h
  exact if_pos ⟨of_decide_eq_true h.1, h.2⟩

theorem Pool.keep_of_not_keepable (h : p.Keepable id = false) : p.keep m id = m := by
  refine if_neg fun hc => ?_
  rw [Keepable, decide_eq_true hc.1, hc.2] at h
  cases h

theorem Pool.Kept.addAll (hm : p.Kept m) (hids : ∀ id ∈ ids, p.Keepable id = true) :
    p.Kept (m.addAll ids) where
  ok := hm.ok.addAll fun id hid => of_decide_eq_true (Bool.and_eq_true_iff.mp (hids id hid)).1
  live id hid := (Marks.addAll_marked.mp hid).elim
    (fun h => (Bool.and_eq_true_iff.mp (hids id h)).2) (hm.live id)

/-- What `keep` is called on and takes. -/
theorem keepAll_eq (p : Pool) (m : Marks) (ids : List ℕ) :
    keepAll p.keep m ids = m.addAll (ids.filter p.Keepable) := by
  induction ids generalizing m with
  | nil => rfl
  | cons id ids ih =>
      show keepAll p.keep (p.keep m id) ids = _
      rw [ih]
      cases h : p.Keepable id with
      | true => rw [Pool.keep_of_keepable h, List.filter_cons_of_pos h, Marks.addAll_cons]
      | false =>
          rw [Pool.keep_of_not_keepable h, List.filter_cons_of_neg (by rw [h]; exact Bool.false_ne_true)]

theorem Pool.Kept.keepAll (hm : p.Kept m) (ids : List ℕ) : p.Kept (keepAll p.keep m ids) := by
  rw [keepAll_eq]
  exact hm.addAll fun id hid => (List.mem_filter.mp hid).2

/-- Where the budget is reached, nothing more is kept. -/
theorem keepWhile_of_full (h : budget ≤ m.count) (ids : List ℕ) :
    keepWhile p.keep budget m ids = m := by
  induction ids with
  | nil => rfl
  | cons id ids ih =>
      show keepWhile p.keep budget (if m.count < budget then p.keep m id else m) ids = m
      rw [if_neg (not_lt.mpr h)]
      exact ih

/-- The blocks that a loop with a budget can still take. -/
def Pool.fresh (p : Pool) (m : Marks) (ids : List ℕ) : List ℕ :=
  ids.filter fun id => p.Keepable id && !m.marked id

/-- **A loop with a budget** takes the first of what it can take. -/
theorem keepWhile_eq (hids : ids.Nodup) (m : Marks) :
    keepWhile p.keep budget m ids = m.addAll ((p.fresh m ids).take (budget - m.count)) := by
  induction ids generalizing m with
  | nil => rw [Pool.fresh, List.filter_nil, List.take_nil]; rfl
  | cons id ids ih =>
      obtain ⟨hnot, hids⟩ := List.nodup_cons.mp hids
      by_cases hfull : budget ≤ m.count
      · rw [keepWhile_of_full hfull, Nat.sub_eq_zero_of_le hfull, List.take_zero]
        rfl
      · show keepWhile p.keep budget (if m.count < budget then p.keep m id else m) ids = _
        rw [if_pos (not_le.mp hfull), ih hids]
        unfold Pool.fresh
        cases hkeep : p.Keepable id with
        | false =>
            rw [Pool.keep_of_not_keepable hkeep, List.filter_cons_of_neg (by simp [hkeep])]
        | true =>
            rw [Pool.keep_of_keepable hkeep]
            cases hmark : m.marked id with
            | true =>
                rw [Marks.add_of_marked hmark, List.filter_cons_of_neg (by simp [hmark])]
            | false =>
                have hother : ids.filter (fun j => p.Keepable j && !(m.add id).marked j) =
                    ids.filter fun j => p.Keepable j && !m.marked j :=
                  List.filter_congr fun j hj => by
                    have hne : j ≠ id := fun heq => hnot (heq ▸ hj)
                    have hiff : (m.add id).marked j = m.marked j := by
                      rw [Bool.eq_iff_iff, Marks.add_marked]
                      exact or_iff_right hne
                    rw [hiff]
                have hleft : budget - m.count = (budget - (m.count + 1)) + 1 := by omega
                rw [hother, Marks.add_count_of_not hmark,
                  List.filter_cons_of_pos (a := id) (by simp [hkeep, hmark]), hleft,
                  List.take_succ_cons, Marks.addAll_cons]

theorem Pool.Kept.keepWhile (hm : p.Kept m) (hids : ids.Nodup) (budget : ℕ) :
    p.Kept (keepWhile p.keep budget m ids) := by
  rw [keepWhile_eq hids]
  refine hm.addAll fun id hid => ?_
  exact (Bool.and_eq_true_iff.mp (List.mem_filter.mp (List.mem_of_mem_take hid)).2).1

theorem fresh_nodup (hids : ids.Nodup) (m : Marks) : (p.fresh m ids).Nodup := hids.filter _

theorem not_marked_of_fresh (h : id ∈ p.fresh m ids) : m.marked id = false := by
  have h := (Bool.and_eq_true_iff.mp (List.mem_filter.mp h).2).2
  simpa using h

/-- How many a loop with a budget takes. -/
theorem keepWhile_count (hids : ids.Nodup) (m : Marks) :
    (keepWhile p.keep budget m ids).count =
      m.count + min (budget - m.count) (p.fresh m ids).length := by
  rw [keepWhile_eq hids, Marks.addAll_count ((fresh_nodup hids m).sublist (List.take_sublist _ _))
    fun id hid => not_marked_of_fresh (List.mem_of_mem_take hid), List.length_take]

end Keep

/-! ## The best candidates -/

section TakeTop

variable {p : Pool} {m : Marks} {nth : NthElement} {budget quota : ℕ} {score : ℕ → ℚ}
  {positiveOnly : Bool}

theorem mem_candidates {id : ℕ} : id ∈ p.candidates score positiveOnly m ↔
    id < p.blockCount ∧ m.marked id = false ∧ p.live id = true ∧
      (positiveOnly = true → 0 < score id) := by
  unfold Pool.candidates
  rw [List.mem_filter, List.mem_range, Bool.and_eq_true, Bool.and_eq_true, Bool.not_eq_true',
    Bool.or_eq_true, Bool.not_eq_true', decide_eq_true_iff, and_assoc]
  refine and_congr_right fun _ => and_congr_right fun _ => and_congr_right fun _ => ?_
  cases positiveOnly <;> simp

/-- **`take_top`** marks as many candidates as the quota and the budget leave
room for, and none that it leaves is better than one it takes. -/
theorem takeTop_spec (hp : p.Ok) (nth : NthElement) (budget quota : ℕ) (score : ℕ → ℚ)
    (positiveOnly : Bool) (m : Marks) :
    ∃ chosen : List ℕ, p.takeTop nth budget quota score positiveOnly m = m.addAll chosen ∧
      chosen.Nodup ∧ (∀ id ∈ chosen, id ∈ p.candidates score positiveOnly m) ∧
      chosen.length = min (min quota (budget - m.count)) (p.candidates score positiveOnly m).length ∧
      ∀ x ∈ chosen, ∀ y ∈ p.candidates score positiveOnly m, y ∉ chosen →
        p.better score y x = false := by
  unfold Pool.takeTop
  split_ifs with hnone
  · refine ⟨[], rfl, List.nodup_nil, fun _ h => (by cases h), ?_, fun _ h => (by cases h)⟩
    rcases hnone with hfull | hquota
    · rw [Nat.sub_eq_zero_of_le hfull, Nat.min_zero, Nat.zero_min]
      rfl
    · rw [hquota, Nat.zero_min, Nat.zero_min]
      rfl
  · have hnodup : (p.candidates score positiveOnly m).Nodup := List.nodup_range.filter _
    have hkeep : ∀ ids : List ℕ, (∀ id ∈ ids, id ∈ p.candidates score positiveOnly m) →
        keepAll p.keep m ids = m.addAll ids := fun ids hids => by
      rw [keepAll_eq, List.filter_eq_self.mpr fun id hid => ?_]
      rw [hp.keepable]
      exact (mem_candidates.mp (hids id hid)).2.2.1
    dsimp only
    split_ifs with hneed
    · have hperm := nth.perm (p.better score) (p.candidates score positiveOnly m)
        (min (min quota (budget - m.count)) (p.candidates score positiveOnly m).length)
      have hmem : ∀ id ∈ (nth.run (p.better score) (p.candidates score positiveOnly m)
          (min (min quota (budget - m.count)) (p.candidates score positiveOnly m).length)).take
            (min (min quota (budget - m.count)) (p.candidates score positiveOnly m).length),
          id ∈ p.candidates score positiveOnly m :=
        fun id hid => hperm.subset (List.mem_of_mem_take hid)
      have hweak := hp.better score
      refine ⟨_, hkeep _ hmem, (hperm.nodup_iff.mpr hnodup).sublist (List.take_sublist _ _), hmem,
        ?_, fun x hx y hy hnot => ?_⟩
      · rw [List.length_take, hperm.length_eq]
        omega
      · refine nth.split _ _ _ hweak.trans hweak.asymm hweak.negTrans x hx y ?_
        have hy' := hperm.symm.subset hy
        rw [← List.take_append_drop _ (nth.run _ _ _)] at hy'
        exact (List.mem_append.mp hy').resolve_left hnot
    · exact ⟨_, hkeep _ fun _ h => h, hnodup, fun _ h => h, by omega, fun _ _ y hy hnot =>
        absurd hy hnot⟩

theorem Pool.Kept.takeTop (hp : p.Ok) (hm : p.Kept m) :
    p.Kept (p.takeTop nth budget quota score positiveOnly m) := by
  obtain ⟨chosen, heq, -, hmem, -⟩ := takeTop_spec hp nth budget quota score positiveOnly m
  rw [heq]
  refine hm.addAll fun id hid => ?_
  rw [hp.keepable]
  exact (mem_candidates.mp (hmem id hid)).2.2.1

theorem takeTop_mono (hp : p.Ok) {id : ℕ} (h : m.marked id = true) :
    (p.takeTop nth budget quota score positiveOnly m).marked id = true := by
  obtain ⟨chosen, heq, -⟩ := takeTop_spec hp nth budget quota score positiveOnly m
  rw [heq]
  exact Marks.addAll_marked.mpr (.inr h)

theorem takeTop_count (hp : p.Ok) :
    (p.takeTop nth budget quota score positiveOnly m).count = m.count +
      min (min quota (budget - m.count)) (p.candidates score positiveOnly m).length := by
  obtain ⟨chosen, heq, hnodup, hmem, hlength, -⟩ :=
    takeTop_spec hp nth budget quota score positiveOnly m
  rw [heq, Marks.addAll_count hnodup fun id hid => (mem_candidates.mp (hmem id hid)).2.1, hlength]

/-- Of two candidates that are not ties one is better. -/
theorem better_total {x y : ℕ} (htotal : p.earlier x y = false → p.earlier y x = false → x = y)
    (hyx : p.better score y x = false) (hxy : p.better score x y = false) : x = y := by
  unfold Pool.better at hyx hxy
  by_cases heq : score x = score y
  · rw [if_neg (not_not.mpr heq.symm)] at hyx
    rw [if_neg (not_not.mpr heq)] at hxy
    exact htotal hyx hxy
  · rw [if_pos (Ne.symm heq)] at hyx
    rw [if_pos heq] at hxy
    exact absurd (le_antisymm (not_lt.mp (of_decide_eq_false hyx))
      (not_lt.mp (of_decide_eq_false hxy))).symm heq

/-- Two lists of one length are the same where nothing of one could stand for
something of the other. -/
theorem mem_of_no_swap {a b : List ℕ} (hb : b.Nodup) (hlength : a.length = b.length)
    (hswap : ∀ x ∈ a, ∀ y ∈ b, y ∉ a → x ∉ b → False) : ∀ x ∈ a, x ∈ b := by
  intro x hx
  by_contra hnot
  -- then `b` has something that `a` has not
  have hex : ∃ y ∈ b, y ∉ a := by
    by_contra hnone
    push Not at hnone
    have hperm := (List.subperm_of_subset hb hnone).perm_of_length_le hlength.le
    exact hnot (hperm.mem_iff.mpr hx)
  obtain ⟨y, hy, hya⟩ := hex
  exact hswap x hx y hy hya hnot

/-- The candidates by any score are the live blocks that are not kept. -/
theorem candidates_length (hm : p.Kept m) :
    (p.candidates score false m).length = p.liveCount - m.count := by
  rw [hm.ok.count, Pool.liveCount, ← Marks.countP_diff hm.live]
  refine congrArg _ (List.filter_congr fun id _ => ?_)
  rw [Bool.not_false, Bool.true_or, Bool.and_true, Bool.and_comm]

theorem Pool.Kept.count_le (hm : p.Kept m) : m.count ≤ p.liveCount := by
  rw [hm.ok.count]
  exact List.countP_mono_left fun id _ h => hm.live id h

/-- Filling up to the budget. -/
theorem takeTop_fill (hp : p.Ok) (hm : p.Kept m) (hle : m.count ≤ budget) :
    (p.takeTop nth budget (budget - m.count) score false m).count = min budget p.liveCount := by
  have := hm.count_le
  rw [takeTop_count hp, candidates_length hm, Nat.min_self]
  omega

end TakeTop

end Qw3.Store
