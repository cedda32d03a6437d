import Mathlib.Data.List.Nodup
import Mathlib.Data.List.Perm.Basic
import Mathlib.Logic.Function.Basic

/-!
# Marks with a counter

A vector of marks on the numbers below a bound, and a counter of the marks set.

* `Marks.add`, `Marks.addAll` — set a mark, counting it once.
* `Marks.Ok` — the counter counts the marks.
* `Marks.Ok.length_filter` — any list without duplicates that has all the marks
  has `count` of them.
-/

/-- The marks and their number. -/
@[ext]
structure Marks where
  marked : ℕ → Bool
  count : ℕ

namespace Marks

/-- No mark. -/
def empty : Marks := ⟨fun _ => false, 0⟩

/-- Set one mark, unless it is set. -/
def add (m : Marks) (id : ℕ) : Marks :=
  if m.marked id then m else ⟨Function.update m.marked id true, m.count + 1⟩

/-- Set several marks, one after the other. -/
def addAll (m : Marks) (ids : List ℕ) : Marks := ids.foldl add m

variable {m : Marks} {id j n : ℕ} {ids l : List ℕ} {marks : ℕ → Bool}

/-- A new mark is counted once. -/
theorem countP_update (hl : l.Nodup) (hid : id ∈ l) (hmark : marks id = false) :
    l.countP (Function.update marks id true) = l.countP marks + 1 := by
  induction l with
  | nil => cases hid
  | cons a l ih =>
      obtain ⟨hnot, hl⟩ := List.nodup_cons.mp hl
      by_cases ha : a = id
      · subst ha
        have hrest : l.countP (Function.update marks a true) = l.countP marks :=
          List.countP_congr fun b hb => by
            rw [Function.update_of_ne (ne_of_mem_of_not_mem hb hnot)]
        rw [List.countP_cons_of_pos (Function.update_self ..),
          List.countP_cons_of_neg (by rw [hmark]; decide), hrest]
      · have hid : id ∈ l := (List.mem_cons.mp hid).resolve_left (Ne.symm ha)
        rw [List.countP_cons, List.countP_cons, Function.update_of_ne ha, ih hl hid]
        omega

/-- The marks outside a subset. -/
theorem countP_diff {l : List ℕ} {hard : ℕ → Bool} (h : ∀ id, hard id = true → marks id = true) :
    (l.filter fun id => marks id && !hard id).length = l.countP marks - l.countP hard := by
  have hsplit : l.countP marks =
      l.countP hard + (l.filter fun id => marks id && !hard id).length := by
    induction l with
    | nil => rfl
    | cons a l ih =>
        rw [List.countP_cons, List.countP_cons, List.filter_cons]
        have ha := h a
        cases hhard : hard a <;> cases hmarks : marks a <;> simp_all <;> omega
  omega

theorem add_marked : (m.add id).marked j = true ↔ j = id ∨ m.marked j = true := by
  unfold add
  split_ifs with h
  · exact ⟨.inr, fun hj => hj.elim (fun hj => hj ▸ h) fun hj => hj⟩
  · show Function.update m.marked id true j = true ↔ _
    by_cases hj : j = id
    · rw [hj, Function.update_self]
      exact ⟨fun _ => .inl rfl, fun _ => rfl⟩
    · rw [Function.update_of_ne hj]
      exact ⟨.inr, fun h => h.resolve_left hj⟩

theorem add_count_of_not (h : m.marked id = false) : (m.add id).count = m.count + 1 := by
  rw [add, if_neg (by rw [h]; decide)]

theorem add_of_marked (h : m.marked id = true) : m.add id = m := if_pos h

@[simp] theorem addAll_nil : m.addAll [] = m := rfl

theorem addAll_cons : m.addAll (id :: ids) = (m.add id).addAll ids := rfl

theorem addAll_marked : (m.addAll ids).marked j = true ↔ j ∈ ids ∨ m.marked j = true := by
  induction ids generalizing m with
  | nil => simp
  | cons id ids ih => rw [addAll_cons, ih, add_marked, List.mem_cons, or_left_comm, or_assoc]

/-- Marks that are new are all counted. -/
theorem addAll_count (hids : ids.Nodup) (hnew : ∀ id ∈ ids, m.marked id = false) :
    (m.addAll ids).count = m.count + ids.length := by
  induction ids generalizing m with
  | nil => rfl
  | cons id ids ih =>
      obtain ⟨hnot, hids⟩ := List.nodup_cons.mp hids
      rw [addAll_cons, ih hids fun j hj => ?_, add_count_of_not (hnew id List.mem_cons_self),
        List.length_cons]
      · omega
      · rw [Bool.eq_false_iff]
        intro h
        rcases add_marked.mp h with rfl | h
        · exact hnot hj
        · rw [hnew j (List.mem_cons_of_mem _ hj)] at h
          cases h

/-- The order in which new marks are set does not matter. -/
theorem addAll_congr (hids : ids.Nodup) (hl : l.Nodup) (hnew : ∀ id ∈ ids, m.marked id = false)
    (hmem : ∀ id, id ∈ ids ↔ id ∈ l) : m.addAll ids = m.addAll l := by
  ext j
  · rw [Bool.eq_iff_iff, addAll_marked, addAll_marked, hmem]
  · rw [addAll_count hids hnew, addAll_count hl fun id hid => hnew id ((hmem id).mpr hid),
      ((List.perm_ext_iff_of_nodup hids hl).mpr hmem).length_eq]

/-- The counter counts the marks, which are below the bound. -/
structure Ok (n : ℕ) (m : Marks) : Prop where
  lt : ∀ id, m.marked id = true → id < n
  count : m.count = (List.range n).countP m.marked

theorem empty_ok (n : ℕ) : empty.Ok n where
  lt _ h := by cases h
  count := (List.countP_eq_zero.mpr fun _ _ h => by cases h).symm

theorem Ok.add (hm : m.Ok n) (hid : id < n) : (m.add id).Ok n := by
  by_cases hmark : m.marked id = true
  · rw [add_of_marked hmark]
    exact hm
  · have hfalse := Bool.eq_false_iff.mpr hmark
    refine ⟨fun j hj => ?_, ?_⟩
    · rcases add_marked.mp hj with rfl | hj
      · exact hid
      · exact hm.lt j hj
    · rw [add_count_of_not hfalse, hm.count, Marks.add, if_neg hmark]
      exact (countP_update List.nodup_range (List.mem_range.mpr hid) hfalse).symm

theorem Ok.addAll (hm : m.Ok n) (hids : ∀ id ∈ ids, id < n) : (m.addAll ids).Ok n := by
  induction ids generalizing m with
  | nil => exact hm
  | cons id ids ih =>
      exact ih (hm.add (hids id List.mem_cons_self)) fun j hj =>
        hids j (List.mem_cons_of_mem _ hj)

/-- The marks that a list without duplicates has, when it has them all. -/
theorem Ok.length_filter (hm : m.Ok n) (hl : l.Nodup) (hmem : ∀ id, m.marked id = true → id ∈ l) :
    (l.filter m.marked).length = m.count := by
  rw [hm.count, List.countP_eq_length_filter]
  refine List.Perm.length_eq ((List.perm_ext_iff_of_nodup (hl.filter _)
    (List.nodup_range.filter _)).mpr fun id => ?_)
  rw [List.mem_filter, List.mem_filter, List.mem_range]
  exact ⟨fun h => ⟨hm.lt id h.2, h.2⟩, fun h => ⟨hmem id h.2, h.2⟩⟩

/-- A list without duplicates has no more marks than there are. -/
theorem Ok.length_filter_le (hm : m.Ok n) (hl : l.Nodup) : (l.filter m.marked).length ≤ m.count := by
  rw [hm.count, List.countP_eq_length_filter]
  refine List.Subperm.length_le (List.subperm_of_subset (hl.filter _) fun id hid => ?_)
  have hid := List.mem_filter.mp hid
  exact List.mem_filter.mpr ⟨List.mem_range.mpr (hm.lt id hid.2), hid.2⟩

/-- Marks that are all among the numbers of a list are no more than its length. -/
theorem Ok.count_le_length (hm : m.Ok n) (hl : l.Nodup) (hmem : ∀ id, m.marked id = true → id ∈ l) :
    m.count ≤ l.length := by
  rw [← hm.length_filter hl hmem]
  exact List.length_filter_le _ _

end Marks
