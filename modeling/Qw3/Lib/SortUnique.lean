import Mathlib.Data.Finset.Card
import Mathlib.Data.List.Sort

/-!
# Sorting and dropping duplicates

`std::sort` by a comparison, then `std::unique`.

* `unique` — of neighbours that are equal one stays.
* `sortUnique` — both; `mem_sortUnique`, `pairwise_sortUnique` say that it lists
  each element once, in order.
* `length_sortUnique`, `sortUnique_eq` — in a linear order: how many there are, and
  that only the elements matter.
-/

variable {α : Type*} [DecidableEq α]

/-- Of equal neighbours one stays. -/
def unique : List α → List α
  | [] => []
  | a :: l => if l.head? = some a then unique l else a :: unique l

/-- A list sorted by a comparison, each element once. -/
def sortUnique (less : α → α → Bool) (l : List α) : List α :=
  unique (l.insertionSort fun a b => less b a = false)

variable {a : α} {l : List α} {less : α → α → Bool}

@[simp] theorem mem_unique : a ∈ unique l ↔ a ∈ l := by
  induction l with
  | nil => rfl
  | cons b l ih =>
      unfold unique
      split_ifs with hhead
      · rw [ih, List.mem_cons]
        constructor
        · exact .inr
        · rintro (rfl | h)
          · exact List.mem_of_head? hhead
          · exact h
      · rw [List.mem_cons, List.mem_cons, ih]

@[simp] theorem mem_sortUnique : a ∈ sortUnique less l ↔ a ∈ l := by
  unfold sortUnique
  rw [mem_unique]
  exact (List.perm_insertionSort _ l).mem_iff

/-- A sorted list whose elements the comparison tells apart. -/
theorem pairwise_unique (hsorted : l.Pairwise fun a b => less b a = false)
    (htotal : ∀ a ∈ l, ∀ b ∈ l, less a b = false → less b a = false → a = b) :
    (unique l).Pairwise fun a b => less a b = true := by
  induction l with
  | nil => exact List.Pairwise.nil
  | cons a l ih =>
      obtain ⟨hle, hrest⟩ := List.pairwise_cons.mp hsorted
      have ih := ih hrest fun b hb c hc =>
        htotal b (List.mem_cons_of_mem _ hb) c (List.mem_cons_of_mem _ hc)
      unfold unique
      split_ifs with hhead
      · exact ih
      · refine List.pairwise_cons.mpr ⟨?_, ih⟩
        intro b hb
        rw [mem_unique] at hb
        by_contra hnot
        rw [Bool.not_eq_true] at hnot
        obtain rfl := htotal a List.mem_cons_self b (List.mem_cons_of_mem _ hb) hnot (hle b hb)
        -- An equal element further on leaves only equal ones between.
        cases l with
        | nil => cases hb
        | cons c l =>
            apply hhead
            rcases List.mem_cons.mp hb with rfl | hb
            · rfl
            · have hca := (List.pairwise_cons.mp hrest).1 a hb
              have hac := hle c List.mem_cons_self
              rw [htotal a List.mem_cons_self c (by simp) hca hac]
              rfl

/-- **Each element once, in order.**  The comparison is a strict order up to
ties, and has no ties in the list. -/
theorem pairwise_sortUnique (hasymm : ∀ a b, less a b = true → less b a = false)
    (htrans : ∀ a b c, less a b = false → less b c = false → less a c = false)
    (htotal : ∀ a ∈ l, ∀ b ∈ l, less a b = false → less b a = false → a = b) :
    (sortUnique less l).Pairwise fun a b => less a b = true := by
  have htotal' : Std.Total fun a b => less b a = false := by
    constructor
    intro a b
    cases h : less b a with
    | false => exact .inl rfl
    | true => exact .inr (hasymm b a h)
  have htrans' : IsTrans α fun a b => less b a = false := by
    constructor
    intro a b c hab hbc
    exact htrans c b a hbc hab
  have hperm := List.perm_insertionSort (fun a b => less b a = false) l
  refine pairwise_unique (List.pairwise_insertionSort (fun a b => less b a = false) l) ?_
  intro a ha b hb
  exact htotal a (hperm.mem_iff.mp ha) b (hperm.mem_iff.mp hb)

/-! ## Linear orders -/

section Linear

variable {α : Type*} [LinearOrder α] {l : List α}

/-- In a linear order nothing is assumed of the list. -/
theorem pairwise_sortUnique_lt (l : List α) : (sortUnique (fun a b => decide (a < b)) l).Pairwise (· < ·) := by
  have hpairwise : (sortUnique (fun a b => decide (a < b)) l).Pairwise fun a b => decide (a < b) = true := by
    refine pairwise_sortUnique (fun a b hab => ?_) (fun a b c hab hbc => ?_) fun a _ b _ hab hba => ?_
    · exact decide_eq_false (of_decide_eq_true hab).asymm
    · have hba := not_lt.mp (of_decide_eq_false hab)
      exact decide_eq_false (not_lt.mpr ((not_lt.mp (of_decide_eq_false hbc)).trans hba))
    · exact le_antisymm (not_lt.mp (of_decide_eq_false hba)) (not_lt.mp (of_decide_eq_false hab))
  exact hpairwise.imp of_decide_eq_true

theorem length_sortUnique (l : List α) : (sortUnique (fun a b => decide (a < b)) l).length = l.toFinset.card := by
  have hset : (sortUnique (fun a b => decide (a < b)) l).toFinset = l.toFinset := by
    ext a
    rw [List.mem_toFinset, List.mem_toFinset, mem_sortUnique]
  rw [← hset, List.toFinset_card_of_nodup]
  exact (pairwise_sortUnique_lt l).imp ne_of_lt

/-- A sorted list is what comes of any list with the same elements. -/
theorem sortUnique_eq {m : List α} (hm : m.Pairwise (· < ·)) (h : ∀ a, a ∈ l ↔ a ∈ m) :
    sortUnique (fun a b => decide (a < b)) l = m := by
  refine List.Perm.eq_of_pairwise (fun a b _ _ hab hba => absurd hba (not_lt_of_gt hab)) (pairwise_sortUnique_lt l) hm ?_
  refine (List.perm_ext_iff_of_nodup ?_ (hm.imp ne_of_lt)).mpr fun a => ?_
  · exact (pairwise_sortUnique_lt l).imp ne_of_lt
  · rw [mem_sortUnique, h]

end Linear
