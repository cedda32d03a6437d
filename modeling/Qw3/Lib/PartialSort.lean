import Mathlib.Data.List.Sort

/-!
# The front of a sorted list

A list sorted downwards by a key, of which only the front is wanted.

* `NthElement` — what `std::nth_element` promises: the first `k` elements are no
  smaller than the rest.
* `sortDesc` — the list sorted downwards; `sortDesc_take` says that selecting the
  first `k` and sorting them gives the front of the sorted list.
* `FrontFilter` — keeps a front part of a list and decides it from the front;
  `FrontFilter.eq_of_length_lt` says when a window is enough.
-/

variable {α κ : Type*} [LinearOrder κ]

/-- A partial selection of the `k` elements with the greatest keys. -/
structure NthElement (key : α → κ) where
  run : ℕ → List α → List α
  perm : ∀ k l, (run k l).Perm l
  before : ∀ k l, ∀ a ∈ (run k l).take k, ∀ b ∈ (run k l).drop k, key b ≤ key a

/-- The elements with the greatest key first. -/
def sortDesc (key : α → κ) (l : List α) : List α := l.mergeSort fun a b => decide (key b ≤ key a)

variable {key : α → κ} {l m : List α} {k : ℕ}

theorem perm_sortDesc (key : α → κ) (l : List α) : (sortDesc key l).Perm l :=
  List.mergeSort_perm _ _

@[simp] theorem length_sortDesc : (sortDesc key l).length = l.length :=
  (perm_sortDesc key l).length_eq

theorem pairwise_sortDesc (key : α → κ) (l : List α) :
    (sortDesc key l).Pairwise fun a b => key b ≤ key a := by
  have htrans : ∀ a b c : α, decide (key b ≤ key a) = true → decide (key c ≤ key b) = true →
      decide (key c ≤ key a) = true := by
    intro a b c hab hbc
    exact decide_eq_true ((of_decide_eq_true hbc).trans (of_decide_eq_true hab))
  have htotal : ∀ a b : α, (decide (key b ≤ key a) || decide (key a ≤ key b)) = true := by
    intro a b
    rcases le_total (key b) (key a) with h | h
    · rw [decide_eq_true h, Bool.true_or]
    · rw [decide_eq_true h, Bool.or_true]
  exact (List.pairwise_mergeSort htrans htotal l).imp of_decide_eq_true

/-- Distinct keys come out strictly downwards. -/
theorem strict_sortDesc (h : (l.map key).Nodup) :
    (sortDesc key l).Pairwise fun a b => key b < key a := by
  have hnodup : ((sortDesc key l).map key).Nodup := ((perm_sortDesc key l).map key).nodup_iff.mpr h
  rw [List.Nodup, List.pairwise_map] at hnodup
  refine ((pairwise_sortDesc key l).and hnodup).imp ?_
  rintro a b ⟨hle, hne⟩
  exact lt_of_le_of_ne hle (Ne.symm hne)

/-- A strictly sorted list is the only sorting of its elements. -/
theorem eq_of_sorted (hm : m.Pairwise fun a b => key b < key a)
    (hl : l.Pairwise fun a b => key b ≤ key a) (hperm : l.Perm m) : l = m := by
  refine List.Perm.eq_of_pairwise ?_ hl (hm.imp le_of_lt) hperm
  intro a b ha hb hba hab
  have hinj : ∀ a ∈ m, ∀ b ∈ m, key a = key b → a = b := by
    have hnodup : (m.map key).Nodup := by
      rw [List.Nodup, List.pairwise_map]
      exact hm.imp fun h => Ne.symm (ne_of_lt h)
    exact fun a ha b hb h => List.inj_on_of_nodup_map hnodup ha hb h
  exact hinj a (hperm.mem_iff.mp ha) b hb (le_antisymm hab hba)

/-- Selecting `k` elements and sorting them gives the front of the sorted list. -/
theorem sortDesc_take (nth : NthElement key) (hm : m.Pairwise fun a b => key b < key a)
    (hperm : l.Perm m) (k : ℕ) : sortDesc key ((nth.run k l).take k) = m.take k := by
  have hall : sortDesc key ((nth.run k l).take k) ++ sortDesc key ((nth.run k l).drop k) = m := by
    refine eq_of_sorted hm ?_ ?_
    · refine List.pairwise_append.mpr
        ⟨pairwise_sortDesc key _, pairwise_sortDesc key _, fun a ha b hb => ?_⟩
      exact nth.before k l a ((perm_sortDesc key _).mem_iff.mp ha) b
        ((perm_sortDesc key _).mem_iff.mp hb)
    · refine ((perm_sortDesc key _).append (perm_sortDesc key _)).trans ?_
      rw [List.take_append_drop]
      exact (nth.perm k l).trans hperm
  have hlen : (sortDesc key ((nth.run k l).take k)).length = (m.take k).length := by
    rw [length_sortDesc, List.length_take, List.length_take, (nth.perm k l).length_eq,
      hperm.length_eq]
  rw [← List.take_append_drop k m] at hall
  exact List.append_inj_left hall hlen

/-- Sorting everything is one way to select. -/
def NthElement.bySorting (key : α → κ) : NthElement key where
  run _ l := sortDesc key l
  perm _ l := perm_sortDesc key l
  before k l := by
    have hsorted := pairwise_sortDesc key l
    rw [← List.take_append_drop k (sortDesc key l), List.pairwise_append] at hsorted
    exact hsorted.2.2

/-! ## Filters that keep a front -/

/-- What is kept of a front is the front of what is kept, and it is a front. -/
structure FrontFilter (f : List α → List α) : Prop where
  take : ∀ k l, f (l.take k) = (f l).take k
  front : ∀ l, f l <+: l

namespace FrontFilter

variable {f g : List α → List α}

theorem id : FrontFilter (fun l : List α => l) where
  take _ _ := rfl
  front _ := List.prefix_rfl

theorem comp (hf : FrontFilter f) (hg : FrontFilter g) : FrontFilter fun l => f (g l) where
  take k l := by rw [hg.take, hf.take]
  front l := (hf.front _).trans (hg.front _)

/-- The first `n` elements. -/
theorem limit (n : ℕ) : FrontFilter fun l : List α => l.take n where
  take k l := by rw [List.take_take, List.take_take, Nat.min_comm]
  front l := List.take_prefix n l

/-- The elements as long as they compare with the first. -/
theorem against (p : α → α → Bool) :
    FrontFilter fun l : List α => match l with | [] => [] | a :: _ => l.takeWhile (p a) where
  take k l := by
    cases l with
    | nil => simp
    | cons a l =>
        cases k with
        | zero => simp
        | succ k =>
            change (List.take (k + 1) (a :: l)).takeWhile (p a) = _
            rw [List.take_takeWhile]
  front l := by
    cases l with
    | nil => exact List.prefix_rfl
    | cons a l => exact List.takeWhile_prefix _

/-- A filter that keeps less than a window keeps no more of the whole list. -/
theorem eq_of_length_lt (hf : FrontFilter f) (h : (f (l.take k)).length < k) :
    f (l.take k) = f l := by
  rw [hf.take, List.length_take] at h
  rw [hf.take]
  apply List.take_of_length_le
  omega

end FrontFilter
