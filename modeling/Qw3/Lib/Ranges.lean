import Mathlib.Data.List.Basic
import Mathlib.Tactic.Common

/-!
# Lists of index ranges

A range is a first index and a count.  A list of ranges is built back first: a
range that begins where the last one ends makes it longer.

* `IndexRange.push` — the range from `first` to `last` is added.
* `mem_push`, `pairwise_push` — its indices are added, and ranges that shared no
  index share none.
-/

/-- The indices `first`, …, `first + count - 1`. -/
structure IndexRange where
  first : ℕ
  count : ℕ
  deriving DecidableEq, Repr

namespace IndexRange

instance : Membership ℕ IndexRange where
  mem r i := r.first ≤ i ∧ i < r.first + r.count

/-- Two ranges share no index. -/
def Disjoint (r q : IndexRange) : Prop := ∀ i, i ∈ r → i ∉ q

/-- An index is in one of the ranges. -/
def Among (out : List IndexRange) (i : ℕ) : Prop := ∃ r ∈ out, i ∈ r

/-- The range from `first` to `last` is added to a list whose back is its head. -/
def push (first last : ℕ) (out : List IndexRange) : List IndexRange :=
  if last ≤ first then out
  else
    match out with
    | [] => [⟨first, last - first⟩]
    | back :: rest =>
        if back.first + back.count = first then
          ⟨back.first, back.count + (last - first)⟩ :: rest
        else ⟨first, last - first⟩ :: back :: rest

variable {r q back : IndexRange} {out : List IndexRange} {first last i : ℕ}

theorem mem_def : i ∈ r ↔ r.first ≤ i ∧ i < r.first + r.count := Iff.rfl

theorem Disjoint.symm (h : r.Disjoint q) : q.Disjoint r := fun i hq hr => h i hr hq

@[simp] theorem not_among_nil : ¬ Among [] i := by
  rintro ⟨r, hr, -⟩
  cases hr

@[simp] theorem among_cons : Among (r :: out) i ↔ i ∈ r ∨ Among out i := by
  unfold Among
  simp

/-- A range that was made longer. -/
theorem mem_longer (hend : back.first + back.count = first) (hlt : first < last) :
    i ∈ (⟨back.first, back.count + (last - first)⟩ : IndexRange) ↔
      i ∈ back ∨ (first ≤ i ∧ i < last) := by
  rw [mem_def, mem_def]
  dsimp only
  omega

theorem mem_new (hlt : first < last) :
    i ∈ (⟨first, last - first⟩ : IndexRange) ↔ first ≤ i ∧ i < last := by
  rw [mem_def]
  dsimp only
  omega

theorem mem_push : Among (push first last out) i ↔ Among out i ∨ (first ≤ i ∧ i < last) := by
  unfold push
  split_ifs with hempty
  · constructor
    · exact .inl
    · rintro (h | h)
      · exact h
      · omega
  · rw [Nat.not_le] at hempty
    cases out with
    | nil => simp [mem_new hempty]
    | cons back rest =>
        dsimp only
        split_ifs with hend
        · rw [among_cons, among_cons, mem_longer hend hempty]
          tauto
        · rw [among_cons, mem_new hempty]
          tauto

theorem disjoint_iff : (∀ q ∈ out, r.Disjoint q) ↔ ∀ i ∈ r, ¬ Among out i := by
  constructor
  · rintro h i hi ⟨q, hq, hmem⟩
    exact h q hq i hi hmem
  · intro h q hq i hi hmem
    exact h i hi ⟨q, hq, hmem⟩

/-- **A push of new indices.**  The ranges share no index if they did not and the
new indices are in none of them. -/
theorem pairwise_push (hout : out.Pairwise Disjoint)
    (hnew : ∀ i, first ≤ i → i < last → ¬ Among out i) :
    (push first last out).Pairwise Disjoint := by
  unfold push
  split_ifs with hempty
  · exact hout
  · rw [Nat.not_le] at hempty
    cases out with
    | nil => exact List.pairwise_singleton ..
    | cons back rest =>
        obtain ⟨hback, hrest⟩ := List.pairwise_cons.mp hout
        dsimp only
        split_ifs with hend
        · refine List.pairwise_cons.mpr ⟨disjoint_iff.mpr ?_, hrest⟩
          intro i hi hmem
          rcases (mem_longer hend hempty).mp hi with hi | ⟨hle, hlt⟩
          · exact disjoint_iff.mp hback i hi hmem
          · exact hnew i hle hlt (among_cons.mpr (.inr hmem))
        · refine List.pairwise_cons.mpr ⟨disjoint_iff.mpr ?_, hout⟩
          intro i hi
          obtain ⟨hle, hlt⟩ := (mem_new hempty).mp hi
          exact hnew i hle hlt

/-! ## Pushing a list of ranges -/

section Fold

variable {α : Type*} {lo hi : α → ℕ}

/-- Ranges pushed one after the other, in the order they were pushed. -/
def pushAll (lo hi : α → ℕ) (l : List α) : List IndexRange :=
  (l.foldl (fun out x => push (lo x) (hi x) out) []).reverse

theorem among_foldl (l : List α) (out : List IndexRange) :
    Among (l.foldl (fun out x => push (lo x) (hi x) out) out) i ↔
      Among out i ∨ ∃ x ∈ l, lo x ≤ i ∧ i < hi x := by
  induction l generalizing out with
  | nil => simp
  | cons x rest ih =>
      rw [List.foldl_cons, ih, mem_push, List.exists_mem_cons_iff, or_assoc]

theorem among_reverse : Among out.reverse i ↔ Among out i := by
  unfold Among
  simp

/-- **The indices of the ranges.** -/
theorem among_pushAll (l : List α) :
    Among (pushAll lo hi l) i ↔ ∃ x ∈ l, lo x ≤ i ∧ i < hi x := by
  unfold pushAll
  rw [among_reverse, among_foldl, or_iff_right not_among_nil]

theorem pairwise_foldl {l : List α}
    (hl : l.Pairwise fun x y => ∀ i, lo x ≤ i → i < hi x → lo y ≤ i → ¬ i < hi y)
    {out : List IndexRange} (hout : out.Pairwise Disjoint)
    (hnew : ∀ x ∈ l, ∀ i, lo x ≤ i → i < hi x → ¬ Among out i) :
    (l.foldl (fun out x => push (lo x) (hi x) out) out).Pairwise Disjoint := by
  induction l generalizing out with
  | nil => exact hout
  | cons x rest ih =>
      obtain ⟨hx, hrest⟩ := List.pairwise_cons.mp hl
      refine ih hrest (pairwise_push hout (hnew x List.mem_cons_self)) ?_
      intro y hy i hle hlt hmem
      rcases mem_push.mp hmem with hmem | ⟨hxle, hxlt⟩
      · exact hnew y (List.mem_cons_of_mem _ hy) i hle hlt hmem
      · exact hx y hy i hxle hxlt hle hlt

/-- **Ranges of pieces that share no index share none.** -/
theorem pairwise_pushAll {l : List α}
    (hl : l.Pairwise fun x y => ∀ i, lo x ≤ i → i < hi x → lo y ≤ i → ¬ i < hi y) :
    (pushAll lo hi l).Pairwise Disjoint := by
  unfold pushAll
  rw [List.pairwise_reverse]
  refine (pairwise_foldl hl List.Pairwise.nil ?_).imp fun h => h.symm
  intro x _ i _ _
  exact not_among_nil

end Fold

end IndexRange
