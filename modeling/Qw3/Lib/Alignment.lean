import Mathlib.Data.List.Basic

/-!
# Where two lists part

How far two lists agree, counted from the front and then from the end, as a comparison of
two texts finds what stands in the one of them only.

## Main definitions

* `front` — how many elements two lists have in common at the front.
* `back` — how many they have in common at the end, behind that front.

## Main results

* `front_append_left`, `length_le_front` — what both lists begin with is counted.
* `front_eq_zero_iff` — nothing is counted just when the lists begin differently.
* `back_append` — the same from the end, for lists that part right behind what both begin with.

## Design notes

Where the one list has something that the other has not, the count from the front goes on
through it as long as it looks like what stands in its place in the other list.  So the two
counts bracket it exactly only if it neither begins nor ends as its replacement does.
-/

namespace Qw3.Alignment

universe u

variable {α : Type u} [DecidableEq α] {a b x y z : List α}

/-- How far two lists agree. -/
def front : List α → List α → ℕ
  | x :: xs, y :: ys => if x = y then front xs ys + 1 else 0
  | _, _ => 0

/-- How far two lists agree from the end, behind the front that they have in common. -/
def back (a b : List α) : ℕ := front (a.drop (front a b)).reverse (b.drop (front a b)).reverse

theorem front_le_left (a b : List α) : front a b ≤ a.length := by
  induction a generalizing b with
  | nil => exact Nat.zero_le _
  | cons x a ih =>
      cases b with
      | nil => exact Nat.zero_le _
      | cons y b =>
          unfold front
          split_ifs
          · exact Nat.succ_le_succ (ih b)
          · exact Nat.zero_le _

/-- What both lists begin with is counted, and then what is left. -/
theorem front_append_left (z x y : List α) : front (z ++ x) (z ++ y) = z.length + front x y := by
  induction z with
  | nil => exact (Nat.zero_add _).symm
  | cons c z ih =>
      rw [List.cons_append, List.cons_append, front, if_pos rfl, ih, List.length_cons]
      omega

theorem length_le_front (ha : z <+: a) (hb : z <+: b) : z.length ≤ front a b := by
  obtain ⟨x, rfl⟩ := ha
  obtain ⟨y, rfl⟩ := hb
  rw [front_append_left]
  exact Nat.le_add_right _ _

/-- Nothing is counted just when the lists begin differently. -/
theorem front_eq_zero_iff (hx : x ≠ []) : front x y = 0 ↔ x.head? ≠ y.head? := by
  cases x with
  | nil => exact absurd rfl hx
  | cons c x =>
      cases y with
      | nil => exact iff_of_true rfl (Option.some_ne_none c)
      | cons d y =>
          rw [front, List.head?_cons, List.head?_cons, ne_eq, Option.some_inj]
          by_cases hcd : c = d
          · rw [if_pos hcd]
            exact iff_of_false (Nat.succ_ne_zero _) (not_not.mpr hcd)
          · rw [if_neg hcd]
            exact iff_of_true rfl hcd

/-- Where the lists part right behind what both begin with, what is counted from the end is what
the rests have in common there. -/
theorem back_append (hparts : front x y = 0) : back (z ++ x) (z ++ y) = front x.reverse y.reverse := by
  unfold back
  rw [front_append_left, hparts, Nat.add_zero, List.drop_left, List.drop_left]

end Qw3.Alignment
