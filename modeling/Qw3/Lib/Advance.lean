import Mathlib.Data.List.Chain
import Mathlib.Logic.Function.Basic

/-!
# Runs that jump over nothing

The positions of a run that advances step by step; `f` numbers them.

* `exists_visit` — a run whose steps do not jump over `x` visits `x` before any
  position past it.
* `length_le` — a run gets at least as far as it has steps.
-/

namespace Qw3.Advance

variable {α : Type*} {R : α → α → Prop} {f : α → ℕ} {lo x p : α} {ps : List α}

/-- **No step from before `x` goes past it**, so that the run visits `x` before it
gets past it, and before that only positions before `x`. -/
theorem exists_visit (hf : Function.Injective f) (hmono : ∀ p q, R p q → f p < f q)
    (hstep : ∀ p q, f lo ≤ f p → R p q → f p < f x → f q ≤ f x) (hrun : (p :: ps).IsChain R)
    (hlo : f lo ≤ f p) (hp : f p ≤ f x) (hend : ∃ q ∈ p :: ps, f x ≤ f q) :
    ∃ before after, p :: ps = before ++ x :: after ∧ ∀ q ∈ before, f lo ≤ f q ∧ f q < f x := by
  induction ps generalizing p with
  | nil =>
      obtain ⟨q, hq, hle⟩ := hend
      rw [List.mem_singleton] at hq
      subst hq
      obtain rfl := hf (Nat.le_antisymm hp hle)
      exact ⟨[], [], rfl, nofun⟩
  | cons q ps ih =>
      rcases Nat.eq_or_lt_of_le hp with heq | hlt
      · obtain rfl := hf heq
        exact ⟨[], q :: ps, rfl, nofun⟩
      · rw [List.isChain_cons_cons] at hrun
        have hrest : ∃ r ∈ q :: ps, f x ≤ f r := by
          obtain ⟨r, hr, hle⟩ := hend
          rcases List.mem_cons.mp hr with rfl | hr
          · exact absurd hle (Nat.not_le_of_lt hlt)
          · exact ⟨r, hr, hle⟩
        obtain ⟨before, after, heq, hbefore⟩ := ih hrun.2 (hlo.trans (hmono p q hrun.1).le)
          (hstep p q hlo hrun.1 hlt) hrest
        refine ⟨p :: before, after, ?_, ?_⟩
        · rw [heq, List.cons_append]
        · intro r hr
          rcases List.mem_cons.mp hr with rfl | hr
          · exact ⟨hlo, hlt⟩
          · exact hbefore r hr

/-- Every step advances, so that a run gets as far as it has steps. -/
theorem length_le (hstep : ∀ p q, R p q → f p < f q) (hrun : (p :: ps).IsChain R) :
    ∃ q ∈ p :: ps, f p + ps.length ≤ f q := by
  induction ps generalizing p with
  | nil => exact ⟨p, List.mem_cons_self, le_rfl⟩
  | cons q ps ih =>
      rw [List.isChain_cons_cons] at hrun
      obtain ⟨r, hr, hle⟩ := ih hrun.2
      refine ⟨r, List.mem_cons_of_mem _ hr, ?_⟩
      have hlt := hstep p q hrun.1
      rw [List.length_cons]
      omega

end Qw3.Advance
