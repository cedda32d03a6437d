import Mathlib.Data.List.Forall2

/-!
# Steps that may fail

What a run of steps in `Except` says when it succeeds: each of its steps does.

* `bind_eq_ok`, `map_eq_ok`, `mapError_eq_ok` — one step and what follows.
* `mapM_eq_ok` — a step for each element of a list; `map_mapM`, what is done with the
  results can be done within the steps.
-/

namespace Except

universe u v

variable {ε : Type u} {α β : Type v} {x : Except ε α} {b : β}

theorem bind_eq_ok {f : α → Except ε β} : x >>= f = .ok b ↔ ∃ a, x = .ok a ∧ f a = .ok b := by
  cases x with
  | error e =>
      constructor
      · intro h
        cases h
      · rintro ⟨a, h, -⟩
        cases h
  | ok a =>
      constructor
      · intro h
        exact ⟨a, rfl, h⟩
      · rintro ⟨a', h, hb⟩
        cases h
        exact hb

theorem map_eq_ok {f : α → β} : x.map f = .ok b ↔ ∃ a, x = .ok a ∧ f a = b := by
  cases x with
  | error e =>
      constructor
      · intro h
        cases h
      · rintro ⟨a, h, -⟩
        cases h
  | ok a =>
      constructor
      · intro h
        exact ⟨a, rfl, Except.ok.inj h⟩
      · rintro ⟨a', h, hb⟩
        cases h
        exact congrArg Except.ok hb

/-- A step whose error is passed on under another name. -/
theorem mapError_eq_ok {ε' : Type u} {x : Except ε β} {f : ε → ε'} : x.mapError f = .ok b ↔ x = .ok b := by
  cases x with
  | error e =>
      constructor
      · intro h
        cases h
      · intro h
        cases h
  | ok a =>
      constructor
      · intro h
        exact congrArg Except.ok (Except.ok.inj h)
      · intro h
        exact congrArg Except.ok (Except.ok.inj h)

theorem mapM_eq_ok {f : α → Except ε β} {l : List α} {ys : List β} :
    l.mapM f = .ok ys ↔ List.Forall₂ (fun x y => f x = .ok y) l ys := by
  induction l generalizing ys with
  | nil =>
      rw [List.mapM_nil, List.forall₂_nil_left_iff]
      exact ⟨fun h => (Except.ok.inj h).symm, fun h => congrArg Except.ok h.symm⟩
  | cons a l ih =>
      rw [List.mapM_cons]
      constructor
      · intro h
        obtain ⟨y, hy, h⟩ := bind_eq_ok.mp h
        obtain ⟨ys', hys', h⟩ := bind_eq_ok.mp h
        rw [← Except.ok.inj h]
        exact List.Forall₂.cons hy (ih.mp hys')
      · rintro (_ | ⟨hy, hys'⟩)
        rw [hy, ih.mpr hys']
        rfl

theorem map_mapM {γ : Type v} {f : α → Except ε β} {g : α → Except ε γ} {d : β → γ} {l : List α}
    (h : ∀ a ∈ l, (f a).map d = g a) : (l.mapM f).map (List.map d) = l.mapM g := by
  induction l with
  | nil => rfl
  | cons a l ih =>
      rw [List.forall_mem_cons] at h
      rw [List.mapM_cons, List.mapM_cons, ← h.1, ← ih h.2]
      cases f a with
      | error e => rfl
      | ok y =>
          cases l.mapM f with
          | error e => rfl
          | ok ys => rfl

end Except
