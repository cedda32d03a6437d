import Mathlib.Data.Set.Basic
import Mathlib.Logic.Function.Basic

/-!
# Labelled transition machines

A machine is a set of initial states and a partial step function labelled by
actions.  Concurrency is interleaving: every atomic access of every party is
one action, and a run is a list of actions in any order that the step function
accepts.

* `Machine.run` — execute a list of actions.
* `Machine.Reachable` — some run from an initial state ends here.
* `Machine.Invariant` — holds initially and is preserved by each step;
  `Machine.Invariant.reachable` is the induction, proved once.
* `Machine.restrict` — the same machine with only the steps that meet a
  condition on the state before the step; a property of every run whose steps
  all meet the condition is a property of the restricted machine.
* `Machine.withHistory` — the machine with a variable that records its steps.
* `Machine.run_rel` — the two-state induction: a preorder on states that each
  step moves along relates the ends of every run.
-/

universe u v w

/-- A transition machine over states `σ` with actions `α`. -/
structure Machine (σ : Type u) (α : Type v) where
  init : σ → Prop
  step : σ → α → Option σ

namespace Machine

variable {σ : Type u} {α : Type v}

/-- Execute a list of actions, stopping with `none` at one that is not
enabled. -/
def run (m : Machine σ α) : σ → List α → Option σ
  | s, [] => some s
  | s, a :: as => (m.step s a).bind fun t => run m t as

@[simp] theorem run_nil (m : Machine σ α) (s : σ) : m.run s [] = some s := rfl

theorem run_cons (m : Machine σ α) (s : σ) (a : α) (as : List α) :
    m.run s (a :: as) = (m.step s a).bind fun t => m.run t as := rfl

theorem run_append (m : Machine σ α) (s : σ) (as bs : List α) :
    m.run s (as ++ bs) = (m.run s as).bind fun t => m.run t bs := by
  induction as generalizing s with
  | nil => rfl
  | cons a as ih =>
      rw [List.cons_append, run_cons, run_cons, Option.bind_assoc]
      exact congrArg _ (funext fun t => ih t)

/-- Some run from an initial state ends in `s`. -/
def Reachable (m : Machine σ α) (s : σ) : Prop :=
  ∃ s₀ as, m.init s₀ ∧ m.run s₀ as = some s

variable {m : Machine σ α}

theorem Reachable.of_init {s : σ} (h : m.init s) :
    m.Reachable s :=
  ⟨s, [], h, rfl⟩

theorem Reachable.run {s t : σ} {as : List α}
    (hs : m.Reachable s) (h : m.run s as = some t) : m.Reachable t := by
  obtain ⟨s₀, bs, h₀, hb⟩ := hs
  exact ⟨s₀, bs ++ as, h₀, by rw [run_append, hb]; exact h⟩

/-- A run from an initial state, as far as a test of its last state goes. -/
theorem exists_reachable {s₀ : σ} (h₀ : m.init s₀) {as : List α}
    {check : σ → Bool} (h : (m.run s₀ as).any check = true) :
    ∃ s, m.Reachable s ∧ check s = true := by
  obtain ⟨s, hs, h⟩ := (Option.any_eq_true _ _).mp h
  exact ⟨s, ⟨s₀, as, h₀, hs⟩, h⟩

/-- The same with the states around one of the run's steps. -/
theorem exists_reachable_step {s₀ : σ} (h₀ : m.init s₀) {as bs : List α} {a : α}
    {check : σ → Bool} (h : (m.run s₀ (as ++ a :: bs)).any check = true) :
    ∃ s t u, m.Reachable s ∧ m.step s a = some t ∧ m.run t bs = some u ∧ check u = true := by
  obtain ⟨u, hrun, h⟩ := (Option.any_eq_true _ _).mp h
  rw [run_append, Option.bind_eq_some_iff] at hrun
  obtain ⟨s, hs, hrun⟩ := hrun
  rw [run_cons, Option.bind_eq_some_iff] at hrun
  obtain ⟨t, ht, hrun⟩ := hrun
  exact ⟨s, t, u, ⟨s₀, as, h₀, hs⟩, ht, hrun, h⟩

/-- The two-state induction.  `I` is preserved by every step, and under `I`
every step moves along the preorder `R`; then so does every run. -/
theorem run_rel {I : σ → Prop} {R : σ → σ → Prop}
    (refl : ∀ s, R s s) (trans : ∀ {s t u}, R s t → R t u → R s u)
    (inv : ∀ s a t, I s → m.step s a = some t → I t)
    (step : ∀ s a t, I s → m.step s a = some t → R s t)
    {s t : σ} {as : List α} (hs : I s) (h : m.run s as = some t) :
    I t ∧ R s t := by
  induction as generalizing s with
  | nil =>
      rw [← Option.some.inj h]
      exact ⟨hs, refl s⟩
  | cons a as ih =>
      rw [run_cons, Option.bind_eq_some_iff] at h
      obtain ⟨u, hu, h⟩ := h
      obtain ⟨ht, hr⟩ := ih (inv s a u hs hu) h
      exact ⟨ht, trans (step s a u hs hu) hr⟩

/-- A predicate that holds initially and is preserved by every step. -/
structure Invariant (m : Machine σ α) (I : σ → Prop) : Prop where
  init : ∀ s, m.init s → I s
  step : ∀ s a t, I s → m.step s a = some t → I t

theorem Invariant.run {I : σ → Prop} (hI : m.Invariant I)
    {s t : σ} {as : List α} (hs : I s) (h : m.run s as = some t) : I t :=
  (run_rel (R := fun _ _ => True) (fun _ => trivial) (fun _ _ => trivial) hI.step
    (fun _ _ _ _ _ => trivial) hs h).1

theorem Invariant.reachable {I : σ → Prop}
    (hI : m.Invariant I) {s : σ} (h : m.Reachable s) : I s := by
  obtain ⟨s₀, as, h₀, ha⟩ := h
  exact hI.run (hI.init s₀ h₀) ha

/-! ## Runs whose steps meet a condition -/

/-- The machine with only the steps that meet `ok`. -/
def restrict (m : Machine σ α) (ok : σ → α → Prop) [∀ s a, Decidable (ok s a)] :
    Machine σ α where
  init := m.init
  step s a := if ok s a then m.step s a else none

theorem restrict_step {ok : σ → α → Prop}
    [∀ s a, Decidable (ok s a)] {s t : σ} {a : α} :
    (m.restrict ok).step s a = some t ↔ ok s a ∧ m.step s a = some t := by
  simp [restrict]

theorem restrict_reachable {ok : σ → α → Prop}
    [∀ s a, Decidable (ok s a)] {s : σ} (h : (m.restrict ok).Reachable s) :
    m.Reachable s := by
  obtain ⟨s₀, as, h₀, ha⟩ := h
  refine ⟨s₀, as, h₀, ?_⟩
  clear h₀
  induction as generalizing s₀ with
  | nil => exact ha
  | cons a as ih =>
      rw [run_cons, Option.bind_eq_some_iff] at ha ⊢
      obtain ⟨t, ht, ha⟩ := ha
      exact ⟨t, (restrict_step.mp ht).2, ih t ha⟩

/-! ## History variables -/

/-- The machine with a history variable: `record` says what each step adds to
it.  The steps are the same, so every run of the machine is a run with its
history. -/
def withHistory {γ : Type w} (m : Machine σ α) (h₀ : γ) (record : σ → α → σ → γ → γ) :
    Machine (σ × γ) α where
  init p := m.init p.1 ∧ p.2 = h₀
  step p a := (m.step p.1 a).map fun t => (t, record p.1 a t p.2)

theorem withHistory_step {γ : Type w} {h₀ : γ} {record : σ → α → σ → γ → γ}
    {p q : σ × γ} {a : α} : (m.withHistory h₀ record).step p a = some q ↔
      ∃ t, m.step p.1 a = some t ∧ q = (t, record p.1 a t p.2) := by
  show (m.step p.1 a).map _ = some q ↔ _
  rw [Option.map_eq_some_iff]
  exact exists_congr fun t => and_congr_right fun _ => eq_comm

/-- An invariant of the machine holds where its steps are restricted. -/
theorem Invariant.restrict {I : σ → Prop} (hI : m.Invariant I)
    (ok : σ → α → Prop) [∀ s a, Decidable (ok s a)] : (m.restrict ok).Invariant I where
  init := hI.init
  step s a t hs h := hI.step s a t hs (restrict_step.mp h).2

end Machine
