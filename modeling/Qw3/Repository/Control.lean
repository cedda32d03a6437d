import Mathlib.Data.Nat.Basic
import Mathlib.Tactic.Ring

/-!
# The control word of a repository slot

`kvmem_repository.cpp` keeps the phase of a slot and its lease count in one
64-bit word, so that retirement and pin acquisition are decided by a single
compare-exchange: four phase bits above sixty reference bits.

`Control` is the decoded word.  Its count carries the bound that makes the
packing exact, so a `Control` can never overflow into the phase bits: to compare,
increment or decrement words is to compare and update `Control`s, and the packed
word itself is not modelled.
-/

namespace Qw3.Repository

/-- `phase_shift`. -/
def phaseShift : ℕ := 60

/-- `ref_mask`. -/
def refMask : ℕ := 2 ^ phaseShift - 1

/-- `UINT32_MAX`. -/
def uint32Max : ℕ := 2 ^ 32 - 1

/-- `UINT64_MAX`. -/
def uint64Max : ℕ := 2 ^ 64 - 1

/-- `enum class Phase`. -/
inductive Phase
  | free | writing | live | retired | releasing | cancelled
  deriving DecidableEq, Repr

/-- A decoded control word. -/
structure Control where
  phase : Phase
  refs : ℕ
  refs_le : refs ≤ refMask
  deriving DecidableEq

attribute [ext] Control

namespace Control

/-- `state(Phase::Free)`. -/
def free : Control := ⟨.free, 0, Nat.zero_le _⟩

/-- `state(Phase::Releasing)`. -/
def releasing : Control := ⟨.releasing, 0, Nat.zero_le _⟩

/-- `state(p, 1)`. -/
def single (p : Phase) : Control := ⟨p, 1, by decide⟩

/-- `state(p, refs(prior))`. -/
def withPhase (c : Control) (p : Phase) : Control := ⟨p, c.refs, c.refs_le⟩

/-- `prior + 1`, which `acquire` refuses at `ref_mask`. -/
def incr (c : Control) (h : c.refs ≠ refMask) : Control :=
  ⟨c.phase, c.refs + 1, by have := c.refs_le; omega⟩

/-- `fetch_sub(1)` of a word that counts at least one reference. -/
def decr (c : Control) : Control := ⟨c.phase, c.refs - 1, by have := c.refs_le; omega⟩

@[simp] theorem free_phase : free.phase = .free := rfl
@[simp] theorem free_refs : free.refs = 0 := rfl
@[simp] theorem releasing_phase : releasing.phase = .releasing := rfl
@[simp] theorem releasing_refs : releasing.refs = 0 := rfl
@[simp] theorem single_phase (p : Phase) : (single p).phase = p := rfl
@[simp] theorem single_refs (p : Phase) : (single p).refs = 1 := rfl
@[simp] theorem withPhase_phase (c : Control) (p : Phase) : (c.withPhase p).phase = p := rfl
@[simp] theorem withPhase_refs (c : Control) (p : Phase) : (c.withPhase p).refs = c.refs := rfl
@[simp] theorem incr_phase (c : Control) (h : c.refs ≠ refMask) :
    (c.incr h).phase = c.phase := rfl
@[simp] theorem incr_refs (c : Control) (h : c.refs ≠ refMask) :
    (c.incr h).refs = c.refs + 1 := rfl
@[simp] theorem decr_phase (c : Control) : c.decr.phase = c.phase := rfl
@[simp] theorem decr_refs (c : Control) : c.decr.refs = c.refs - 1 := rfl

end Control

/-- The test of `acquire(control, existing)`: a new pin needs a live slot, an
existing lease may be cloned in any phase a lease can see. -/
def Acquirable (existing : Bool) (prior : Control) : Prop :=
  (existing = true → prior.refs ≠ 0 ∧ prior.phase ≠ .free ∧ prior.phase ≠ .releasing) ∧
    (existing = false → prior.phase = .live) ∧ prior.refs ≠ refMask

instance (existing : Bool) (prior : Control) : Decidable (Acquirable existing prior) :=
  inferInstanceAs (Decidable (_ ∧ _ ∧ _))

/-- One round of `acquire(control, existing)` on the loaded word: the word to
exchange for it, or `none` where the loop returns `false`. -/
def acquire (existing : Bool) (prior : Control) : Option Control :=
  if h : Acquirable existing prior then some (prior.incr h.2.2) else none

theorem acquire_eq_some {existing : Bool} {prior next : Control}
    (h : acquire existing prior = some next) :
    Acquirable existing prior ∧ next.phase = prior.phase ∧ next.refs = prior.refs + 1 := by
  simp only [acquire, Option.dite_none_right_eq_some, Option.some.injEq] at h
  obtain ⟨hprior, rfl⟩ := h
  exact ⟨hprior, rfl, rfl⟩

end Qw3.Repository
