import Mathlib.Algebra.Group.Even
import Mathlib.Algebra.Ring.Parity
import Mathlib.Data.Nat.Basic
import Mathlib.Logic.Function.Basic

/-!
# Versioned records

A record of separately stored cells behind a version counter.  The one writer
makes the version odd, stores cells, and makes it even again; a reader loads
the version, refuses an odd one, loads the cells one at a time, and accepts
what it collected if the version is still the same.

* `SeqLock` — the version and the cells; `bump` and `store` are the
  writer's accesses.
* `Reader` — a read in progress; `start`, `load`, and `Accepts`.
* `Reader.Tracks` — what a read in progress knows, kept by every access of the
  writer; `Reader.Tracks.cells_eq` is the conclusion: an accepted read is the
  whole record of one instant at which no write was in progress.
-/

universe u v

/-- A record of cells behind a version counter. -/
structure SeqLock (κ : Type u) (α : Type v) where
  version : ℕ
  cells : κ → α

namespace SeqLock

variable {κ : Type u} {α : Type v}

/-- The writer's first and last access: the version becomes odd, or even
again. -/
def bump (l : SeqLock κ α) : SeqLock κ α := { l with version := l.version + 1 }

/-- One cell is stored. -/
def store [DecidableEq κ] (l : SeqLock κ α) (k : κ) (x : α) : SeqLock κ α :=
  { l with cells := Function.update l.cells k x }

@[simp] theorem bump_version (l : SeqLock κ α) : l.bump.version = l.version + 1 := rfl
@[simp] theorem bump_cells (l : SeqLock κ α) : l.bump.cells = l.cells := rfl
@[simp] theorem store_version [DecidableEq κ] (l : SeqLock κ α) (k : κ) (x : α) :
    (l.store k x).version = l.version := rfl

/-! ## Readers -/

/-- A read in progress: the version it started at, the cells collected, and the
cells still to load. -/
structure Reader (κ : Type u) (α : Type v) where
  version : ℕ
  values : κ → α
  todo : List κ

namespace Reader

/-- The load of the version; `blank` is the record the cells go into. -/
def start (l : SeqLock κ α) (blank : κ → α) (fields : List κ) : Reader κ α :=
  ⟨l.version, blank, fields⟩

/-- The load of the next cell. -/
def load [DecidableEq κ] (r : Reader κ α) (l : SeqLock κ α) (k : κ) (rest : List κ) : Reader κ α :=
  { r with values := Function.update r.values k (l.cells k), todo := rest }

/-- The version, and the cells already loaded, are those of an instant not
later than now; as long as the version is unchanged they are the present
ones. -/
structure Tracks (r : Reader κ α) (l : SeqLock κ α) : Prop where
  even : Even r.version
  le : r.version ≤ l.version
  cells : l.version = r.version → ∀ k ∉ r.todo, r.values k = l.cells k

theorem Tracks.start {l : SeqLock κ α} (h : Even l.version) (blank : κ → α) {fields : List κ}
    (hall : ∀ k, k ∈ fields) : (Reader.start l blank fields).Tracks l where
  even := h
  le := le_rfl
  cells _ k hk := absurd (hall k) hk

theorem Tracks.load [DecidableEq κ] {r : Reader κ α} {l : SeqLock κ α} {k : κ} {rest : List κ}
    (hr : r.Tracks l) (htodo : r.todo = k :: rest) : (r.load l k rest).Tracks l where
  even := hr.even
  le := hr.le
  cells hv j hj := by
    by_cases hjk : j = k
    · subst hjk
      simp [Reader.load]
    · have hmem : j ∉ r.todo := by
        rw [htodo, List.mem_cons, not_or]
        exact ⟨hjk, hj⟩
      simpa [Reader.load, hjk] using hr.cells hv j hmem

/-- A write that opens or closes makes every reader of the old version
refuse. -/
theorem Tracks.bump {r : Reader κ α} {l : SeqLock κ α} (hr : r.Tracks l) :
    r.Tracks l.bump where
  even := hr.even
  le := Nat.le_succ_of_le hr.le
  cells hv := by
    have hle := hr.le
    rw [bump_version] at hv
    omega

/-- A cell is stored only while the version is odd, so no reader of an even
version minds. -/
theorem Tracks.store [DecidableEq κ] {r : Reader κ α} {l : SeqLock κ α} (hr : r.Tracks l)
    (hodd : Odd l.version) (k : κ) (x : α) : r.Tracks (l.store k x) where
  even := hr.even
  le := hr.le
  cells hv := by
    have heven : Even l.version := hv ▸ hr.even
    exact absurd hodd (Nat.not_odd_iff_even.mpr heven)

/-- The last access of a read: it is accepted. -/
def Accepts (r : Reader κ α) (l : SeqLock κ α) : Prop := r.todo = [] ∧ l.version = r.version

theorem Tracks.cells_eq {r : Reader κ α} {l : SeqLock κ α} (hr : r.Tracks l)
    (ha : r.Accepts l) : l.version = r.version ∧ l.cells = r.values ∧ Even l.version := by
  refine ⟨ha.2, funext fun k => ?_, ha.2 ▸ hr.even⟩
  rw [hr.cells ha.2 k (by rw [ha.1]; exact List.not_mem_nil)]

end Reader

end SeqLock
