import Mathlib.Data.List.Pairwise
import Mathlib.Order.Basic
import Mathlib.Order.Defs.LinearOrder
import Mathlib.Order.Lattice

/-!
# Ordered maps as sorted lists

An ordered map with unique keys, iterated in key order.  The entries carry the
proof that they are sorted, so two entries of one map with one key are equal.

* `lookup`, `insert`, `erase` — an insertion at a present key does nothing.
* `lowerBound` — the entries from a key on.
* `floor` — the entries from the last one not above a key on; where there is
  none, all entries.  This is the iterator `upper_bound` stepped back once,
  unless it already was the first.
* `below` — the map without the entries from a key on.
-/

universe u v

/-- A finite map as its list of entries in key order. -/
structure OrdMap (κ : Type u) (α : Type v) [LinearOrder κ] where
  entries : List (κ × α)
  sorted : entries.Pairwise fun p q => p.1 < q.1

namespace OrdMap

variable {κ : Type u} {α : Type v} [LinearOrder κ]

/-- The map without entries. -/
def empty : OrdMap κ α := ⟨[], List.Pairwise.nil⟩

/-- The value at a key. -/
def lookup (m : OrdMap κ α) (k : κ) : Option α :=
  (m.entries.find? fun p => p.1 = k).map Prod.snd

theorem eq_of_mem_sorted {l : List (κ × α)} (hl : l.Pairwise fun p q => p.1 < q.1)
    {p q : κ × α} (hp : p ∈ l) (hq : q ∈ l) (h : p.1 = q.1) : p = q := by
  induction l with
  | nil => exact absurd hp List.not_mem_nil
  | cons r rest ih =>
      obtain ⟨hr, hrest⟩ := List.pairwise_cons.mp hl
      rcases List.mem_cons.mp hp with hpr | hpr
      · rcases List.mem_cons.mp hq with hqr | hqr
        · rw [hpr, hqr]
        · exact absurd (hr q hqr) (by rw [← hpr, h]; exact lt_irrefl _)
      · rcases List.mem_cons.mp hq with hqr | hqr
        · exact absurd (hr p hpr) (by rw [← hqr, h]; exact lt_irrefl _)
        · exact ih hrest hpr hqr

variable {m : OrdMap κ α}

theorem eq_of_mem {p q : κ × α} (hp : p ∈ m.entries) (hq : q ∈ m.entries)
    (h : p.1 = q.1) : p = q :=
  eq_of_mem_sorted m.sorted hp hq h

theorem lookup_eq_some {k : κ} {a : α} :
    m.lookup k = some a ↔ (k, a) ∈ m.entries := by
  unfold lookup
  rw [Option.map_eq_some_iff]
  constructor
  · rintro ⟨p, hp, rfl⟩
    have hkey : p.1 = k := by simpa using List.find?_some hp
    rw [← hkey]
    exact List.mem_of_find?_eq_some hp
  · intro hmem
    have hsome : (m.entries.find? fun p => p.1 = k).isSome := by
      rw [List.find?_isSome]
      exact ⟨_, hmem, by simp⟩
    obtain ⟨p, hp⟩ := Option.isSome_iff_exists.mp hsome
    refine ⟨p, hp, ?_⟩
    have hkey : p.1 = k := by simpa using List.find?_some hp
    rw [eq_of_mem (List.mem_of_find?_eq_some hp) hmem hkey]

theorem lookup_eq_none {k : κ} :
    m.lookup k = none ↔ ∀ a, (k, a) ∉ m.entries := by
  rw [Option.eq_none_iff_forall_not_mem]
  exact forall_congr' fun a => not_congr lookup_eq_some

/-! ## Insertion and removal -/

/-- Insert into a sorted list, before the first larger key. -/
def insertEntry (p : κ × α) : List (κ × α) → List (κ × α)
  | [] => [p]
  | q :: rest => if p.1 < q.1 then p :: q :: rest else q :: insertEntry p rest

theorem mem_insertEntry {p q : κ × α} {l : List (κ × α)} :
    q ∈ insertEntry p l ↔ q = p ∨ q ∈ l := by
  induction l with
  | nil => simp [insertEntry]
  | cons r rest ih =>
      unfold insertEntry
      split_ifs
      · rw [List.mem_cons]
      · rw [List.mem_cons, ih, List.mem_cons, or_left_comm]

variable {p : κ × α}

theorem insertEntry_sorted {l : List (κ × α)}
    (hl : l.Pairwise fun p q => p.1 < q.1) (hp : ∀ q ∈ l, q.1 ≠ p.1) :
    (insertEntry p l).Pairwise fun p q => p.1 < q.1 := by
  induction l with
  | nil => exact List.pairwise_singleton _ _
  | cons r rest ih =>
      obtain ⟨hr, hrest⟩ := List.pairwise_cons.mp hl
      unfold insertEntry
      split_ifs with hlt
      · refine List.pairwise_cons.mpr ⟨fun q hq => ?_, hl⟩
        rcases List.mem_cons.mp hq with rfl | hq
        · exact hlt
        · exact hlt.trans (hr q hq)
      · refine List.pairwise_cons.mpr
          ⟨fun q hq => ?_, ih hrest fun q hq => hp q (List.mem_cons_of_mem _ hq)⟩
        rcases mem_insertEntry.mp hq with rfl | hq
        · exact lt_of_le_of_ne (not_lt.mp hlt) (hp r List.mem_cons_self)
        · exact hr q hq

/-- Insert a value at a key that is not there; a present key is left alone. -/
def insert (m : OrdMap κ α) (k : κ) (a : α) : OrdMap κ α :=
  if h : m.lookup k = none then
    ⟨insertEntry (k, a) m.entries, insertEntry_sorted m.sorted fun q hq hk =>
      lookup_eq_none.mp h q.2 (by rw [show k = q.1 from hk.symm]; exact hq)⟩
  else m

theorem mem_insert {k : κ} (h : m.lookup k = none) {a : α} :
    p ∈ (m.insert k a).entries ↔ p = (k, a) ∨ p ∈ m.entries := by
  rw [insert, dif_pos h]
  exact mem_insertEntry

/-- The map without a key. -/
def erase (m : OrdMap κ α) (k : κ) : OrdMap κ α :=
  ⟨m.entries.filter fun p => p.1 ≠ k, m.sorted.filter _⟩

theorem mem_erase {k : κ} :
    p ∈ (m.erase k).entries ↔ p ∈ m.entries ∧ p.1 ≠ k := by
  simp [erase]

/-! ## Bounds -/

/-- The entries from a key on, in key order. -/
def lowerBound (m : OrdMap κ α) (k : κ) : List (κ × α) := m.entries.filter fun p => k ≤ p.1

/-- The map without the entries from a key on. -/
def below (m : OrdMap κ α) (k : κ) : OrdMap κ α :=
  ⟨m.entries.filter fun p => p.1 < k, m.sorted.filter _⟩

/-- The entries from the last one not above a key on, or all entries where
there is none. -/
def floor (m : OrdMap κ α) (k : κ) : List (κ × α) :=
  match (m.entries.filter fun p => p.1 ≤ k).getLast? with
  | some p => m.lowerBound p.1
  | none => m.entries

theorem mem_lowerBound {k : κ} :
    p ∈ m.lowerBound k ↔ p ∈ m.entries ∧ k ≤ p.1 := by
  simp [lowerBound]

theorem lowerBound_sorted (m : OrdMap κ α) (k : κ) :
    (m.lowerBound k).Pairwise fun p q => p.1 < q.1 := m.sorted.filter _

theorem mem_below {k : κ} :
    p ∈ (m.below k).entries ↔ p ∈ m.entries ∧ p.1 < k := by
  simp [below]

theorem mem_of_mem_floor {k : κ} (h : p ∈ m.floor k) :
    p ∈ m.entries := by
  unfold floor at h
  split at h
  · exact (mem_lowerBound.mp h).1
  · exact h

/-- Where a last entry not above the key is known. -/
theorem floor_eq {k : κ} (hp : p ∈ m.entries) (hle : p.1 ≤ k)
    (hlast : ∀ q ∈ m.entries, q.1 ≤ k → q.1 ≤ p.1) : m.floor k = m.lowerBound p.1 := by
  have hmem : p ∈ m.entries.filter fun q => q.1 ≤ k :=
    List.mem_filter.mpr ⟨hp, decide_eq_true hle⟩
  unfold floor
  split
  · next q hq =>
    obtain ⟨hin, hqle⟩ := List.mem_filter.mp (List.mem_of_getLast? hq)
    have hpq : p.1 ≤ q.1 := by
      obtain ⟨l, hl⟩ := List.getLast?_eq_some_iff.mp hq
      have hsorted : (l ++ [q]).Pairwise fun a b => a.1 < b.1 := hl ▸ m.sorted.filter _
      rw [hl] at hmem
      rcases List.mem_append.mp hmem with hmem | hmem
      · exact ((List.pairwise_append.mp hsorted).2.2 p hmem q List.mem_cons_self).le
      · rw [List.mem_singleton.mp hmem]
    rw [le_antisymm hpq (hlast q hin (of_decide_eq_true hqle))]
  · next hnone =>
    rw [List.getLast?_eq_none_iff.mp hnone] at hmem
    exact absurd hmem List.not_mem_nil

theorem floor_sorted (m : OrdMap κ α) (k : κ) :
    (m.floor k).Pairwise fun p q => p.1 < q.1 := by
  unfold floor
  split
  · exact lowerBound_sorted m _
  · exact m.sorted

end OrdMap
