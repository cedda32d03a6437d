import Mathlib.Data.List.Basic
import Mathlib.Data.List.Nodup
import Mathlib.Logic.Function.Basic

/-!
# Slots handed out to keys

A fixed set of slots.  A slot is free or owned by one key, and the owners are
kept in the order they were last used in, so that the coldest one can be
replaced when no slot is free.

* `SlotPool.take`, `SlotPool.release`, `SlotPool.replace`, `SlotPool.touch` —
  the operations.
* `SlotPool.Partition` — the free and the owned slots are the given ones, each
  once.
* `SlotPool.Recency` — the recency list is the owners, each once.  `touch` keeps
  it for an owner, and only for an owner (`recency_touch`).
-/

universe u v

/-- Slots, their owners and the owners by recency. -/
structure SlotPool (κ : Type u) (σ : Type v) where
  /-- The free slots; the first is the next to be handed out. -/
  free : List σ
  owner : κ → Option σ
  /-- The least recently used key first. -/
  recent : List κ

namespace SlotPool

variable {κ : Type u} {σ : Type v} [DecidableEq κ]

/-- All slots free. -/
def initial (slots : List σ) : SlotPool κ σ := ⟨slots, fun _ => none, []⟩

/-- A key becomes the most recently used. -/
def touch (p : SlotPool κ σ) (k : κ) : SlotPool κ σ :=
  { p with recent := p.recent.erase k ++ [k] }

/-- A key leaves the recency list. -/
def eraseRecent (p : SlotPool κ σ) (k : κ) : SlotPool κ σ := { p with recent := p.recent.erase k }

/-- A key takes the next free slot. -/
def take (p : SlotPool κ σ) (k : κ) : Option (σ × SlotPool κ σ) :=
  match p.free with
  | [] => none
  | slot :: rest =>
      some (slot, touch { p with free := rest, owner := Function.update p.owner k (some slot) } k)

/-- A key gives its slot back. -/
def release (p : SlotPool κ σ) (k : κ) : SlotPool κ σ :=
  match p.owner k with
  | none => p
  | some slot =>
      eraseRecent { p with free := slot :: p.free, owner := Function.update p.owner k none } k

/-- A key takes over the slot of another one. -/
def replace (p : SlotPool κ σ) (victim k : κ) (slot : σ) : SlotPool κ σ :=
  let cleared := eraseRecent { p with owner := Function.update p.owner victim none } victim
  touch { cleared with owner := Function.update cleared.owner k (some slot) } k

theorem update_some_eq_some {f : κ → Option σ} {k l : κ} {slot s : σ} :
    Function.update f k (some slot) l = some s ↔ l = k ∧ s = slot ∨ l ≠ k ∧ f l = some s := by
  rcases eq_or_ne l k with rfl | hne
  · simp [eq_comm]
  · simp [hne]

theorem update_none_eq_some {f : κ → Option σ} {k l : κ} {s : σ} :
    Function.update f k none l = some s ↔ l ≠ k ∧ f l = some s := by
  rcases eq_or_ne l k with rfl | hne
  · simp
  · simp [hne]

@[simp] theorem touch_owner (p : SlotPool κ σ) (k : κ) : (p.touch k).owner = p.owner := rfl

@[simp] theorem touch_free (p : SlotPool κ σ) (k : κ) : (p.touch k).free = p.free := rfl

@[simp] theorem replace_free (p : SlotPool κ σ) (victim k : κ) (slot : σ) :
    (p.replace victim k slot).free = p.free := rfl

theorem replace_owner (p : SlotPool κ σ) (victim k : κ) (slot : σ) :
    (p.replace victim k slot).owner =
      Function.update (Function.update p.owner victim none) k (some slot) := rfl

/-- A slot that is taken was the first free one. -/
theorem take_eq_some {p q : SlotPool κ σ} {k : κ} {slot : σ} (h : p.take k = some (slot, q)) :
    p.free = slot :: q.free ∧ q.owner = Function.update p.owner k (some slot) ∧
      q.recent = p.recent.erase k ++ [k] := by
  unfold take at h
  split at h
  · cases h
  · next s rest hfree =>
      obtain ⟨rfl, rfl⟩ := Prod.mk.inj (Option.some.inj h)
      exact ⟨hfree, rfl, rfl⟩

theorem take_eq_none {p : SlotPool κ σ} {k : κ} : p.take k = none ↔ p.free = [] := by
  unfold take
  split <;> simp [*]

theorem release_of_none {p : SlotPool κ σ} {k : κ} (h : p.owner k = none) : p.release k = p := by
  simp [release, h]

theorem release_of_some {p : SlotPool κ σ} {k : κ} {slot : σ} (h : p.owner k = some slot) :
    p.release k = ⟨slot :: p.free, Function.update p.owner k none, p.recent.erase k⟩ := by
  simp [release, h, eraseRecent]

theorem release_owner (p : SlotPool κ σ) (k : κ) :
    (p.release k).owner = Function.update p.owner k none := by
  cases h : p.owner k with
  | none => rw [release_of_none h, ← h, Function.update_eq_self]
  | some slot => rw [release_of_some h]

/-! ## Every slot has one place -/

/-- The free and the owned slots are the given ones, each once. -/
structure Partition (slots : List σ) (p : SlotPool κ σ) : Prop where
  nodup : p.free.Nodup
  unique : ∀ {k l slot}, p.owner k = some slot → p.owner l = some slot → k = l
  apart : ∀ {k slot}, p.owner k = some slot → slot ∉ p.free
  mem_iff : ∀ slot, slot ∈ slots ↔ slot ∈ p.free ∨ ∃ k, p.owner k = some slot

section Partition

variable {slots : List σ} {p q : SlotPool κ σ} {k l : κ} {slot : σ}

omit [DecidableEq κ] in
theorem Partition.initial (h : slots.Nodup) : Partition slots (initial slots : SlotPool κ σ) where
  nodup := h
  unique h _ := by cases h
  apart h := by cases h
  mem_iff slot := by simp [SlotPool.initial]

omit [DecidableEq κ] in
/-- Only the free slots and the owners matter. -/
theorem Partition.congr (h : Partition slots p) (hfree : q.free = p.free)
    (howner : q.owner = p.owner) : Partition slots q := by
  constructor
  · rw [hfree]
    exact h.nodup
  · rw [howner]
    exact h.unique
  · rw [howner, hfree]
    exact h.apart
  · rw [howner, hfree]
    exact h.mem_iff

theorem Partition.touch (h : Partition slots p) (k : κ) : Partition slots (p.touch k) :=
  h.congr rfl rfl

omit [DecidableEq κ] in
theorem Partition.owned_mem (h : Partition slots p) (hk : p.owner k = some slot) :
    slot ∈ slots := (h.mem_iff slot).mpr (.inr ⟨k, hk⟩)

/-- Taking a slot moves it from the free ones to an owner. -/
theorem Partition.take (h : Partition slots p) (hk : p.owner k = none)
    (ht : p.take k = some (slot, q)) : Partition slots q := by
  obtain ⟨hfree, howner, -⟩ := take_eq_some ht
  obtain ⟨hslot, hnodup⟩ := List.nodup_cons.mp (hfree ▸ h.nodup)
  have hmem : slot ∈ p.free := hfree ▸ List.mem_cons_self
  -- An owner of the slot that was free can only be the new one.
  have howned : ∀ {l s}, q.owner l = some s → l = k ∧ s = slot ∨ l ≠ k ∧ p.owner l = some s := by
    intro l s hl
    exact update_some_eq_some.mp (howner ▸ hl)
  constructor
  · exact hnodup
  · intro l m s hl hm
    rcases howned hl with ⟨rfl, rfl⟩ | ⟨-, hl'⟩ <;> rcases howned hm with ⟨rfl, hs⟩ | ⟨-, hm'⟩
    · rfl
    · exact absurd hmem (h.apart hm')
    · exact absurd (hs ▸ hmem) (h.apart hl')
    · exact h.unique hl' hm'
  · intro l s hl
    rcases howned hl with ⟨rfl, rfl⟩ | ⟨-, hl'⟩
    · exact hslot
    · intro hs
      exact h.apart hl' (hfree ▸ List.mem_cons_of_mem _ hs)
  · intro s
    rw [h.mem_iff, hfree, List.mem_cons, howner]
    constructor
    · rintro ((rfl | hs) | ⟨l, hl⟩)
      · exact .inr ⟨k, Function.update_self ..⟩
      · exact .inl hs
      · refine .inr ⟨l, ?_⟩
        rwa [Function.update_of_ne]
        rintro rfl
        rw [hk] at hl
        cases hl
    · rintro (hs | ⟨l, hl⟩)
      · exact .inl (.inr hs)
      · rcases howned (howner ▸ hl) with ⟨-, rfl⟩ | ⟨-, hl'⟩
        · exact .inl (.inl rfl)
        · exact .inr ⟨l, hl'⟩

/-- Releasing one moves it back. -/
theorem Partition.release (h : Partition slots p) (k : κ) : Partition slots (p.release k) := by
  cases hk : p.owner k with
  | none => rwa [release_of_none hk]
  | some slot =>
      rw [release_of_some hk]
      constructor
      · exact List.nodup_cons.mpr ⟨h.apart hk, h.nodup⟩
      · intro l m s hl hm
        exact h.unique (update_none_eq_some.mp hl).2 (update_none_eq_some.mp hm).2
      · intro l s hl hs
        obtain ⟨hne, hl'⟩ := update_none_eq_some.mp hl
        rcases List.mem_cons.mp hs with rfl | hs
        · exact hne (h.unique hl' hk)
        · exact h.apart hl' hs
      · intro s
        rw [h.mem_iff, List.mem_cons]
        constructor
        · rintro (hs | ⟨l, hl⟩)
          · exact .inl (.inr hs)
          · rcases eq_or_ne l k with rfl | hne
            · rw [hk] at hl
              exact .inl (.inl (Option.some.inj hl).symm)
            · exact .inr ⟨l, update_none_eq_some.mpr ⟨hne, hl⟩⟩
        · rintro ((rfl | hs) | ⟨l, hl⟩)
          · exact .inr ⟨k, hk⟩
          · exact .inl hs
          · exact .inr ⟨l, (update_none_eq_some.mp hl).2⟩

/-- Replacing an owner keeps its slot in use. -/
theorem Partition.replace (h : Partition slots p) {victim : κ} (hk : p.owner k = none)
    (hv : p.owner victim = some slot) : Partition slots (p.replace victim k slot) := by
  have howned : ∀ {l s}, (p.replace victim k slot).owner l = some s →
      l = k ∧ s = slot ∨ l ≠ victim ∧ p.owner l = some s := by
    intro l s hl
    rw [replace_owner, update_some_eq_some, update_none_eq_some] at hl
    exact hl.imp_right And.right
  constructor
  · exact h.nodup
  · intro l m s hl hm
    rcases howned hl with ⟨rfl, rfl⟩ | ⟨hlv, hl'⟩ <;> rcases howned hm with ⟨rfl, hs⟩ | ⟨hmv, hm'⟩
    · rfl
    · exact absurd (h.unique hm' hv) hmv
    · exact absurd (h.unique (hs ▸ hl') hv) hlv
    · exact h.unique hl' hm'
  · intro l s hl
    rcases howned hl with ⟨rfl, rfl⟩ | ⟨-, hl'⟩
    · exact h.apart hv
    · exact h.apart hl'
  · intro s
    rw [h.mem_iff, replace_free]
    apply or_congr_right
    constructor
    · rintro ⟨l, hl⟩
      rcases eq_or_ne l victim with rfl | hne
      · rw [hv] at hl
        obtain rfl := Option.some.inj hl
        exact ⟨k, by rw [replace_owner, Function.update_self]⟩
      · refine ⟨l, ?_⟩
        have hlk : l ≠ k := by
          rintro rfl
          rw [hk] at hl
          cases hl
        rwa [replace_owner, Function.update_of_ne hlk, Function.update_of_ne hne]
    · rintro ⟨l, hl⟩
      rcases howned hl with ⟨-, rfl⟩ | ⟨-, hl'⟩
      · exact ⟨victim, hv⟩
      · exact ⟨l, hl'⟩

end Partition

/-! ## The recency list is the owners -/

/-- The recency list holds the owners of slots, each once. -/
structure Recency (p : SlotPool κ σ) : Prop where
  nodup : p.recent.Nodup
  mem_iff : ∀ k, k ∈ p.recent ↔ p.owner k ≠ none

section Recency

variable {slots : List σ} {p q : SlotPool κ σ} {k : κ} {slot : σ}

omit [DecidableEq κ] in
theorem Recency.initial : Recency (initial slots : SlotPool κ σ) where
  nodup := List.nodup_nil
  mem_iff k := by simp [SlotPool.initial]

theorem nodup_erase_append {l : List κ} (h : l.Nodup) (k : κ) : (l.erase k ++ [k]).Nodup := by
  rw [← List.concat_eq_append, List.nodup_concat]
  exact ⟨h.not_mem_erase, h.erase k⟩

theorem mem_erase_append {l : List κ} (h : l.Nodup) (k x : κ) :
    x ∈ l.erase k ++ [k] ↔ x = k ∨ x ∈ l := by
  rw [List.mem_append, List.mem_singleton, h.mem_erase_iff]
  tauto

/-- A touch of an owner keeps the list, and one of any other key breaks it. -/
theorem recency_touch (h : Recency p) (k : κ) : Recency (p.touch k) ↔ p.owner k ≠ none := by
  constructor
  · intro h'
    exact (h'.mem_iff k).mp (List.mem_append_right _ (List.mem_singleton_self k))
  · intro hk
    constructor
    · exact nodup_erase_append h.nodup k
    · intro l
      show l ∈ p.recent.erase k ++ [k] ↔ _
      rw [mem_erase_append h.nodup, h.mem_iff, touch_owner]
      constructor
      · rintro (rfl | hl)
        · exact hk
        · exact hl
      · exact .inr

/-- The new owner is the most recent. -/
theorem Recency.take (h : Recency p) (ht : p.take k = some (slot, q)) : Recency q := by
  obtain ⟨-, howner, hrecent⟩ := take_eq_some ht
  constructor
  · rw [hrecent]
    exact nodup_erase_append h.nodup k
  · intro l
    rw [hrecent, mem_erase_append h.nodup, h.mem_iff, howner]
    rcases eq_or_ne l k with rfl | hne
    · simp
    · simp [hne]

/-- A former owner is listed no longer. -/
theorem Recency.release (h : Recency p) (k : κ) : Recency (p.release k) := by
  cases hk : p.owner k with
  | none => rwa [release_of_none hk]
  | some slot =>
      rw [release_of_some hk]
      constructor
      · exact h.nodup.erase k
      · intro l
        show l ∈ p.recent.erase k ↔ Function.update p.owner k none l ≠ none
        rw [h.nodup.mem_erase_iff, h.mem_iff]
        rcases eq_or_ne l k with rfl | hne
        · simp
        · simp [hne]

/-- The victim goes and the new owner comes last. -/
theorem Recency.replace (h : Recency p) {victim : κ} (hk : p.owner k = none) (slot : σ) :
    Recency (p.replace victim k slot) := by
  have hnodup := h.nodup.erase victim
  constructor
  · exact nodup_erase_append hnodup k
  · intro l
    show l ∈ (p.recent.erase victim).erase k ++ [k] ↔ _
    rw [mem_erase_append hnodup, h.nodup.mem_erase_iff, h.mem_iff, replace_owner]
    rcases eq_or_ne l k with rfl | hne
    · simp
    · rcases eq_or_ne l victim with rfl | hvne
      · simp [hne]
      · simp [hne, hvne]

omit [DecidableEq κ] in
/-- The first key of the list owns a slot. -/
theorem Recency.head_owner (h : Recency p) {victim : κ} {rest : List κ}
    (hl : p.recent = victim :: rest) : ∃ slot, p.owner victim = some slot :=
  Option.ne_none_iff_exists'.mp ((h.mem_iff victim).mp (hl ▸ List.mem_cons_self))

omit [DecidableEq κ] in
/-- With no free slot and a slot at all, some key can be replaced. -/
theorem Recency.ne_nil (h : Recency p) (hp : Partition slots p) (hfree : p.free = [])
    (hslots : slots ≠ []) : p.recent ≠ [] := by
  obtain ⟨slot, hs⟩ := List.exists_mem_of_ne_nil slots hslots
  rw [hp.mem_iff, hfree] at hs
  rcases hs with hs | ⟨k, hk⟩
  · cases hs
  · have hmem : k ∈ p.recent := (h.mem_iff k).mpr (by simp [hk])
    exact List.ne_nil_of_mem hmem

end Recency

end SlotPool
