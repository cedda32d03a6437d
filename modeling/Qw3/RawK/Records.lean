import Qw3.RawK.Writeback

/-!
# The records of the staging slots

What a call may do to the records that it is not about: it leaves a record as it is,
or it completes it.

* `Ordered` — the invariant: what is staged is pending and the other way round, a
  task that is in flight has its future, and a slot that is not empty can be
  submitted.
* `Frame` — what a call leaves of the records of the state before.
* `Dead` — a slot is in flight, and nobody can take its result any more.
-/

namespace Qw3.RawK.Writeback

open Qw3.Store (Span)
open Qw3.Repository (KvMemBlockHandle)

/-- Whether `kvmem_repository_raw_chunk_read` accepts a chunk. -/
def Config.Readable (c : Config) (x : ℕ) : Prop :=
  c.chunkTokens / c.blockTokens ≠ 0 ∧ x * (c.chunkTokens / c.blockTokens) < c.blockCount

/-- The staging slots and the vectors agree. -/
structure Ordered (c : Config) (s : State) : Prop where
  future : ∀ i, (s.slots i).inFlight = true → (s.slots i).future = true
  staged_iff : ∀ x i, s.chunkSlot x = some i ↔ x ∈ (s.slots i).chunks
  pending_iff : ∀ x, s.writePending x = true ↔ (s.chunkSlot x).isSome
  used_iff : ∀ i, (s.slots i).usedBytes = 0 ↔ (s.slots i).chunks = []
  submittable : ∀ i, (s.slots i).chunks ≠ [] → (s.slots i).host = true ∧ (s.slots i).spans ≠ []
  current : ∀ i, ∀ span ∈ (s.slots i).capture,
    s.storageGeneration span.handle.slot = span.handle.generation
  readable : ∀ i, ∀ x ∈ (s.slots i).chunks, c.Readable x

variable {c : Config}

theorem Ordered.pending_of_staged {s : State} (h : Ordered c s) {x : ℕ} {i : Fin 2}
    (hx : x ∈ (s.slots i).chunks) : s.writePending x = true := by
  rw [h.pending_iff, (h.staged_iff x i).mpr hx]
  rfl

theorem Ordered.not_pending {s : State} (h : Ordered c s) {x : ℕ}
    (hx : s.writePending x = false) : s.chunkSlot x = none := by
  rw [← Option.not_isSome_iff_eq_none, ← h.pending_iff, hx]
  exact Bool.false_ne_true

/-- A slot whose task has no future any more. -/
def Dead (s : State) : Prop := ∃ i, (s.slots i).inFlight = true ∧ (s.slots i).future = false

/-! ## What is left of a record -/

/-- The flags of a chunk and of its blocks are the same. -/
def FlagsEq (c : Config) (x : ℕ) (s t : State) : Prop :=
  ∀ m, t.backed m x = s.backed m x ∧ t.dirty m x = s.dirty m x ∧
    ∀ b < c.blocksPerChunk, t.blockBacked m (x * c.blocksPerChunk + b) = s.blockBacked m (x * c.blocksPerChunk + b)

/-- A slot has what it had, and perhaps more. -/
structure Extends (a b : Slot) : Prop where
  chunks : a.chunks <+: b.chunks
  spans : a.spans <+: b.spans
  leases : a.leases <+: b.leases
  capture : a.capture.Subperm b.capture
  inFlight : a.inFlight = true → b.inFlight = true

/-- A record is where it was, with all that belongs to it. -/
structure Held (x : ℕ) (s t : State) : Prop where
  slot_eq : t.chunkSlot x = s.chunkSlot x
  offset_eq : t.chunkOffset x = s.chunkOffset x
  ready_eq : t.ready x = s.ready x
  held : ∀ i, s.chunkSlot x = some i → Extends (s.slots i) (t.slots i)

/-- A record is left alone. -/
structure Untouched (c : Config) (x : ℕ) (s t : State) : Prop where
  pending_eq : t.writePending x = s.writePending x
  flags : FlagsEq c x s t
  held : s.writePending x = true → Held x s t

/-- A record is completed. -/
def Completed (x : ℕ) (s t : State) : Prop := s.writePending x = true ∧ t.writePending x = false

/-- Every record but `new` is left alone or completed. -/
def Frame (c : Config) (new : ℕ → Prop) (s t : State) : Prop :=
  ∀ x, ¬ new x → Untouched c x s t ∨ Completed x s t

theorem FlagsEq.refl {x : ℕ} {s : State} : FlagsEq c x s s := fun _ => ⟨rfl, rfl, fun _ _ => rfl⟩

theorem FlagsEq.trans {x : ℕ} {s t u : State} (h : FlagsEq c x s t) (h' : FlagsEq c x t u) :
    FlagsEq c x s u := fun m =>
  ⟨(h' m).1.trans (h m).1, (h' m).2.1.trans (h m).2.1, fun b hb => ((h' m).2.2 b hb).trans ((h m).2.2 b hb)⟩

theorem Extends.refl (a : Slot) : Extends a a := ⟨List.prefix_rfl, List.prefix_rfl, List.prefix_rfl, .refl _, id⟩

theorem Extends.trans {a b d : Slot} (h : Extends a b) (h' : Extends b d) : Extends a d :=
  ⟨h.chunks.trans h'.chunks, h.spans.trans h'.spans, h.leases.trans h'.leases, h.capture.trans h'.capture,
    h'.inFlight ∘ h.inFlight⟩

theorem Held.trans {x : ℕ} {s t u : State} (h : Held x s t) (h' : Held x t u) : Held x s u where
  slot_eq := h'.slot_eq.trans h.slot_eq
  offset_eq := h'.offset_eq.trans h.offset_eq
  ready_eq := h'.ready_eq.trans h.ready_eq
  held i hi := (h.held i hi).trans (h'.held i (h.slot_eq.trans hi))

theorem Untouched.refl {x : ℕ} {s : State} : Untouched c x s s :=
  ⟨rfl, .refl, fun _ => ⟨rfl, rfl, rfl, fun _ _ => .refl _⟩⟩

theorem Untouched.trans {x : ℕ} {s t u : State} (h : Untouched c x s t) (h' : Untouched c x t u) :
    Untouched c x s u where
  pending_eq := h'.pending_eq.trans h.pending_eq
  flags := h.flags.trans h'.flags
  held hx := (h.held hx).trans (h'.held (h.pending_eq.trans hx))

theorem Frame.refl {new : ℕ → Prop} {s : State} : Frame c new s s := fun _ _ => .inl .refl

theorem Frame.trans {new : ℕ → Prop} {s t u : State} (h : Frame c new s t) (h' : Frame c new t u) :
    Frame c new s u := by
  intro x hx
  rcases h x hx with hst | ⟨hs, ht⟩
  · rcases h' x hx with htu | ⟨ht, hu⟩
    · exact .inl (hst.trans htu)
    · exact .inr ⟨hst.pending_eq.symm.trans ht, hu⟩
  · -- What is completed is not staged again.
    refine .inr ⟨hs, ?_⟩
    rcases h' x hx with htu | ⟨ht', -⟩
    · exact htu.pending_eq.trans ht
    · rw [ht] at ht'
      cases ht'

theorem Frame.mono {new : ℕ → Prop} {s t : State} (h : Frame c (fun _ => False) s t) :
    Frame c new s t := fun x _ => h x not_false

/-- A record that was not staged is not completed. -/
theorem Frame.flags_of_not_pending {new : ℕ → Prop} {s t : State} (h : Frame c new s t) {x : ℕ}
    (hx : ¬ new x) (hp : s.writePending x = false) : FlagsEq c x s t ∧ t.writePending x = false := by
  rcases h x hx with hu | ⟨hs, -⟩
  · exact ⟨hu.flags, hu.pending_eq.trans hp⟩
  · rw [hp] at hs
    cases hs

/-! ## The slots -/

section Slots

variable {s : State} {i j : Fin 2} {f : Slot → Slot}

@[simp] theorem setSlot_self : (s.setSlot i f).slots i = f (s.slots i) := Function.update_self ..

theorem setSlot_ne (h : j ≠ i) : (s.setSlot i f).slots j = s.slots j := Function.update_of_ne h ..

theorem setBits_ne (c : Config) (bits : Bool → ℕ → Bool) {x y : ℕ} (h : y ≠ x) (a b : Bool) (m : Bool) :
    State.setBits c bits x a b m y = bits m y := by
  cases m with
  | false => exact Function.update_of_ne h ..
  | true =>
      show (if c.mtp then Function.update (bits true) x b else bits true) y = _
      split_ifs
      · exact Function.update_of_ne h ..
      · rfl

/-- Blocks of different chunks are different. -/
theorem mem_blocksOf {x id : ℕ} (h : id ∈ c.blocksOf x) :
    ∃ b < c.blocksPerChunk, id = x * c.blocksPerChunk + b := by
  obtain ⟨hle, hlt⟩ := List.mem_range'_1.mp h
  refine ⟨id - x * c.blocksPerChunk, ?_, (Nat.add_sub_cancel' hle).symm⟩
  omega

theorem block_ne {n x y b d : ℕ} (hxy : y ≠ x) (hb : b < n) (hd : d < n) : y * n + b ≠ x * n + d := by
  intro heq
  have hdiv := congrArg (· / n) heq
  rw [Nat.mul_comm y, Nat.mul_comm x, Nat.mul_add_div (Nat.zero_lt_of_lt hb), Nat.mul_add_div (Nat.zero_lt_of_lt hb),
    Nat.div_eq_of_lt hb, Nat.div_eq_of_lt hd] at hdiv
  exact hxy hdiv

end Slots

end Qw3.RawK.Writeback
