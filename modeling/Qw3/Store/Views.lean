import Qw3.Lib.Ranges
import Qw3.Store.Bounded

/-!
# What an append shows its executor

The views of an open append: the leases under its writes, the spans of a part of
it, and the pages that a rejected suffix leaves behind.

* `Append.ioLeases`, `Append.storageWrite`, `Append.discardedPageRanges`.
* `State.AppendOk.partition` — the spans cut the append's interval.
* `State.AppendOk.span`, `State.AppendOk.eq_of_slot` — each lies in its slot, and
  no slot has two.
-/

namespace Qw3.Store

open Qw3.Repository (KvMemBlockHandle Record Repo)

/-! ## The views -/

/-- The exceptions of the views. -/
inductive ViewError
  | appendFinished | outsideAppend | invalidPageCleanup
  deriving DecidableEq, Repr

namespace Append

variable (a : Append)

/-- `RepositoryAppend::io_leases`: the tail's lease and those of the reservations. -/
def ioLeases : List KvMemBlockHandle := (a.tail.map Span.handle).toList ++ a.reserved.map Span.handle

/-- The lease of the span `i`: `tail_`, or the reservation with the index of the
span among the new blocks. -/
def leaseAt (i : ℕ) : Option KvMemBlockHandle :=
  if a.tail.isSome ∧ i = 0 then a.tail.map Span.handle
  else (a.reserved[i - if a.tail.isSome then 1 else 0]?).map Span.handle

/-- What of a span lies between two history positions. -/
def clip (start stop : ℕ) (sp : Span) : Option Span :=
  let first := max start sp.historyBegin
  let last := min stop (sp.historyBegin + sp.tokenCount)
  if last ≤ first then none
  else some ⟨first, sp.storageBegin + (first - sp.historyBegin), last - first, sp.handle⟩

/-- `RepositoryAppend::storage_write(begin, count)`: spans with the handles of
their leases. -/
def storageWrite (start count : ℕ) : Except ViewError (List (Span × Option KvMemBlockHandle)) :=
  if start < a.begin ∨ a.begin + a.count < start ∨ a.begin + a.count - start < count then
    throw .outsideAppend
  else if count = 0 then pure []
  else
    pure (a.spans.zipIdx.filterMap fun e =>
      (clip start (start + count) e.1).map fun sp => (sp, a.leaseAt e.2))

/-- `first` in the loop of `discarded_page_ranges`: the page after the last one
that holds something of the span to keep. -/
def discardedFrom (keptEnd pageSize : ℕ) (sp : Span) : ℕ :=
  State.ceilDiv (sp.storageBegin + if sp.historyBegin < keptEnd then keptEnd - sp.historyBegin else 0)
    pageSize

/-- `last` in the loop of `discarded_page_ranges`: the page after the span. -/
def discardedTo (pageSize : ℕ) (sp : Span) : ℕ :=
  State.ceilDiv (sp.storageBegin + sp.tokenCount) pageSize

/-- `RepositoryAppend::discarded_page_ranges(accepted, page_size)`. -/
def discardedPageRanges (blockTokens accepted pageSize : ℕ) :
    Except ViewError (List IndexRange) :=
  if a.count < accepted ∨ pageSize = 0 ∨ blockTokens % pageSize ≠ 0 then throw .invalidPageCleanup
  else
    let keptEnd := a.begin + accepted
    pure (IndexRange.pushAll (discardedFrom keptEnd pageSize) (discardedTo pageSize)
      (a.spans.filter fun sp => keptEnd < sp.historyBegin + sp.tokenCount))

end Append

namespace State

variable (s : State)

/-- `io_leases` of the open append. -/
def ioLeases : Except ViewError (List KvMemBlockHandle) :=
  match s.append with
  | none => throw .appendFinished
  | some a => pure a.ioLeases

/-- `storage_write` of the open append. -/
def storageWrite (start count : ℕ) : Except ViewError (List (Span × Option KvMemBlockHandle)) :=
  match s.append with
  | none => throw .outsideAppend
  | some a => a.storageWrite start count

/-- `discarded_page_ranges` of the open append. -/
def discardedPageRanges (accepted pageSize : ℕ) : Except ViewError (List IndexRange) :=
  match s.append with
  | none => throw .invalidPageCleanup
  | some a => a.discardedPageRanges s.config.blockTokens accepted pageSize

end State

/-! ## The spans of an append -/

/-- New blocks cut their interval. -/
theorem Laid.partition {b stop pos : ℕ} {l : List Span} (hb : 0 < b) (h : Laid b stop pos l)
    (hle : pos ≤ stop) : Partition pos stop l := by
  induction l generalizing pos with
  | nil => exact Nat.le_antisymm hle h
  | cons sp rest ih =>
      obtain ⟨hlt, hbegin, -, hcount, hrest⟩ := h
      refine ⟨hbegin, by omega, by omega, ?_⟩
      rcases Nat.le_total (pos + b) stop with hfull | hlast
      · have hall : sp.tokenCount = b := by omega
        rw [hall]
        exact ih hrest hfull
      · -- The last block: none follows it.
        have hend : pos + sp.tokenCount = stop := by omega
        rw [hend]
        cases rest with
        | nil => rfl
        | cons sp' rest => exact absurd hrest.1 (not_lt.mpr hlast)

/-- Each position of a partition is in one of its spans. -/
theorem Partition.covers {start stop p : ℕ} {l : List Span} (h : Partition start stop l)
    (hstart : start ≤ p) (hstop : p < stop) : ∃ sp ∈ l, sp.Covers p := by
  induction l generalizing start with
  | nil =>
      have heq : start = stop := h
      omega
  | cons sp rest ih =>
      obtain ⟨hbegin, -, -, hrest⟩ := h
      by_cases hp : p < start + sp.tokenCount
      · refine ⟨sp, List.mem_cons_self, ?_⟩
        unfold Span.Covers
        omega
      · obtain ⟨q, hq, hcovers⟩ := ih hrest (not_lt.mp hp)
        exact ⟨q, List.mem_cons_of_mem _ hq, hcovers⟩

/-- The spans of a partition stay inside it. -/
theorem Partition.within {start stop : ℕ} {l : List Span} (h : Partition start stop l) {sp : Span}
    (hsp : sp ∈ l) :
    start ≤ sp.historyBegin ∧ 0 < sp.tokenCount ∧ sp.historyBegin + sp.tokenCount ≤ stop := by
  induction l generalizing start with
  | nil => cases hsp
  | cons q rest ih =>
      obtain ⟨hbegin, hpos, hle, hrest⟩ := h
      rcases List.mem_cons.mp hsp with rfl | hsp
      · exact ⟨by omega, hpos, by omega⟩
      · obtain ⟨hlow, hfacts⟩ := ih hrest hsp
        exact ⟨by omega, hfacts⟩

/-- Where a span of an append lies in its slot: behind what the slot holds. -/
structure State.SpanAt (s : State) (a : Append) (offset : ℕ) (sp : Span) : Prop where
  storageBegin : sp.storageBegin = sp.handle.slot * s.config.blockTokens + offset
  fits : offset + sp.tokenCount ≤ s.config.blockTokens
  tail : offset ≠ 0 → a.tail = some sp
  tokens : ∀ tl, a.tail = some tl → tl = sp → (s.blocks sp.handle.slot).nTokens = offset ∧
    (s.blocks sp.handle.slot).origPosStart = sp.handle.slot * s.config.blockTokens

namespace State.AppendOk

variable {s : State} {a : Append}

/-- **The spans cut the append's interval.** -/
theorem partition (h : s.AppendOk a) (hb : 0 < s.config.blockTokens) :
    Partition a.begin (a.begin + a.count) a.spans := by
  have hpos := h.count_pos
  unfold Append.spans
  cases htail : a.tail with
  | none =>
      have hfirst : firstBlock s.config.blockTokens a.begin = a.begin := if_pos (h.tail_none htail)
      have hlaid := h.laid
      rw [hfirst] at hlaid
      exact hlaid.partition hb (Nat.le_add_right ..)
  | some sp =>
      have hsp := h.tail_some sp htail
      have htake := add_tailTake hb a.begin a.count
      have hlt := Nat.mod_lt a.begin hb
      have hpositive : 0 < sp.tokenCount := by
        rw [hsp.tokenCount, State.tailTake, if_neg hsp.offset]
        omega
      rw [← hsp.tokenCount] at htake
      refine ⟨hsp.historyBegin, hpositive, by omega, ?_⟩
      rw [htake]
      rcases Nat.le_total (firstBlock s.config.blockTokens a.begin) (a.begin + a.count) with hle | hle
      · rw [min_eq_right hle]
        exact h.laid.partition hb hle
      · rw [min_eq_left hle]
        show Partition (a.begin + a.count) (a.begin + a.count) a.reserved
        rw [h.reserved_eq_nil hle]
        rfl

/-- The tail's block is not one of the new blocks. -/
theorem tail_slot_ne (h : s.AppendOk a) {G : Placement} {limit : ℕ} (hdir : s.Directory G limit)
    {tl sp : Span} (htl : a.tail = some tl) (hsp : sp ∈ a.reserved) :
    tl.handle.slot ≠ sp.handle.slot := by
  intro heq
  have htail := h.tail_some tl htl
  have hreserved := h.reserved sp hsp
  have hrecord := htail.record
  rw [heq, hreserved.record] at hrecord
  have hgeneration := (hdir.entry _ htail.entry).generation
  have hlt := hreserved.generation
  dsimp only at hrecord hgeneration
  rw [heq, ← hrecord] at hgeneration
  omega

theorem slots_nodup (h : s.AppendOk a) {G : Placement} {limit : ℕ} (hdir : s.Directory G limit) :
    (a.spans.map fun sp => sp.handle.slot).Nodup := by
  unfold Append.spans
  cases htail : a.tail with
  | none => exact h.nodup
  | some tl =>
      refine List.nodup_cons.mpr ⟨?_, h.nodup⟩
      intro hmem
      obtain ⟨sp, hsp, heq⟩ := List.mem_map.mp hmem
      exact h.tail_slot_ne hdir htail hsp heq.symm

theorem eq_of_slot (h : s.AppendOk a) {G : Placement} {limit : ℕ} (hdir : s.Directory G limit)
    {sp sp' : Span} (hsp : sp ∈ a.spans) (hsp' : sp' ∈ a.spans)
    (heq : sp.handle.slot = sp'.handle.slot) : sp = sp' :=
  List.inj_on_of_nodup_map (h.slots_nodup hdir) hsp hsp' heq

/-- **Where a span lies in its slot.** -/
theorem span (h : s.AppendOk a) (hb : 0 < s.config.blockTokens) {G : Placement} {limit : ℕ}
    (hdir : s.Directory G limit) {sp : Span} (hsp : sp ∈ a.spans) :
    ∃ offset, s.SpanAt a offset sp := by
  unfold Append.spans at hsp
  rcases List.mem_append.mp hsp with hsp | hsp
  · have htl : a.tail = some sp := by simpa using hsp
    have htail := h.tail_some sp htl
    refine ⟨a.begin % s.config.blockTokens, htail.storageBegin, ?_, fun _ => htl, ?_⟩
    · have hmod := Nat.mod_lt a.begin hb
      rw [htail.tokenCount, State.tailTake, if_neg htail.offset]
      omega
    · intro _ _ _
      exact ⟨htail.nTokens, (hdir.entry _ htail.entry).origin⟩
  · obtain ⟨-, -, -, hstorage, hcount⟩ := h.laid.mem (firstBlock_dvd _ _) hsp
    refine ⟨0, hstorage, by omega, fun hne => absurd rfl hne, ?_⟩
    rintro tl htl rfl
    exact absurd rfl (h.tail_slot_ne hdir htl hsp)

end State.AppendOk

end Qw3.Store
