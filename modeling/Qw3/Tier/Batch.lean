import Mathlib.Algebra.GroupWithZero.Nat
import Qw3.Tier.CopyUp

/-!
# The groups of a batch

A batch is cut into groups of spans that follow each other in the file and in the
buffer; a group is one positional call.  What the loop decides depends on the
batch only, not on the bytes.

* `Batch` — what the loop looks at; `Arena.batch` — of an arena and a buffer.
* `Batch.Joined` — the spans after the first one of a group.
* `Batch.Slips` — the batches at which the loop looks outside `overlay_valid_` or
  leaves the buffer.
* `lookahead_joined`, `lookahead_cases` — the lookahead is the end of a group.
-/

namespace Qw3.Tier

/-- What the loop over the groups looks at. -/
structure Batch where
  slotBytes : ℕ
  slotCount : ℕ
  bufferBytes : ℕ
  /-- `overlay_valid_` is read. -/
  guarded : Bool
  fd : NvmeIoSpan → Fd
  /-- The file has the bytes of a span. -/
  stored : NvmeIoSpan → Bool

namespace Batch

variable (g : Batch)

/-- The slot of a span is one of the arena's. -/
def HasSlot (sp : NvmeIoSpan) : Prop := 0 ≤ sp.slot ∧ sp.slot < g.slotCount

/-- A span lies in the buffer. -/
def InBuffer (sp : NvmeIoSpan) : Prop := sp.bufferOffset + sp.bytes ≤ g.bufferBytes

/-- A valid span. -/
def Valid (sp : NvmeIoSpan) : Prop := g.HasSlot sp ∧ sp.bytes ≤ g.slotBytes ∧ g.InBuffer sp

/-- A span that the tests of the loop let through. -/
def Accepts (sp : NvmeIoSpan) : Prop :=
  g.HasSlot sp ∧ sp.bytes ≤ g.slotBytes ∧ (sp.bufferOffset + sp.bytes) % 2 ^ 64 ≤ g.bufferBytes

/-- The state of a slot is looked up that does not exist. -/
def Outside (sp : NvmeIoSpan) : Prop := g.guarded = true ∧ ¬ g.HasSlot sp

/-- A span follows another one in the file and in the buffer. -/
def Joins (prev next : NvmeIoSpan) : Prop :=
  next.slot = prev.slot + 1 ∧ prev.bytes = g.slotBytes ∧
    next.bufferOffset = (prev.bufferOffset + prev.bytes) % 2 ^ 64 ∧ g.fd next = g.fd prev

/-- The bytes of spans. -/
def total (spans : List NvmeIoSpan) : ℕ := (spans.map NvmeIoSpan.bytes).sum

/-- Spans that join a group that ends with `prev`. -/
def Joined : NvmeIoSpan → List NvmeIoSpan → Prop
  | _, [] => True
  | prev, next :: rest => g.Joins prev next ∧ g.Accepts next ∧ Joined next rest

/-- The group that begins with `first` ends before `rest`. -/
def Ends (first : NvmeIoSpan) (joined rest : List NvmeIoSpan) : Prop :=
  ∀ next ∈ rest.head?, ¬ g.Joins (joined.getLastD first) next

/-- A span that is transferred. -/
def Transfers (sp : NvmeIoSpan) : Prop := g.InBuffer sp ∧ g.stored sp = true

/-- Every group before is transferred, and then: a span after the current group
names no slot although the state of its slot is looked up, or the current group
leaves the buffer. -/
inductive Slips : List NvmeIoSpan → Prop
  | outside (first : NvmeIoSpan) (joined : List NvmeIoSpan) (next : NvmeIoSpan)
      (after : List NvmeIoSpan) (hfirst : g.Accepts first) (hjoined : g.Joined first joined)
      (hnext : g.Outside next) : Slips (first :: (joined ++ next :: after))
  | leaves (first : NvmeIoSpan) (joined after : List NvmeIoSpan) (hfirst : g.Accepts first)
      (hjoined : g.Joined first joined) (hends : g.Ends first joined after) (sp : NvmeIoSpan)
      (hmem : sp ∈ first :: joined) (hout : ¬ g.InBuffer sp) : Slips (first :: (joined ++ after))
  | later (first : NvmeIoSpan) (joined after : List NvmeIoSpan) (hfirst : g.Accepts first)
      (hjoined : g.Joined first joined) (hends : g.Ends first joined after)
      (hall : ∀ sp ∈ first :: joined, g.Transfers sp) (hafter : Slips after) :
      Slips (first :: (joined ++ after))

variable {g}

theorem Valid.accepts {sp : NvmeIoSpan} (h : g.Valid sp) : g.Accepts sp :=
  ⟨h.1, h.2.1, Nat.le_trans (Nat.mod_le ..) h.2.2⟩

theorem Accepts.not_outside {sp : NvmeIoSpan} (h : g.Accepts sp) : ¬ g.Outside sp :=
  fun ho => ho.2 h.1

theorem Joined.accepts {prev : NvmeIoSpan} {joined : List NvmeIoSpan} (h : g.Joined prev joined) :
    ∀ sp ∈ joined, g.Accepts sp := by
  induction joined generalizing prev with
  | nil =>
      intro sp hsp
      cases hsp
  | cons next rest ih =>
      intro sp hsp
      rcases List.mem_cons.mp hsp with rfl | hsp
      · exact h.2.1
      · exact ih h.2.2 sp hsp

/-- A group lies in the buffer as its spans do. -/
theorem Joined.inBuffer_iff (hsmall : g.bufferBytes < 2 ^ 64) {prev : NvmeIoSpan}
    {joined : List NvmeIoSpan} (h : g.Joined prev joined) :
    prev.bufferOffset + prev.bytes + total joined ≤ g.bufferBytes ↔
      ∀ sp ∈ prev :: joined, g.InBuffer sp := by
  induction joined generalizing prev with
  | nil => simp [total, InBuffer]
  | cons next rest ih =>
      obtain ⟨⟨-, -, hoffset, -⟩, -, hrest⟩ := h
      have htotal : total (next :: rest) = next.bytes + total rest := rfl
      rw [List.forall_mem_cons, ← ih hrest, htotal]
      unfold InBuffer
      -- Within the buffer the offsets do not wrap.
      constructor
      · intro hle
        rw [Nat.mod_eq_of_lt (by omega)] at hoffset
        omega
      · rintro ⟨hprev, hle⟩
        rw [Nat.mod_eq_of_lt (by omega)] at hoffset
        omega

/-- A batch of valid spans does not slip through. -/
theorem not_slips_of_valid {spans : List NvmeIoSpan} (h : ∀ sp ∈ spans, g.Valid sp) :
    ¬ g.Slips spans := by
  intro hslips
  induction hslips with
  | outside first joined next after _ _ hnext =>
      exact hnext.2 (h next (List.mem_cons_of_mem _ (List.mem_append_right _ List.mem_cons_self))).1
  | leaves first joined after _ _ _ sp hmem hout =>
      rw [← List.cons_append] at h
      exact hout (h sp (List.mem_append_left _ hmem)).2.2
  | later first joined after _ _ _ _ _ ih =>
      exact ih fun sp hsp => h sp (List.mem_cons_of_mem _ (List.mem_append_right _ hsp))

end Batch

namespace Arena

/-- The batch of an arena and a buffer. -/
def batch (a : Arena) (buf : Buffer) (op : IoOp) : Batch where
  slotBytes := a.slotBytes
  slotCount := a.slotCount
  bufferBytes := buf.memory.length
  guarded := decide (op = .read) && a.overlay.isSome
  fd := a.spanFd buf op
  stored sp :=
    match op with
    | .write => true
    | .read =>
        decide ((a.file (a.readFd sp.slot.toNat)).Covers (a.slotOffset sp.slot.toNat) sp.bytes)

section Lookahead

variable {a : Arena} {buf : Buffer} {op : IoOp} {first prev : NvmeIoSpan} {merged : ℕ}

theorem checkSpan_eq_ok {sp : NvmeIoSpan} :
    a.checkSpan buf op sp = .ok () ↔ (a.batch buf op).Accepts sp := by
  unfold checkSpan validateSlotIo validateIo exceedsBuffer Batch.Accepts Batch.HasSlot
  by_cases hcount : a.slotCount = 0
  · simp only [Except.bind, batch, hcount]
    constructor
    · intro h
      cases h
    · intro h
      omega
  · rw [if_neg hcount]
    by_cases hbytes : a.slotBytes < sp.bytes
    · simp only [if_pos hbytes, Except.bind, batch]
      constructor
      · intro h
        cases h
      · intro h
        omega
    · by_cases hslot : a.HasSlot sp.slot
      · simp only [if_neg hbytes, if_pos hslot, Except.bind, batch, decide_eq_true_eq]
        split_ifs with hexceeds
        · constructor
          · intro h
            cases h
          · intro h
            omega
        · exact ⟨fun _ => ⟨hslot, by omega, by omega⟩, fun _ => rfl⟩
      · simp only [if_neg hbytes, if_neg hslot, Except.bind, batch]
        constructor
        · intro h
          cases h
        · intro h
          exact absurd h.1 hslot

theorem outside_iff {sp : NvmeIoSpan} :
    (op = .read ∧ a.overlay.isSome = true ∧ ¬ a.HasSlot sp.slot) ↔ (a.batch buf op).Outside sp := by
  unfold Batch.Outside batch
  rw [Bool.and_eq_true, decide_eq_true_eq, and_assoc]
  rfl

/-- The end of a group as the lookahead counts it: `merged` bytes from `first` on
end with `prev`. -/
structure GroupEnd (a : Arena) (buf : Buffer) (op : IoOp) (first prev : NvmeIoSpan)
    (merged : ℕ) : Prop where
  offset : (first.bufferOffset + merged) % 2 ^ 64 = (prev.bufferOffset + prev.bytes) % 2 ^ 64
  fd : a.spanFd buf op prev = a.spanFd buf op first

theorem GroupEnd.single (a : Arena) (buf : Buffer) (op : IoOp) (first : NvmeIoSpan) :
    GroupEnd a buf op first first first.bytes := ⟨rfl, rfl⟩

theorem GroupEnd.joins_iff (h : GroupEnd a buf op first prev merged) {next : NvmeIoSpan} :
    (next.slot = prev.slot + 1 ∧ prev.bytes = a.slotBytes ∧
      next.bufferOffset = (first.bufferOffset + merged) % 2 ^ 64 ∧
      a.spanFd buf op next = a.spanFd buf op first) ↔ (a.batch buf op).Joins prev next := by
  rw [h.offset, ← h.fd]
  rfl

theorem GroupEnd.next (h : GroupEnd a buf op first prev merged) {next : NvmeIoSpan}
    (hj : (a.batch buf op).Joins prev next) : GroupEnd a buf op first next (merged + next.bytes) := by
  obtain ⟨-, -, hoffset, hfd⟩ := hj
  constructor
  · rw [hoffset, Nat.mod_add_mod, ← Nat.add_assoc, Nat.add_mod, h.offset, ← Nat.add_mod]
  · exact hfd.trans h.fd

/-- The lookahead ends where the group ends. -/
theorem lookahead_joined {joined rest : List NvmeIoSpan} (h : GroupEnd a buf op first prev merged)
    (hjoined : (a.batch buf op).Joined prev joined) (hends : (a.batch buf op).Ends prev joined rest)
    (hinside : ∀ next ∈ rest.head?, ¬ (a.batch buf op).Outside next) :
    a.lookahead buf op first merged prev (joined ++ rest) =
      .ok (merged + Batch.total joined, rest) := by
  induction joined generalizing prev merged with
  | nil =>
      cases rest with
      | nil => rfl
      | cons next rest =>
          rw [List.nil_append, lookahead, if_neg (mt outside_iff.mp (hinside next rfl)),
            if_neg (mt h.joins_iff.mp (hends next rfl))]
          rfl
  | cons next more ih =>
      obtain ⟨hj, haccepts, hmore⟩ := hjoined
      rw [List.cons_append, lookahead, if_neg (mt outside_iff.mp haccepts.not_outside),
        if_pos (h.joins_iff.mpr hj), checkSpan_eq_ok.mpr haccepts]
      have htotal : merged + Batch.total (next :: more) = merged + next.bytes + Batch.total more :=
        (Nat.add_assoc ..).symm
      rw [htotal]
      apply ih (h.next hj) hmore
      intro x hx
      have := hends x hx
      rwa [List.getLastD_cons] at this

/-- A lookahead that looks outside. -/
theorem lookahead_outside {joined after : List NvmeIoSpan} {next : NvmeIoSpan}
    (h : GroupEnd a buf op first prev merged) (hjoined : (a.batch buf op).Joined prev joined)
    (hnext : (a.batch buf op).Outside next) :
    a.lookahead buf op first merged prev (joined ++ next :: after) =
      .error (.indexedOutside next.slot) := by
  induction joined generalizing prev merged with
  | nil => rw [List.nil_append, lookahead, if_pos (outside_iff.mpr hnext)]
  | cons x more ih =>
      obtain ⟨hj, haccepts, hmore⟩ := hjoined
      rw [List.cons_append, lookahead, if_neg (mt outside_iff.mp haccepts.not_outside),
        if_pos (h.joins_iff.mpr hj), checkSpan_eq_ok.mpr haccepts]
      exact ih (h.next hj) hmore

/-- What a lookahead can end with. -/
inductive LooksAhead (g : Batch) (prev : NvmeIoSpan) (merged : ℕ) (spans : List NvmeIoSpan) :
    Except Stop (ℕ × List NvmeIoSpan) → Prop
  | ends (joined rest : List NvmeIoSpan) (hspans : spans = joined ++ rest)
      (hjoined : g.Joined prev joined) (hends : g.Ends prev joined rest)
      (hinside : ∀ next ∈ rest.head?, ¬ g.Outside next) :
      LooksAhead g prev merged spans (.ok (merged + Batch.total joined, rest))
  | outside (joined after : List NvmeIoSpan) (next : NvmeIoSpan)
      (hspans : spans = joined ++ next :: after) (hjoined : g.Joined prev joined)
      (hnext : g.Outside next) :
      LooksAhead g prev merged spans (.error (.indexedOutside next.slot))
  | refused (e : IoError) (sp : NvmeIoSpan) (hmem : sp ∈ spans) (hsp : ¬ g.Accepts sp) :
      LooksAhead g prev merged spans (.error (.threw e))

theorem lookahead_cases {spans : List NvmeIoSpan} (h : GroupEnd a buf op first prev merged) :
    LooksAhead (a.batch buf op) prev merged spans (a.lookahead buf op first merged prev spans) := by
  induction spans generalizing prev merged with
  | nil =>
      refine .ends [] [] rfl trivial ?_ ?_
      · intro next hnext
        cases hnext
      · intro next hnext
        cases hnext
  | cons next rest ih =>
      unfold lookahead
      by_cases hout : op = .read ∧ a.overlay.isSome = true ∧ ¬ a.HasSlot next.slot
      · rw [if_pos hout]
        exact .outside [] rest next rfl trivial (outside_iff.mp hout)
      · rw [if_neg hout]
        by_cases hjoins : next.slot = prev.slot + 1 ∧ prev.bytes = a.slotBytes ∧
            next.bufferOffset = (first.bufferOffset + merged) % 2 ^ 64 ∧
            a.spanFd buf op next = a.spanFd buf op first
        · rw [if_pos hjoins]
          have hj := h.joins_iff.mp hjoins
          cases hcheck : a.checkSpan buf op next with
          | error e =>
              refine .refused e next List.mem_cons_self ?_
              intro haccepts
              rw [checkSpan_eq_ok.mpr haccepts] at hcheck
              cases hcheck
          | ok u =>
              have haccepts := checkSpan_eq_ok.mp hcheck
              dsimp only
              generalize hmore : a.lookahead buf op first (merged + next.bytes) next rest = r
              have ih := hmore ▸ ih (h.next hj)
              cases ih with
              | ends joined rest' hspans hjoined hends hinside =>
                  rw [Nat.add_assoc]
                  refine .ends (next :: joined) rest' (by rw [hspans]; rfl) ⟨hj, haccepts, hjoined⟩
                    ?_ hinside
                  intro x hx
                  rw [List.getLastD_cons]
                  exact hends x hx
              | outside joined after bad hspans hjoined hbad =>
                  exact .outside (next :: joined) after bad (by rw [hspans]; rfl)
                    ⟨hj, haccepts, hjoined⟩ hbad
              | refused e sp hmem hsp => exact .refused e sp (List.mem_cons_of_mem _ hmem) hsp
        · rw [if_neg hjoins]
          refine .ends [] (next :: rest) rfl trivial ?_ ?_
          · intro x hx
            obtain rfl : next = x := Option.some.inj hx
            exact mt h.joins_iff.mpr hjoins
          · intro x hx
            obtain rfl : next = x := Option.some.inj hx
            exact mt outside_iff.mpr hout

end Lookahead

end Arena

end Qw3.Tier
