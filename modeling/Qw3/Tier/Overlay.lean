import Qw3.Lib.Machine
import Qw3.Tier.CopyUp

/-!
# The copy-on-write overlay

The writes of a session that is attached to a sealed archive go to an overlay; the
archive is never changed.  A slot keeps its base record until an overlay record
is complete.

* `Mirrors` — the arena reads as the base file with the bytes written so far.
* `WriteOk` — a write of a whole slot, of a slot that has an overlay record, or of
  one that the base file has.
* `overlayCopyOnWrite` — the runs of such writes; `overlayCopyOnWrite_appended` —
  the others fail.
-/

namespace Qw3.Tier.Arena

/-! ## What the arena reads -/

/-- The bytes that were written, by slot and place in the slot. -/
abbrev Written := ℕ → ℕ → Option UInt8

/-- A range of a slot is written. -/
def Written.patch (w : Written) (slot offset : ℕ) (data : List UInt8) : Written :=
  Function.update w slot fun i => (if offset ≤ i then data[i - offset]? else none).or (w slot i)

/-- The arena reads as the base file with the written bytes on top. -/
structure Mirrors (base : File) (w : Written) (a : Arena) : Prop where
  base_eq : a.base = base
  overlay : a.overlay.isSome
  slot : ∀ n < a.slotCount,
    (a.overlayValid n = .base ∧ ∀ i, w n i = none) ∨
    (a.overlayValid n = .valid ∧ a.slotOffset n + a.slotBytes ≤ (a.file .overlay).length ∧
      ∀ i < a.slotBytes,
        (a.file .overlay).get (a.slotOffset n + i) = (w n i).getD (base.get (a.slotOffset n + i)) ∧
        (w n i = none → a.slotOffset n + i < base.length))

/-- Records do not overlap. -/
theorem slotOffset_apart (a : Arena) {n slot i : ℕ} (hne : n ≠ slot) (hi : i < a.slotBytes) :
    a.slotOffset n + i < a.slotOffset slot ∨
      a.slotOffset slot + a.slotBytes ≤ a.slotOffset n + i := by
  unfold slotOffset
  rcases Nat.lt_or_gt_of_ne hne with hlt | hgt
  · have := Nat.mul_le_mul_right a.slotBytes (Nat.succ_le_of_lt hlt)
    rw [Nat.succ_mul] at this
    omega
  · have := Nat.mul_le_mul_right a.slotBytes (Nat.succ_le_of_lt hgt)
    rw [Nat.succ_mul] at this
    omega

section Mirrors

variable {base : File} {w : Written} {a b : Arena} {slot offset : ℕ} {data : List UInt8}
  {r : Except IoError Unit}

theorem Mirrors.recordByte_eq (h : Mirrors base w a) (hslot : slot < a.slotCount) {i : ℕ}
    (hi : i < a.slotBytes) :
    a.recordByte slot i = (w slot i).getD (base.get (a.slotOffset slot + i)) := by
  unfold recordByte readFd
  rcases h.slot slot hslot with ⟨hv, hw⟩ | ⟨hv, -, hget⟩
  · rw [if_neg (by simp [hv]), hw i]
    show a.base.get _ = _
    rw [h.base_eq]
    rfl
  · rw [if_pos ⟨h.overlay, hv⟩]
    exact (hget i hi).1

/-- The slot that is written. -/
theorem Mirrors.written_slot (h : Mirrors base w a) (hw : SlotWrite a slot offset data r b)
    (hslot : slot < a.slotCount) (hok : r = .ok ()) :
    a.slotOffset slot + a.slotBytes ≤ (b.file .overlay).length ∧
      ∀ i < a.slotBytes,
        (b.file .overlay).get (a.slotOffset slot + i) =
          (w.patch slot offset data slot i).getD (base.get (a.slotOffset slot + i)) ∧
        (w.patch slot offset data slot i = none → a.slotOffset slot + i < base.length) := by
  refine ⟨?_, ?_⟩
  · rcases h.slot slot hslot with ⟨hv, -⟩ | ⟨-, hle, -⟩
    · exact (hw.complete hok hv).1
    · exact hle.trans hw.length_le
  · intro i hi
    have hpatch : w.patch slot offset data slot i =
        (if offset ≤ i then data[i - offset]? else none).or (w slot i) := by
      rw [Written.patch, Function.update_self]
    rw [hpatch]
    refine ⟨?_, ?_⟩
    · rw [hw.written hok i hi, h.recordByte_eq hslot hi]
      cases (if offset ≤ i then data[i - offset]? else none) <;> rfl
    · intro hnone
      rw [Option.or_eq_none_iff] at hnone
      rcases h.slot slot hslot with ⟨hv, -⟩ | ⟨-, -, hget⟩
      · rcases (hw.complete hok hv).2 with ⟨rfl, hlength⟩ | hle
        · -- A whole record leaves no byte unwritten.
          rw [if_pos (Nat.zero_le i), Nat.sub_zero, List.getElem?_eq_none_iff] at hnone
          omega
        · rw [h.base_eq] at hle
          omega
      · exact (hget i hi).2 hnone.2

theorem Mirrors.write (h : Mirrors base w a) (hw : SlotWrite a slot offset data r b)
    (hslot : slot < a.slotCount) (hvalid : a.overlayValid slot = .valid → r = .ok ()) :
    Mirrors base (if r = .ok () then w.patch slot offset data else w) b := by
  have hoffset : b.slotOffset = a.slotOffset := by
    funext n
    rw [slotOffset, slotOffset, hw.slotBytes]
  refine ⟨hw.base.trans h.base_eq, hw.overlay, ?_⟩
  intro n hn
  rw [hw.slotCount] at hn
  rw [hw.slotBytes, hw.state, hoffset]
  rcases eq_or_ne n slot with rfl | hne
  · rw [Function.update_self]
    by_cases hok : r = .ok ()
    · rw [if_pos hok, if_pos hok]
      exact .inr ⟨rfl, h.written_slot hw hslot hok⟩
    · rw [if_neg hok, if_neg hok]
      rcases h.slot n hn with hbase | ⟨hv, -⟩
      · exact .inl hbase
      · exact absurd (hvalid hv) hok
  · rw [Function.update_of_ne hne]
    have hsame : (if r = .ok () then w.patch slot offset data else w) n = w n := by
      split_ifs
      · exact Function.update_of_ne hne ..
      · rfl
    rw [hsame]
    rcases h.slot n hn with hbase | ⟨hv, hle, hget⟩
    · exact .inl hbase
    · refine .inr ⟨hv, hle.trans hw.length_le, ?_⟩
      intro i hi
      rw [hw.get _ (a.slotOffset_apart hne hi)]
      exact hget i hi

theorem Mirrors.idle (h : Mirrors base w a) (hslot : slot < a.slotCount) :
    a.overlayValid slot ≠ .initializing := by
  intro hv
  rcases h.slot slot hslot with ⟨hv', -⟩ | ⟨hv', -⟩
  · rw [hv] at hv'
    cases hv'
  · rw [hv] at hv'
    cases hv'

end Mirrors

/-! ## Runs -/

/-- A call, with the faults of its positional calls. -/
inductive OverlayCall
  | writeSlotRange (slot : ℤ) (offset : ℕ) (data : List UInt8) (faults : List (Option ℕ))
  | writeSpans (spans : List NvmeIoSpan) (buf : Buffer) (faults : List (Option ℕ))

/-- The arena before a call with some faults. -/
def withFaults (a : Arena) (faults : List (Option ℕ)) : Arena := { a with faults }

/-- The outcome of a call and the arena after it. -/
def call (a : Arena) : OverlayCall → Option (Except Stop Unit × Arena)
  | .writeSlotRange slot offset data faults =>
      ((a.withFaults faults).writeSlotRange slot offset data).map fun r =>
        (r.1.mapError .threw, r.2)
  | .writeSpans spans buf faults => (a.withFaults faults).writeSpans buf spans

/-- A read-only arena with a base file and an empty overlay. -/
def attached (slotBytes slotCount : ℕ) (base : File) (direct : Bool) : Arena where
  slotBytes := slotBytes
  slotCount := slotCount
  readOnly := true
  base := base
  direct := direct
  overlay := some ⟨0, fun _ => 0⟩
  overlayValid := fun _ => .base
  faults := []

/-- The calls on an attached arena, in any order. -/
def machine (slotBytes slotCount : ℕ) (base : File) (direct : Bool) : Machine Arena OverlayCall where
  init a := a = attached slotBytes slotCount base direct
  step a c := (a.call c).map Prod.snd

/-- The bytes that the spans of a batch write: those before one that fails. -/
def spansWritten (buf : Buffer) : List NvmeIoSpan → Arena → Written → Written
  | [], _, w => w
  | sp :: rest, a, w =>
      match a.writeSlotRange sp.slot 0 (spanData buf sp) with
      | some (.ok (), b) => spansWritten buf rest b (w.patch sp.slot.toNat 0 (spanData buf sp))
      | _ => w

/-- The written bytes after a call. -/
def recordWritten (a : Arena) (c : OverlayCall) (_ : Arena) (w : Written) : Written :=
  match c with
  | .writeSlotRange slot offset data faults =>
      match (a.withFaults faults).writeSlotRange slot offset data with
      | some (.ok (), _) => w.patch slot.toNat offset data
      | _ => w
  | .writeSpans spans buf faults => spansWritten buf spans (a.withFaults faults) w

/-- A write within a slot.  If the file calls work, it is of a whole record, or
its slot has an overlay record, or the base file has the record; and a write of
an overlay record does not fail. -/
def WriteOk (a : Arena) (slot : ℤ) (offset : ℕ) (data : List UInt8) : Prop :=
  a.InRange slot offset data.length ∧
    (a.NoFaults → a.IsFull offset data ∨ a.overlayValid slot.toNat = .valid ∨
      a.BaseCovers slot.toNat) ∧
    (a.overlayValid slot.toNat = .valid → a.limit data.length = data.length)

instance (a : Arena) (slot : ℤ) (offset : ℕ) (data : List UInt8) :
    Decidable (a.WriteOk slot offset data) := inferInstanceAs (Decidable (_ ∧ _ ∧ _))

/-- Every span of a batch lies in the buffer, and its write meets the condition
in the state that the spans before it leave. -/
def spansOk (buf : Buffer) : List NvmeIoSpan → Arena → Bool
  | [], _ => true
  | sp :: rest, a =>
      decide (sp.bufferOffset + sp.bytes ≤ buf.memory.length) &&
        decide (a.WriteOk sp.slot 0 (spanData buf sp)) &&
        match a.writeSlotRange sp.slot 0 (spanData buf sp) with
        | some (.ok (), b) => spansOk buf rest b
        | _ => true

/-- The condition on a call. -/
def CallOk (a : Arena) : OverlayCall → Prop
  | .writeSlotRange slot offset data faults => (a.withFaults faults).WriteOk slot offset data
  | .writeSpans spans buf faults =>
      buf.address ≠ 0 ∧ spansOk buf spans (a.withFaults faults) = true

instance (a : Arena) (c : OverlayCall) : Decidable (a.CallOk c) :=
  match c with
  | .writeSlotRange .. => inferInstanceAs (Decidable (WriteOk ..))
  | .writeSpans .. => inferInstanceAs (Decidable (_ ∧ _))

section Calls

variable {base : File} {w : Written} {a : Arena}

theorem Mirrors.withFaults (h : Mirrors base w a) (faults : List (Option ℕ)) :
    Mirrors base w (a.withFaults faults) :=
  ⟨h.base_eq, h.overlay, h.slot⟩

/-- A write that meets the condition. -/
theorem Mirrors.writeSlotRange (h : Mirrors base w a) (hpos : 0 < a.slotBytes) {slot : ℤ}
    {offset : ℕ} {data : List UInt8} (hok : a.WriteOk slot offset data) :
    ∃ r b, a.writeSlotRange slot offset data = some (r, b) ∧
      Mirrors base (if r = .ok () then w.patch slot.toNat offset data else w) b ∧
      b.slotBytes = a.slotBytes ∧ b.slotCount = a.slotCount ∧ (a.NoFaults → b.NoFaults) ∧
      (a.NoFaults → r = .ok ()) ∧ (r ≠ .ok () → ∀ i, w slot.toNat i = none) := by
  obtain ⟨hrange, hwhole, hvalid⟩ := hok
  have hslot : slot.toNat < a.slotCount := by
    obtain ⟨⟨hnonneg, hlt⟩, -⟩ := hrange
    omega
  obtain ⟨r, b, heq, hw⟩ := writeSlotRange_spec h.overlay hpos hrange (h.idle hslot)
  have hrewrite : a.overlayValid slot.toNat = .valid → r = .ok () := fun hv =>
    hw.rewrites hv (hvalid hv)
  refine ⟨r, b, heq, h.write hw hslot hrewrite, hw.slotBytes, hw.slotCount, hw.faults,
    fun hf => hw.succeeds hf (hwhole hf), ?_⟩
  intro hfail i
  rcases h.slot _ hslot with ⟨-, hnone⟩ | ⟨hv, -⟩
  · exact hnone i
  · exact absurd (hrewrite hv) hfail

/-- A batch whose spans meet the condition. -/
theorem Mirrors.writeEachSpan {buf : Buffer} : ∀ {spans : List NvmeIoSpan} {a : Arena} {w : Written},
    Mirrors base w a → 0 < a.slotBytes → spansOk buf spans a = true →
    ∃ r b, writeEachSpan buf spans a = some (r, b) ∧
      Mirrors base (spansWritten buf spans a w) b ∧
      b.slotBytes = a.slotBytes ∧ b.slotCount = a.slotCount ∧ (a.NoFaults → r = .ok ()) ∧
      (r ≠ .ok () → ∃ sp ∈ spans, ∀ i, spansWritten buf spans a w sp.slot.toNat i = none) := by
  intro spans
  induction spans with
  | nil =>
      intro a w h _ _
      exact ⟨_, a, rfl, h, rfl, rfl, fun _ => rfl, fun hne => absurd rfl hne⟩
  | cons sp rest ih =>
      intro a w h hpos hok
      unfold spansOk at hok
      rw [Bool.and_eq_true, Bool.and_eq_true, decide_eq_true_eq, decide_eq_true_eq] at hok
      obtain ⟨⟨hbuf, hwrite⟩, hrest⟩ := hok
      obtain ⟨r, b, heq, hm, hbytes, hcount, hnf, hsuccess, hfail⟩ := h.writeSlotRange hpos hwrite
      have hexceeds : exceedsBuffer buf sp = false := by
        unfold exceedsBuffer
        have := Nat.mod_le (sp.bufferOffset + sp.bytes) (2 ^ 64)
        rw [decide_eq_false_iff_not]
        omega
      unfold Arena.writeEachSpan spansWritten
      rw [heq] at hrest ⊢
      rw [if_neg (by simp [hexceeds])]
      cases r with
      | error e =>
          refine ⟨_, b, rfl, hm, hbytes, hcount, ?_, ?_⟩
          · intro hf
            cases hsuccess hf
          · intro _
            exact ⟨sp, List.mem_cons_self, hfail (by simp)⟩
      | ok u =>
          obtain ⟨r', c, heq', hm', hbytes', hcount', hsuccess', hfail'⟩ :=
            ih hm (by rwa [hbytes]) hrest
          refine ⟨r', c, ?_, hm', hbytes'.trans hbytes, hcount'.trans hcount,
            fun hf => hsuccess' (hnf hf), ?_⟩
          · show (if _ then _ else _) = _
            rw [if_neg (by omega)]
            exact heq'
          · intro hne
            obtain ⟨sp', hmem, hnone⟩ := hfail' hne
            exact ⟨sp', List.mem_cons_of_mem _ hmem, hnone⟩

/-- The slots that a call writes. -/
def OverlayCall.slots : OverlayCall → List ℤ
  | .writeSlotRange slot _ _ _ => [slot]
  | .writeSpans spans _ _ => spans.map NvmeIoSpan.slot

/-- The faults of the positional calls of a call. -/
def OverlayCall.faults : OverlayCall → List (Option ℕ)
  | .writeSlotRange _ _ _ faults => faults
  | .writeSpans _ _ faults => faults

/-- A call that meets the condition. -/
theorem Mirrors.call (h : Mirrors base w a) (hpos : 0 < a.slotBytes) {c : OverlayCall}
    (hok : a.CallOk c) :
    ∃ r b, a.call c = some (r, b) ∧ Mirrors base (recordWritten a c b w) b ∧
      b.slotBytes = a.slotBytes ∧ b.slotCount = a.slotCount ∧
      ((∀ f ∈ c.faults, f = none) → r = .ok ()) ∧
      (r ≠ .ok () → ∃ slot ∈ c.slots, ∀ i, recordWritten a c b w slot.toNat i = none) := by
  cases c with
  | writeSlotRange slot offset data faults =>
      obtain ⟨r, b, heq, hm, hbytes, hcount, -, hsuccess, hfail⟩ :=
        (h.withFaults faults).writeSlotRange hpos hok
      refine ⟨_, b, by rw [Arena.call, heq]; rfl, ?_, hbytes, hcount, ?_, ?_⟩
      · unfold recordWritten
        dsimp only
        rw [heq]
        cases r with
        | error e => exact hm
        | ok u => exact hm
      · intro hf
        rw [hsuccess hf]
        rfl
      · intro hne
        refine ⟨slot, List.mem_singleton_self slot, ?_⟩
        unfold recordWritten
        dsimp only
        rw [heq]
        cases r with
        | error e => exact hfail (by simp)
        | ok u => exact absurd rfl hne
  | writeSpans spans buf faults =>
      obtain ⟨haddress, hspans⟩ := hok
      obtain ⟨r, b, heq, hm, hbytes, hcount, hsuccess, hfail⟩ :=
        (h.withFaults faults).writeEachSpan hpos hspans
      have hnone : ¬ ((a.withFaults faults).readOnly = true ∧ (a.withFaults faults).overlay = none) := by
        rintro ⟨-, hn⟩
        exact absurd ((congrArg Option.isSome hn).symm.trans h.overlay) (by simp)
      have hcall : a.call (.writeSpans spans buf faults) = some (r, b) := by
        unfold Arena.call Arena.writeSpans
        dsimp only
        rw [if_neg hnone]
        split_ifs with hempty hoverlay
        · rw [hempty] at heq
          exact heq
        · exact heq
        · exact absurd h.overlay hoverlay
      refine ⟨r, b, hcall, hm, hbytes, hcount, hsuccess, ?_⟩
      intro hne
      obtain ⟨sp, hmem, hw⟩ := hfail hne
      exact ⟨sp.slot, List.mem_map_of_mem hmem, hw⟩

end Calls

/-! ## Reads -/

/-- The byte of a slot: the last one that was written there, or that of the base
file. -/
def content (base : File) (slotBytes : ℕ) (w : Written) (slot i : ℕ) : Option UInt8 :=
  (w slot i).or
    (if slot * slotBytes + i < base.length then some (base.get (slot * slotBytes + i)) else none)

section Reads

variable {base : File} {w : Written} {a : Arena} {slot : ℤ} {offset n : ℕ}

/-- A read without faults. -/
theorem readSlotRange_withFaults (hrange : a.InRange slot offset n) (address : ℕ) :
    (a.withFaults []).readSlotRange slot offset n address =
      (if min n ((a.file (a.readFd slot.toNat)).length - (a.slotOffset slot.toNat + offset)) = n
        then .ok () else .error .readFailed,
      (a.file (a.readFd slot.toNat)).read (a.slotOffset slot.toNat + offset)
        (min n ((a.file (a.readFd slot.toNat)).length - (a.slotOffset slot.toNat + offset)))) := by
  have hf : (a.withFaults []).NoFaults := by
    intro f hf
    cases hf
  have hrange' : (a.withFaults []).InRange slot offset n := hrange
  exact readSlotRange_eq hf hrange' address

/-- A slot reads as in the base file. -/
def ReadsBase (base : File) (a : Arena) (slot : ℤ) : Prop :=
  ∀ offset n address, a.InRange slot offset n →
    (a.withFaults []).readSlotRange slot offset n address =
      (attached a.slotBytes a.slotCount base a.direct).readSlotRange slot offset n address

/-- A read of bytes that were written or are in the base file. -/
theorem Mirrors.readSlotRange (h : Mirrors base w a) (hrange : a.InRange slot offset n)
    (hsome : ∀ i < n, (content base a.slotBytes w slot.toNat (offset + i)).isSome) (address : ℕ) :
    (a.withFaults []).readSlotRange slot offset n address =
      (.ok (), (List.range n).map fun i =>
        (content base a.slotBytes w slot.toNat (offset + i)).getD 0) := by
  have hslot := HasSlot.toNat_lt hrange.1
  have hbytes : ∀ i < n, (a.file (a.readFd slot.toNat)).get (a.slotOffset slot.toNat + offset + i) =
      (content base a.slotBytes w slot.toNat (offset + i)).getD 0 := by
    intro i hi
    have hrecord := h.recordByte_eq hslot (i := offset + i) (by have := hrange.2; omega)
    unfold recordByte at hrecord
    rw [Nat.add_assoc, hrecord]
    have hsome := hsome i hi
    unfold content at hsome ⊢
    cases hw : w slot.toNat (offset + i) with
    | some x => rfl
    | none =>
        rw [hw] at hsome
        by_cases hin : slot.toNat * a.slotBytes + (offset + i) < base.length
        · rw [if_pos hin]
          rfl
        · rw [if_neg hin] at hsome
          cases hsome
  have hlength : n = 0 ∨
      a.slotOffset slot.toNat + offset + n ≤ (a.file (a.readFd slot.toNat)).length := by
    rcases Nat.eq_zero_or_pos n with hzero | hn
    · exact .inl hzero
    · right
      rcases h.slot _ hslot with ⟨hv, hw⟩ | ⟨hv, hle, -⟩
      · -- The last byte is in the base file.
        have hlast := hsome (n - 1) (by omega)
        unfold content at hlast
        rw [hw, Option.none_or] at hlast
        have hin : slot.toNat * a.slotBytes + (offset + (n - 1)) < base.length := by
          by_contra hout
          rw [if_neg hout] at hlast
          cases hlast
        rw [readFd, if_neg (by simp [hv])]
        show a.slotOffset slot.toNat + offset + n ≤ a.base.length
        rw [h.base_eq, slotOffset]
        omega
      · rw [readFd, if_pos ⟨h.overlay, hv⟩]
        have := hrange.2
        omega
  rw [readSlotRange_withFaults hrange]
  have hgot : min n ((a.file (a.readFd slot.toNat)).length - (a.slotOffset slot.toNat + offset)) =
      n := by omega
  rw [hgot, if_pos rfl]
  congr 1
  apply List.map_congr_left
  intro i hi
  exact hbytes i (List.mem_range.mp hi)

theorem Mirrors.attached (slotBytes slotCount : ℕ) (base : File) (direct : Bool) :
    Mirrors base (fun _ _ => none) (attached slotBytes slotCount base direct) :=
  ⟨rfl, rfl, fun _ _ => .inl ⟨rfl, fun _ => rfl⟩⟩

/-- A slot of which nothing was written. -/
theorem Mirrors.readsBase (h : Mirrors base w a) (hw : ∀ i, w slot.toNat i = none) :
    ReadsBase base a slot := by
  intro offset n address hrange
  have hrange' : (Arena.attached a.slotBytes a.slotCount base a.direct).InRange slot offset n := hrange
  rcases h.slot _ (HasSlot.toNat_lt hrange.1) with ⟨hv, -⟩ | ⟨-, -, hget⟩
  · have hfd : a.readFd slot.toNat = .base := if_neg (by simp [hv])
    have hfile : a.file .base = base := h.base_eq
    rw [readSlotRange_withFaults hrange, hfd, hfile]
    exact (readSlotRange_withFaults hrange' address).symm
  · -- The record was copied up: the base file has all of it.
    have hnone : (fun _ => none) = w slot.toNat := funext fun i => (hw i).symm
    have hsome : ∀ w' : Written, w' slot.toNat = w slot.toNat → ∀ i < n,
        (content base a.slotBytes w' slot.toNat (offset + i)).isSome := by
      intro w' hw' i hi
      have hin := (hget (offset + i) (by have := hrange.2; omega)).2 (hw _)
      unfold slotOffset at hin
      unfold content
      rw [hw', hw, if_pos hin]
      rfl
    have hattached := (Mirrors.attached a.slotBytes a.slotCount base a.direct).readSlotRange hrange'
      (hsome (fun _ _ => none) hnone) address
    rw [h.readSlotRange hrange (hsome w rfl) address]
    refine Eq.trans ?_ hattached.symm
    unfold content
    rw [← hnone]
    rfl

end Reads

/-! ## The result -/

/-- The calls on an attached arena that meet the condition, with what they wrote. -/
def recorded (slotBytes slotCount : ℕ) (base : File) (direct : Bool) :
    Machine (Arena × Written) OverlayCall :=
  ((machine slotBytes slotCount base direct).withHistory (fun _ _ => none) recordWritten).restrict
    fun q c => q.1.CallOk c

theorem mirrors_invariant {slotBytes : ℕ} (hpos : 0 < slotBytes) (slotCount : ℕ) (base : File)
    (direct : Bool) : (recorded slotBytes slotCount base direct).Invariant fun q =>
      Mirrors base q.2 q.1 ∧ q.1.slotBytes = slotBytes where
  init q hq := by
    obtain ⟨a, w⟩ := q
    obtain ⟨rfl, rfl⟩ : a = attached slotBytes slotCount base direct ∧ w = fun _ _ => none := hq
    exact ⟨.attached .., rfl⟩
  step q c q' hq hstep := by
    obtain ⟨hok, hstep⟩ := Machine.restrict_step.mp hstep
    obtain ⟨b, hb, rfl⟩ := Machine.withHistory_step.mp hstep
    obtain ⟨hm, hbytes⟩ := hq
    obtain ⟨r, b', hcall, hm', hbytes', -, -, -⟩ := hm.call (by rwa [hbytes]) hok
    have hb : (q.1.call c).map Prod.snd = some b := hb
    rw [hcall] at hb
    obtain rfl : b' = b := Option.some.inj hb
    exact ⟨hm', hbytes'.trans hbytes⟩

/-- In every run of calls that meet the condition, whatever the base file: the
base file is as it was; a read of bytes that were written or are in the base file
gives the last ones; a slot of which nothing was written reads as in the base
file.  Every next call that meets the condition ends, and without faults it
succeeds; one that fails leaves the slot it failed at reading as in the base
file. -/
theorem overlayCopyOnWrite (slotBytes slotCount : ℕ) (hpos : 0 < slotBytes) (base : File)
    (direct : Bool) (a : Arena) (w : Written)
    (h : (recorded slotBytes slotCount base direct).Reachable (a, w)) :
    a.base = base ∧
    (∀ slot offset n address, a.InRange slot offset n →
      (∀ i < n, (content base slotBytes w slot.toNat (offset + i)).isSome) →
      (a.withFaults []).readSlotRange slot offset n address =
        (.ok (), (List.range n).map fun i =>
          (content base slotBytes w slot.toNat (offset + i)).getD 0)) ∧
    (∀ slot : ℤ, (∀ i, w slot.toNat i = none) → ReadsBase base a slot) ∧
    ∀ c, a.CallOk c → ∃ r b, a.call c = some (r, b) ∧
      ((∀ f ∈ c.faults, f = none) → r = .ok ()) ∧
      (r ≠ .ok () → ∃ slot ∈ c.slots, ReadsBase base b slot) := by
  obtain ⟨hm, hbytes⟩ := (mirrors_invariant hpos slotCount base direct).reachable h
  dsimp only at hm hbytes
  subst hbytes
  refine ⟨hm.base_eq, ?_, fun slot => hm.readsBase, ?_⟩
  · intro slot offset n address hrange hsome
    exact hm.readSlotRange hrange hsome address
  · intro c hok
    obtain ⟨r, b, hcall, hm', -, -, hsuccess, hfail⟩ := hm.call hpos hok
    refine ⟨r, b, hcall, hsuccess, ?_⟩
    intro hne
    obtain ⟨slot, hmem, hw⟩ := hfail hne
    exact ⟨slot, hmem, hm'.readsBase hw⟩

/-- A byte is written into a record of two; the other one stays that of the base
file. -/
theorem overlayCopyOnWrite_patched : ∃ a w,
    (recorded 2 1 ⟨2, fun _ => 3⟩ false).Reachable (a, w) ∧
      (a.withFaults []).readSlotRange 0 0 2 4096 = (.ok (), [3, 5]) := by
  have hrun : ((recorded 2 1 ⟨2, fun _ => 3⟩ false).run
      (attached 2 1 ⟨2, fun _ => 3⟩ false, fun _ _ => none) [.writeSlotRange 0 1 [5] []]).any
        (fun q => decide (q.2 0 0 = none ∧ q.2 0 1 = some 5 ∧ q.1.InRange 0 0 2)) = true := by
    decide +kernel
  have hinit : (recorded 2 1 ⟨2, fun _ => 3⟩ false).init
      (attached 2 1 ⟨2, fun _ => 3⟩ false, fun _ _ => none) := ⟨rfl, rfl⟩
  obtain ⟨⟨a, w⟩, hreach, hcheck⟩ := Machine.exists_reachable hinit hrun
  obtain ⟨hw0, hw1, hrange⟩ := of_decide_eq_true hcheck
  obtain ⟨-, hread, -⟩ := overlayCopyOnWrite 2 1 (by decide) _ false a w hreach
  have hc0 : content ⟨2, fun _ => 3⟩ 2 w 0 0 = some 3 := by
    rw [content, show w 0 0 = none from hw0]
    rfl
  have hc1 : content ⟨2, fun _ => 3⟩ 2 w 0 1 = some 5 := by
    rw [content, show w 0 1 = some 5 from hw1]
    rfl
  refine ⟨a, w, hreach, (hread 0 0 2 4096 hrange ?_).trans ?_⟩
  · intro i hi
    rcases (by omega : i = 0 ∨ i = 1) with rfl | rfl
    · exact congrArg Option.isSome hc0
    · exact congrArg Option.isSome hc1
  · show (_, [(content _ 2 w 0 0).getD 0, (content _ 2 w 0 1).getD 0]) = _
    rw [hc0, hc1]
    rfl

/-- Where the base file ends before the record, a write of one byte throws,
although every file call works; and a failed write of a record that is in the
overlay leaves it torn. -/
theorem overlayCopyOnWrite_appended :
    (∃ a, (machine 2 1 ⟨0, fun _ => 0⟩ false).Reachable a ∧ a.InRange 0 0 1 ∧
      (a.call (.writeSlotRange 0 0 [7] [])).map Prod.fst = some (.error (.threw .readFailed))) ∧
    ∃ a, (machine 2 1 ⟨2, fun _ => 3⟩ false).Reachable a ∧ a.InRange 0 0 2 ∧
      (a.call (.writeSlotRange 0 0 [9, 9] [some 1])).map (fun r =>
        (r.1, (r.2.withFaults []).readSlotRange 0 0 2 4096)) =
        some (.error (.threw .writeFailed), .ok (), [9, 7]) := by
  constructor
  · refine ⟨_, .of_init rfl, ?_, ?_⟩
    · decide
    · rfl
  · have hinit : (machine 2 1 ⟨2, fun _ => 3⟩ false).init (attached 2 1 ⟨2, fun _ => 3⟩ false) := rfl
    refine ⟨_, ⟨_, [.writeSlotRange 0 0 [7, 7] []], hinit, rfl⟩, ?_, ?_⟩
    · decide
    · rfl

end Qw3.Tier.Arena
