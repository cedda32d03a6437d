import Mathlib.Algebra.Group.Nat.Defs
import Mathlib.Data.Int.Notation
import Mathlib.Logic.Function.Basic
import Qw3.Lib.File

/-!
# The file of a tier

`NvmeKvTier` as an arena of fixed-size slots in a base file.  A read-only arena
may have an overlay: a sparse file at the same offsets that takes the writes.  A
slot reads from the overlay once its overlay record is complete.

* `Arena.preadAll`, `Arena.pwriteAll` — the positional loops, with the faults of
  the calls below them.
* `Arena.writeOverlaySlotRange` — copy-up, patch, publish.
* `Arena.writeSlotRange`, `Arena.readSlotRange` — one slot.
* `Arena.writeSpans`, `Arena.readSpans` — batches.
-/

namespace Qw3.Tier

/-- The state of the overlay record of a slot. -/
inductive OverlayState
  | base | initializing | valid
  deriving DecidableEq, Repr

/-- The descriptors of an arena. -/
inductive Fd
  | base | direct | overlay
  deriving DecidableEq, Repr

/-- The operation that an error names. -/
inductive IoOp
  | read | write
  deriving DecidableEq, Repr

/-- What the operations throw, each named for what its text says. -/
inductive IoError
  | attachedReadOnly
  | disabled
  | exceedsSlot (op : IoOp)
  | invalidSlot (op : IoOp)
  | rangeExceeds (op : IoOp)
  | nullBuffer
  | exceedsBuffer
  | writeFailed
  | readFailed
  deriving DecidableEq, Repr

/-- An arena that has its file. -/
structure Arena where
  slotBytes : ℕ
  slotCount : ℕ
  readOnly : Bool
  base : File
  /-- Whether the base file is also open for direct reads. -/
  direct : Bool
  overlay : Option File
  overlayValid : ℕ → OverlayState
  /-- The faults of the next positional calls: one that has a fault transfers at
  most that many bytes and fails where it needed more. -/
  faults : List (Option ℕ)

namespace Arena

variable (a : Arena)

/-- The file behind a descriptor. -/
def file : Fd → File
  | .base | .direct => a.base
  | .overlay => a.overlay.getD ⟨0, fun _ => 0⟩

/-- The arena after a change of the file behind a descriptor. -/
def setFile (fd : Fd) (f : File) : Arena :=
  match fd with
  | .base | .direct => { a with base := f }
  | .overlay => { a with overlay := some f }

/-- `slot_offset(slot)`. -/
def slotOffset (slot : ℕ) : ℕ := slot * a.slotBytes

/-- How many of `n` bytes the next positional call can transfer. -/
def limit (n : ℕ) : ℕ := (a.faults.head?.join.map fun k => min k n).getD n

/-- `pwrite_all`. -/
def pwriteAll (fd : Fd) (data : List UInt8) (offset : ℕ) : Except IoError Unit × Arena :=
  let done := a.limit data.length
  (if done = data.length then .ok () else .error .writeFailed,
    { a.setFile fd ((a.file fd).write offset (data.take done)) with faults := a.faults.tail })

/-- `pread_all`: the outcome, the bytes that were read and the arena. -/
def preadAll (fd : Fd) (n offset : ℕ) : Except IoError Unit × List UInt8 × Arena :=
  let got := min (a.limit n) ((a.file fd).length - offset)
  (if got = n then .ok () else .error .readFailed, (a.file fd).read offset got,
    { a with faults := a.faults.tail })

/-! ## The overlay -/

/-- `kCopyChunk`. -/
def copyChunk : ℕ := 2 ^ 20

/-- The copy-up of a slot from `copied` on.  Each round copies a byte at least,
so `fuel` rounds copy `fuel` bytes. -/
def copyUp (slot : ℕ) : ℕ → ℕ → Arena → Except IoError Unit × Arena
  | 0, _, a => (.ok (), a)
  | fuel + 1, copied, a =>
      if a.slotBytes ≤ copied then (.ok (), a)
      else
        let n := min (min copyChunk a.slotBytes) (a.slotBytes - copied)
        match a.preadAll .base n (a.slotOffset slot + copied) with
        | (.error e, _, a) => (.error e, a)
        | (.ok (), scratch, a) =>
            match a.pwriteAll .overlay scratch (a.slotOffset slot + copied) with
            | (.error e, a) => (.error e, a)
            | (.ok (), a) => copyUp slot fuel (copied + n) a

/-- The first write of a slot, while its record is initializing. -/
def initializeSlot (slot offset : ℕ) (data : List UInt8) : Except IoError Unit × Arena :=
  let copied :=
    if offset = 0 ∧ data.length = a.slotBytes then (.ok (), a) else copyUp slot a.slotBytes 0 a
  match copied with
  | (.error e, a) => (.error e, a)
  | (.ok (), a) => a.pwriteAll .overlay data (a.slotOffset slot + offset)

/-- The record of a slot gets a state. -/
def setState (slot : ℕ) (state : OverlayState) : Arena :=
  { a with overlayValid := Function.update a.overlayValid slot state }

/-- `write_overlay_slot_range`; `none` where it waits for another writer. -/
def writeOverlaySlotRange (slot offset : ℕ) (data : List UInt8) :
    Option (Except IoError Unit × Arena) :=
  match a.overlayValid slot with
  | .initializing => none
  | .valid => some (a.pwriteAll .overlay data (a.slotOffset slot + offset))
  | .base =>
      match (a.setState slot .initializing).initializeSlot slot offset data with
      | (.error e, a) => some (.error e, a.setState slot .base)
      | (.ok (), a) => some (.ok (), a.setState slot .valid)

/-! ## One slot -/

/-- `validate_io`, for a buffer that is not null: a null pointer to a byte or more is
refused before the size is looked at. -/
def validateIo (bytes : ℕ) (op : IoOp) : Except IoError Unit :=
  if a.slotCount = 0 then .error .disabled
  else if a.slotBytes < bytes then .error (.exceedsSlot op)
  else .ok ()

/-- The slot number is one of the arena's. -/
def HasSlot (slot : ℤ) : Prop := 0 ≤ slot ∧ slot < a.slotCount

instance (slot : ℤ) : Decidable (a.HasSlot slot) := inferInstanceAs (Decidable (_ ∧ _))

/-- `validate_slot_io`. -/
def validateSlotIo (slot : ℤ) (bytes : ℕ) (op : IoOp) : Except IoError Unit :=
  (a.validateIo bytes op).bind fun _ =>
    if a.HasSlot slot then .ok () else .error (.invalidSlot op)

/-- `validate_slot_range_io`. -/
def validateSlotRangeIo (slot : ℤ) (offset bytes : ℕ) (op : IoOp) : Except IoError Unit :=
  (a.validateSlotIo slot bytes op).bind fun _ =>
    if a.slotBytes < offset ∨ a.slotBytes - offset < bytes then .error (.rangeExceeds op)
    else .ok ()

/-- `read_fd(slot)`, where no writer is initializing the slot. -/
def readFd (slot : ℕ) : Fd :=
  if a.overlay.isSome ∧ a.overlayValid slot = .valid then .overlay else .base

/-- `kDirectAlignment`. -/
def directAlignment : ℕ := 4096

/-- `direct_range_eligible` for a buffer at `address`. -/
def directRangeEligible (address bytes offset : ℕ) : Bool :=
  a.direct && decide (bytes ≠ 0 ∧ address % directAlignment = 0 ∧ bytes % directAlignment = 0 ∧
    offset % directAlignment = 0)

/-- `read_fd_for_range(slot, address, bytes, offset)`. -/
def readFdForRange (slot address bytes offset : ℕ) : Fd :=
  if a.readFd slot = .base ∧ a.directRangeEligible address bytes offset then .direct
  else a.readFd slot

/-- `write_slot_range(slot, offset, data, bytes)`; `none` where it waits. -/
def writeSlotRange (slot : ℤ) (offset : ℕ) (data : List UInt8) :
    Option (Except IoError Unit × Arena) :=
  if a.readOnly ∧ a.overlay = none then some (.error .attachedReadOnly, a)
  else
    match a.validateSlotRangeIo slot offset data.length .write with
    | .error e => some (.error e, a)
    | .ok () =>
        if a.overlay.isSome then a.writeOverlaySlotRange slot.toNat offset data
        else some (a.pwriteAll .base data (a.slotOffset slot.toNat + offset))

/-- `read_slot_range(slot, offset, buffer, bytes)` into a buffer at `address`, not null:
the outcome and the bytes that were read. -/
def readSlotRange (slot : ℤ) (offset bytes address : ℕ) : Except IoError Unit × List UInt8 :=
  match a.validateSlotRangeIo slot offset bytes .read with
  | .error e => (.error e, [])
  | .ok () =>
      let at' := a.slotOffset slot.toNat + offset
      let r := a.preadAll (a.readFdForRange slot.toNat address bytes at') bytes at'
      (r.1, r.2.1)

/-! ## Batches -/

end Arena

/-- `NvmeIoSpan`. -/
structure NvmeIoSpan where
  slot : ℤ
  bufferOffset : ℕ
  bytes : ℕ
  deriving DecidableEq, Repr

/-- The buffer of a batch: its address and its bytes. -/
structure Buffer where
  address : ℕ
  memory : File

/-- How a batch stops early: it throws, it looks outside `overlay_valid_`, or it
hands a range outside the buffer to a positional call. -/
inductive Stop
  | threw (e : IoError)
  | indexedOutside (slot : ℤ)
  | leftBuffer
  deriving DecidableEq, Repr

namespace Arena

variable (a : Arena) (buf : Buffer)

/-- The bytes of a span in the buffer. -/
def spanData (sp : NvmeIoSpan) : List UInt8 := buf.memory.read sp.bufferOffset sp.bytes

/-- The test `buffer_offset + bytes > buffer_bytes` on 64-bit words. -/
def exceedsBuffer (sp : NvmeIoSpan) : Bool :=
  decide (buf.memory.length < (sp.bufferOffset + sp.bytes) % 2 ^ 64)

/-- The tests of a span. -/
def checkSpan (op : IoOp) (sp : NvmeIoSpan) : Except IoError Unit :=
  (a.validateSlotIo sp.slot sp.bytes op).bind fun _ =>
    if exceedsBuffer buf sp then .error .exceedsBuffer else .ok ()

/-- The descriptor of a span. -/
def spanFd (op : IoOp) (sp : NvmeIoSpan) : Fd :=
  match op with
  | .write => .base
  | .read =>
      a.readFdForRange sp.slot.toNat (buf.address + sp.bufferOffset) sp.bytes
        (a.slotOffset sp.slot.toNat)

/-- The lookahead from a group that begins with `first`, ends with `prev` and has
`merged` bytes: the bytes of the whole group and the spans after it.  The file of
the next span is looked up before anything about the span is known. -/
def lookahead (op : IoOp) (first : NvmeIoSpan) :
    ℕ → NvmeIoSpan → List NvmeIoSpan → Except Stop (ℕ × List NvmeIoSpan)
  | merged, _, [] => .ok (merged, [])
  | merged, prev, next :: rest =>
      if op = .read ∧ a.overlay.isSome ∧ ¬ a.HasSlot next.slot then
        .error (.indexedOutside next.slot)
      else if next.slot = prev.slot + 1 ∧ prev.bytes = a.slotBytes ∧
          next.bufferOffset = (first.bufferOffset + merged) % 2 ^ 64 ∧
          a.spanFd buf op next = a.spanFd buf op first then
        match a.checkSpan buf op next with
        | .error e => .error (.threw e)
        | .ok () => lookahead op first (merged + next.bytes) next rest
      else .ok (merged, next :: rest)

/-- One positional call for a group of `merged` bytes. -/
def transfer (op : IoOp) (first : NvmeIoSpan) (merged : ℕ) :
    Except IoError Unit × Arena × Buffer :=
  let offset := a.slotOffset first.slot.toNat
  match op with
  | .write =>
      let w := a.pwriteAll .base (buf.memory.read first.bufferOffset merged) offset
      (w.1, w.2, buf)
  | .read =>
      let r := a.preadAll (a.spanFd buf op first) merged offset
      (r.1, r.2.2, { buf with memory := buf.memory.write first.bufferOffset r.2.1 })

/-- The loop over the groups.  A group has a span at least, so there are no more
rounds than spans. -/
def runGroups (op : IoOp) : ℕ → List NvmeIoSpan → Arena → Buffer →
    Except Stop Unit × Arena × Buffer
  | 0, _, a, buf => (.ok (), a, buf)
  | _ + 1, [], a, buf => (.ok (), a, buf)
  | rounds + 1, first :: rest, a, buf =>
      match a.checkSpan buf op first with
      | .error e => (.error (.threw e), a, buf)
      | .ok () =>
          match a.lookahead buf op first first.bytes first rest with
          | .error stop => (.error stop, a, buf)
          | .ok (merged, rest) =>
              if buf.memory.length < first.bufferOffset + merged then (.error .leftBuffer, a, buf)
              else
                match a.transfer buf op first merged with
                | (.error e, a, buf) => (.error (.threw e), a, buf)
                | (.ok (), a, buf) => runGroups op rounds rest a buf

/-- The loop of a write to an arena with an overlay; `none` where it waits. -/
def writeEachSpan (buf : Buffer) : List NvmeIoSpan → Arena → Option (Except Stop Unit × Arena)
  | [], a => some (.ok (), a)
  | sp :: rest, a =>
      if exceedsBuffer buf sp then some (.error (.threw .exceedsBuffer), a)
      else
        (a.writeSlotRange sp.slot 0 (spanData buf sp)).bind fun
          | (.error e, a) => some (.error (.threw e), a)
          | (.ok (), a) =>
              if buf.memory.length < sp.bufferOffset + sp.bytes then some (.error .leftBuffer, a)
              else writeEachSpan buf rest a

/-- `write_spans(spans, buffer, buffer_bytes)`; `none` where it waits. -/
def writeSpans (spans : List NvmeIoSpan) : Option (Except Stop Unit × Arena) :=
  if a.readOnly ∧ a.overlay = none then some (.error (.threw .attachedReadOnly), a)
  else if spans = [] then some (.ok (), a)
  else if buf.address = 0 then some (.error (.threw .nullBuffer), a)
  else if a.overlay.isSome then writeEachSpan buf spans a
  else
    let r := runGroups .write spans.length spans a buf
    some (r.1, r.2.1)

/-- `read_spans(spans, buffer, buffer_bytes)`. -/
def readSpans (spans : List NvmeIoSpan) : Except Stop Unit × Buffer :=
  if spans = [] then (.ok (), buf)
  else if buf.address = 0 then (.error (.threw .nullBuffer), buf)
  else
    let r := runGroups .read spans.length spans a buf
    (r.1, r.2.2)

end Arena

end Qw3.Tier
