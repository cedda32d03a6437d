import Mathlib.Data.List.Sort
import Qw3.Lib.Program
import Qw3.Lib.Machine
import Qw3.Store.Model
import Qw3.Tier.Arena

/-!
# Writeback of raw keys

A chunk of raw keys whose blocks are complete is packed into one of two pinned
staging slots.  A slot that is full, or is flushed, is written to the file tier by
a task in the background; when the slot is wanted again the task's result is taken
and the chunks are entered as backed.  Each of packing, launching the task and the
task itself may throw.

* `Slot`, `State` — the staging slots and the vectors about the chunks.
* `kvmemReapRawKWrites`, `kvmemSubmitRawKWritebackSlot`,
  `kvmemReserveRawKWritebackRecord`, `kvmemCopyRawKChunkToWriteback`,
  `kvmemFlushRawKWrites` — the functions, over a repository.
* `machine` — their calls in any order.
-/

namespace Qw3.RawK.Writeback

open Qw3.Store (Span)
open Qw3.Tier (NvmeIoSpan)
open Qw3.Repository (KvMemBlockHandle)

/-- Where a call throws. -/
inductive Failure
  /-- Before the record is reserved, or after it is staged. -/
  | refused (what : String)
  | packing (what : String)
  /-- `std::async` throws. -/
  | launch (what : String)
  /-- The task threw, and its future throws that. -/
  | background (what : String)
  /-- After the result of a task was taken. -/
  | bookkeeping (what : String)
  /-- A future is asked that has no shared state. -/
  | noState
  /-- A loop was given too few rounds. -/
  | outOfFuel
  deriving DecidableEq, Repr

/-- Whether an exception is thrown before the result of a task is taken. -/
def Failure.early : Failure → Bool
  | .refused _ | .packing _ | .launch _ => true
  | .background _ | .bookkeeping _ | .noState | .outOfFuel => false

/-! ## The state -/

/-- What `configure_kvmem` sets. -/
structure Config where
  /-- `block_store_->config().block_tokens`. -/
  blockTokens : ℕ
  /-- `block_store_->block_count()`, of the repository. -/
  blockCount : ℕ
  /-- `kv_ctx_size_`. -/
  kvCtxSize : ℕ
  /-- `kvmem_raw_k_chunk_tokens_`. -/
  chunkTokens : ℕ
  /-- `kvmem_raw_k_chunks_.size()`. -/
  chunkCount : ℕ
  /-- `kvmem_mtp_local_positions_`. -/
  mtp : Bool
  /-- `kvmem_raw_k_nvme_slot_bytes_`. -/
  slotBytes : ℕ
  /-- `kvmem_raw_writeback_record_bytes_`. -/
  recordBytes : ℕ
  deriving DecidableEq, Repr

/-- `RawWritebackSlot`. -/
structure Slot where
  /-- `repository_capture.spans`. -/
  capture : List Span := []
  /-- `repository_capture.leases`: what each of them pins. -/
  leases : List KvMemBlockHandle := []
  host : Bool
  capacityBytes : ℕ
  usedBytes : ℕ := 0
  chunks : List ℕ := []
  spans : List NvmeIoSpan := []
  /-- Whether `future` has a shared state: not before a launch, nor after `get`. -/
  future : Bool := false
  inFlight : Bool := false
  deriving DecidableEq, Repr

/-- The staging slots and the vectors about chunks and blocks.  A vector for both
segments has the main one at `false` and the one of the MTP layer at `true`. -/
structure State where
  /-- `kvmem_raw_writeback_slots_`. -/
  slots : Fin 2 → Slot
  fillSlot : Fin 2
  /-- `kvmem_raw_writeback_chunk_slot_`. -/
  chunkSlot : ℕ → Option (Fin 2)
  /-- `kvmem_raw_writeback_chunk_offset_`. -/
  chunkOffset : ℕ → ℕ
  /-- `kvmem_raw_writeback_main_ready_`, `kvmem_raw_writeback_mtp_ready_`. -/
  ready : ℕ → Bool
  /-- `kvmem_raw_k_write_pending_`. -/
  writePending : ℕ → Bool
  /-- `kvmem_raw_k_nvme_backed_`. -/
  backed : Bool → ℕ → Bool
  /-- `kvmem_raw_k_dirty_`. -/
  dirty : Bool → ℕ → Bool
  /-- `kvmem_raw_k_nvme_block_backed_`. -/
  blockBacked : Bool → ℕ → Bool
  /-- `kvmem_repository_storage_generation_`. -/
  storageGeneration : ℕ → ℕ

/-- A call of the rest of the executor, which may throw. -/
abbrev Call (ω α : Type) := State → ω → Except String α × ω

/-- The rest of the executor. -/
structure Outside (ω : Type) where
  /-- `block_store_->repository_slot_read(first, count, ..)`. -/
  repositorySlotRead : (first count : ℕ) → Call ω (List Span × List KvMemBlockHandle)
  /-- What is read has the generation that is stored. -/
  read_current : ∀ first count s w r, (repositorySlotRead first count s w).1 = .ok r →
    ∀ span ∈ r.1, s.storageGeneration span.handle.slot = span.handle.generation
  /-- `kvmem_raw_k_valid_tokens_`. -/
  validTokens : ω → (mtp : Bool) → List Bool
  /-- Whether a chunk is allocated: `kvmem_raw_k_chunks_`. -/
  resident : ω → (mtp : Bool) → ℕ → Bool
  /-- `kvmem_raw_k_nvme_tier_->block_slot(b)`. -/
  blockSlot : ω → ℕ → ℤ
  /-- `kvmem_raw_k_nvme_tier_->place_block(b)`. -/
  placeBlock : (b : ℕ) → Call ω ℤ
  /-- `kvmem_raw_k_nvme_tier_->read_slot_range(slot, ..)`, for a segment. -/
  readSlotRange : (slot : ℤ) → (mtp : Bool) → Call ω Unit
  /-- `std::async` for a slot. -/
  launch : Fin 2 → Call ω Unit
  /-- `future.wait_for(0) == ready`. -/
  isReady : Fin 2 → ω → Bool
  /-- `future.wait()`. -/
  wait : Fin 2 → ω → ω
  /-- What the task of a slot ends with. -/
  outcome : Fin 2 → Call ω Unit
  /-- `kvmem_gc_raw_chunk_state(chunk, durable)`. -/
  gcRawChunkState : (chunk : ℕ) → (durable : Bool) → Call ω Unit

namespace State

variable (s : State)

/-- A slot is changed. -/
def setSlot (i : Fin 2) (f : Slot → Slot) : State :=
  { s with slots := Function.update s.slots i (f (s.slots i)) }

/-- One bit of the vectors of both segments is set. -/
def setBits (c : Config) (bits : Bool → ℕ → Bool) (i : ℕ) (main mtp : Bool) : Bool → ℕ → Bool
  | false => Function.update (bits false) i main
  | true => if c.mtp then Function.update (bits true) i mtp else bits true

end State

namespace Config

variable (c : Config)

/-- `bt`. -/
def bt : ℕ := max 1 c.blockTokens

/-- `blocks_per_chunk`. -/
def blocksPerChunk : ℕ := c.chunkTokens / c.bt

/-- The ids of the blocks of a chunk, as far as the context goes. -/
def blocksOf (chunk : ℕ) : List ℕ :=
  List.range' (chunk * c.blocksPerChunk)
    (min c.blocksPerChunk ((c.kvCtxSize + c.bt - 1) / c.bt - chunk * c.blocksPerChunk))

end Config

/-! ## The functions -/

section Functions

variable {ω : Type} (c : Config) (o : Outside ω)

/-- A call of the rest of the executor that throws in some place. -/
def outside {α : Type} (place : String → Failure) (call : Call ω α) : Program (State × ω) Failure α :=
  fun p => ((call p.1 p.2).1.mapError place, p.1, (call p.1 p.2).2)

/-- `kvmem_repository_raw_chunk_read(chunk)`. -/
def kvmemRepositoryRawChunkRead (place : String → Failure) (chunk : ℕ) :
    Program (State × ω) Failure (List Span × List KvMemBlockHandle) :=
  let n := c.chunkTokens / c.blockTokens
  if n = 0 || c.blockCount ≤ chunk * n then
    throw (place "KVMem physical raw chunk outside repository")
  else outside place (o.repositorySlotRead (chunk * n) (min n (c.blockCount - chunk * n)))

/-- `kvmem_update_repository_raw_chunk_backed(chunk)`. -/
def kvmemUpdateRepositoryRawChunkBacked (chunk : ℕ) : Program (State × ω) Failure Unit := do
  let view ← kvmemRepositoryRawChunkRead c o .bookkeeping chunk
  modify fun p =>
    let main := view.1.all fun span => p.1.blockBacked false span.handle.slot
    let mtp := view.1.all fun span => p.1.blockBacked true span.handle.slot
    ({ p.1 with
        backed := State.setBits c p.1.backed chunk main mtp
        dirty := State.setBits c p.1.dirty chunk (!main) (!mtp) }, p.2)

/-! ### The result of a task -/

/-- A block of a finished record is on file, if it was captured. -/
def finishBlock (capture : List Span) (id : ℕ) : Program (State × ω) Failure Unit := do
  let (s, _) ← get
  match capture.find? fun span => span.handle.slot == id with
  | none => pure ()
  | some captured =>
      if s.storageGeneration id ≠ captured.handle.generation then
        throw (.bookkeeping "KVMem raw writeback outlived its storage generation")
      else modify fun p => ({ p.1 with blockBacked := State.setBits c p.1.blockBacked id true true }, p.2)

/-- A chunk of a finished batch. -/
def finishChunk (i : Fin 2) (chunk : ℕ) : Program (State × ω) Failure Unit := do
  modify fun p => ({ p.1 with backed := State.setBits c p.1.backed chunk true true }, p.2)
  let (s, _) ← get
  (c.blocksOf chunk).forM (finishBlock c (s.slots i).capture)
  modify fun p =>
    ({ p.1 with
        dirty := State.setBits c p.1.dirty chunk false false
        writePending := Function.update p.1.writePending chunk false }, p.2)
  kvmemUpdateRepositoryRawChunkBacked c o chunk
  outside .bookkeeping (o.gcRawChunkState chunk true)
  modify fun p =>
    (if p.1.chunkSlot chunk = some i then
      { p.1 with
        chunkSlot := Function.update p.1.chunkSlot chunk none
        chunkOffset := Function.update p.1.chunkOffset chunk 0
        ready := Function.update p.1.ready chunk false }
    else p.1, p.2)

/-- One slot of `kvmem_reap_raw_k_writes(wait_all)`. -/
def reapSlot (waitAll : Bool) (i : Fin 2) : Program (State × ω) Failure Unit := do
  let (s, w) ← get
  if !(s.slots i).inFlight then pure ()
  else if !(s.slots i).future then throw .noState
  else if !waitAll && !o.isReady i w then pure ()
  else do
    -- `get` gives the shared state up also where it throws.
    modify fun p => (p.1.setSlot i fun slot => { slot with future := false }, p.2)
    outside .background (o.outcome i)
    (s.slots i).chunks.forM (finishChunk c o i)
    modify fun p => (p.1.setSlot i fun slot => { host := slot.host, capacityBytes := slot.capacityBytes }, p.2)

/-- `kvmem_reap_raw_k_writes(wait_all)`. -/
def kvmemReapRawKWrites (waitAll : Bool) : Program (State × ω) Failure Unit := do
  reapSlot c o waitAll 0
  reapSlot c o waitAll 1

/-! ### The launch of a task -/

/-- `kvmem_submit_raw_k_writeback_slot(i)`. -/
def kvmemSubmitRawKWritebackSlot (i : Fin 2) : Program (State × ω) Failure Unit := do
  let (s, _) ← get
  let slot := s.slots i
  if slot.inFlight || slot.usedBytes == 0 then pure ()
  -- A record that is reserved but not published is never written.
  else if !slot.chunks.all s.writePending then pure ()
  else if !slot.host || slot.chunks.isEmpty || slot.spans.isEmpty then
    throw (.refused "KVMem raw-K writeback slot is incomplete")
  else do
    outside .launch (o.launch i)
    modify fun p => (p.1.setSlot i fun slot => { slot with future := true, inFlight := true }, p.2)

/-- A slot that `kvmem_flush_raw_k_writes` submits. -/
def flushSlot (i : Fin 2) : Program (State × ω) Failure Unit := do
  let (s, _) ← get
  if !(s.slots i).inFlight && (s.slots i).usedBytes != 0 then kvmemSubmitRawKWritebackSlot o i
  else pure ()

/-- `kvmem_flush_raw_k_writes(wait_all)`. -/
def kvmemFlushRawKWrites (waitAll : Bool) : Program (State × ω) Failure Unit := do
  flushSlot o 0
  flushSlot o 1
  kvmemReapRawKWrites c o waitAll

/-! ### A record -/

/-- One round of the loop of `kvmem_reserve_raw_k_writeback_record`; whether there is
another. -/
def reserveRound (chunk required : ℕ) : Program (State × ω) Failure Bool := do
  kvmemReapRawKWrites c o false
  let (s, _) ← get
  let i := s.fillSlot
  let slot := s.slots i
  if !slot.inFlight && slot.host && decide (slot.usedBytes + required ≤ slot.capacityBytes) then do
    modify fun p =>
      ({ p.1.setSlot i fun slot =>
          { slot with chunks := slot.chunks ++ [chunk], usedBytes := slot.usedBytes + required } with
        chunkSlot := Function.update p.1.chunkSlot chunk (some i)
        chunkOffset := Function.update p.1.chunkOffset chunk slot.usedBytes }, p.2)
    pure false
  else do
    flushSlot o i
    modify fun p => ({ p.1 with fillSlot := i + 1 }, p.2)
    let (s, _) ← get
    if !(s.slots (i + 1)).inFlight then pure true
    else if !(s.slots (i + 1)).future then throw .noState
    else do
      modify fun p => (p.1, o.wait (i + 1) p.2)
      kvmemReapRawKWrites c o false
      pure true

/-- `kvmem_reserve_raw_k_writeback_record(chunk, .., bytes)`: whether there is a record,
whose slot and offset are in the vectors then.  The loop may take `fuel` rounds. -/
def kvmemReserveRawKWritebackRecord (fuel chunk bytes : ℕ) : Program (State × ω) Failure Bool := do
  let (s, _) ← get
  let required := if bytes ≠ 0 then bytes else c.recordBytes
  if c.recordBytes = 0 || c.chunkCount ≤ chunk then pure false
  else if (s.chunkSlot chunk).isSome then pure true
  else if !((s.slots 0).host && decide (required ≤ (s.slots 0).capacityBytes)) &&
      !((s.slots 1).host && decide (required ≤ (s.slots 1).capacityBytes)) then
    throw (.refused "KVMem raw writeback group exceeds its staging capacity")
  else do
    Program.loop .outOfFuel (reserveRound c o chunk required) fuel
    pure true

/-! ### Packing -/

/-- Whether all tokens of a span are captured. -/
def complete (valid : List Bool) (span : Span) : Bool :=
  decide (span.storageBegin + span.tokenCount ≤ valid.length) &&
    ((valid.drop span.storageBegin).take span.tokenCount).all id

/-- `copy_segment(mtp)`: a segment comes from the CPU, or from the file. -/
def copySegment (chunk id : ℕ) (allocation : ℤ) (mtp : Bool) : Program (State × ω) Failure Unit := do
  let (s, w) ← get
  if mtp && !c.mtp then pure ()
  else if o.resident w mtp chunk then pure ()
  else if s.blockBacked mtp id then outside .packing (o.readSlotRange allocation mtp)
  else throw (.packing "KVMem dirty raw repository segment has no authority")

/-- One block of a record is packed; it is the `k`-th. -/
def packSpan (i : Fin 2) (chunk offset : ℕ) (block : Span × ℕ) : Program (State × ω) Failure Unit := do
  let id := block.1.handle.slot
  let (s, w) ← get
  if (s.blockBacked false id || (c.mtp && s.blockBacked true id)) && decide (o.blockSlot w id < 0) then
    throw (.packing "KVMem backed raw block lost its NVMe allocation")
  else do
    let allocation ← outside .packing (o.placeBlock id)
    if allocation < 0 then throw (.packing "KVMem raw repository NVMe arena is full")
    else do
      copySegment c o chunk id allocation false
      copySegment c o chunk id allocation true
      modify fun p => (p.1.setSlot i fun slot => { slot with
        spans := slot.spans ++ [⟨allocation, offset + block.2 * c.slotBytes, c.slotBytes⟩] }, p.2)

/-- The `try` block of `kvmem_copy_repository_raw_chunk_to_writeback`. -/
def packRecord (i : Fin 2) (chunk offset : ℕ) (spans : List Span) (leases : List KvMemBlockHandle) :
    Program (State × ω) Failure Unit := do
  spans.zipIdx.forM (packSpan c o i chunk offset)
  modify fun p => (p.1.setSlot i fun slot => { slot with
    capture := slot.capture ++ spans, leases := slot.leases ++ leases }, p.2)

/-- Its `catch` block: the earlier records stay as they are. -/
def rollBack (i : Fin 2) (chunk offset oldSpans oldCaptured oldLeases : ℕ) (e : Failure) :
    Program (State × ω) Failure Unit := do
  modify fun p =>
    ({ p.1.setSlot i fun slot => { slot with
          spans := slot.spans.take oldSpans
          capture := slot.capture.take oldCaptured
          leases := slot.leases.take oldLeases
          usedBytes := offset
          chunks := slot.chunks.dropLast } with
        chunkSlot := Function.update p.1.chunkSlot chunk none
        chunkOffset := Function.update p.1.chunkOffset chunk 0 }, p.2)
  throw e

/-- What follows a record that is packed. -/
def publishRecord (i : Fin 2) (chunk : ℕ) : Program (State × ω) Failure Unit := do
  modify fun p =>
    ({ p.1.setSlot i fun slot => { slot with
          capture := slot.capture.insertionSort fun a b => a.handle.slot ≤ b.handle.slot } with
        writePending := Function.update p.1.writePending chunk true
        ready := Function.update p.1.ready chunk true }, p.2)
  outside .refused (o.gcRawChunkState chunk false)
  let (s, _) ← get
  if (s.slots i).usedBytes = (s.slots i).capacityBytes then do
    kvmemSubmitRawKWritebackSlot o i
    modify fun p => ({ p.1 with fillSlot := i + 1 }, p.2)
  else pure ()

/-- Whether a block is on file in both segments. -/
def clean (s : State) (span : Span) : Bool :=
  s.blockBacked false span.handle.slot && (!c.mtp || s.blockBacked true span.handle.slot)

/-- Whether a block that is not on file can be written. -/
def captured (w : ω) (span : Span) : Bool :=
  complete (o.validTokens w false) span && (!c.mtp || complete (o.validTokens w true) span)

/-- `kvmem_copy_raw_k_chunk_to_writeback(chunk)` over a repository, which is
`kvmem_copy_repository_raw_chunk_to_writeback(chunk)`. -/
def kvmemCopyRawKChunkToWriteback (fuel chunk : ℕ) : Program (State × ω) Failure Bool := do
  let (s, _) ← get
  if c.chunkCount ≤ chunk then pure false
  else if s.writePending chunk then pure true
  else do
    let view ← kvmemRepositoryRawChunkRead c o .refused chunk
    let (s, w) ← get
    let stale := (view.1.zip view.2).filter fun block => !clean c s block.1
    let capture := stale.filter fun block => captured c o w block.1
    if capture.isEmpty then pure (stale.all fun block => captured c o w block.1)
    else do
      if ← kvmemReserveRawKWritebackRecord c o fuel chunk (capture.length * c.slotBytes) then do
        let (s, _) ← get
        let i := (s.chunkSlot chunk).getD 0
        let slot := s.slots i
        tryCatch (packRecord c o i chunk (s.chunkOffset chunk) (capture.map Prod.fst) (capture.map Prod.snd))
          (rollBack i chunk (s.chunkOffset chunk) slot.spans.length slot.capture.length slot.leases.length)
        publishRecord o i chunk
        pure true
      else pure false

/-! ## The calls -/

/-- What is called, and what happens in between. -/
inductive Action (ω : Type)
  | copy (fuel chunk : ℕ)
  | flush (waitAll : Bool)
  | reap (waitAll : Bool)
  | submit (i : Fin 2)
  /-- A block gets another generation. -/
  | recycle (b generation : ℕ)
  /-- The rest of the executor rewrites, restores or drops chunks and blocks. -/
  | mark (backed dirty blockBacked : Bool → ℕ → Bool)
  /-- The rest of the executor gets to a state `w`. -/
  | outside (w : ω)

/-- A call of the writeback. -/
def call : Action ω → Program (State × ω) Failure Unit
  | .copy fuel chunk => kvmemCopyRawKChunkToWriteback c o fuel chunk >>= fun _ => pure ()
  | .flush waitAll => kvmemFlushRawKWrites c o waitAll
  | .reap waitAll => kvmemReapRawKWrites c o waitAll
  | .submit i => kvmemSubmitRawKWritebackSlot o i
  | _ => pure ()

/-- Whether a slot has captured a block.  Its leases pin the block then, so the store
does not give the block another generation. -/
def captures (s : State) (b : ℕ) : Bool :=
  (List.finRange 2).any fun i => (s.slots i).capture.any fun span => span.handle.slot == b

/-- A call or what happens in between; no state follows a loop that goes on. -/
def step (p : State × ω) (a : Action ω) : Option (State × ω) :=
  match a with
  | .recycle b generation =>
      if captures p.1 b then none
      else some ({ p.1 with storageGeneration := Function.update p.1.storageGeneration b generation }, p.2)
  | .mark backed dirty blockBacked => some ({ p.1 with backed, dirty, blockBacked }, p.2)
  | .outside w => some (p.1, w)
  | a =>
      match (call c o a).exec p with
      | (.error .outOfFuel, _) => none
      | (_, q) => some q

/-- Nothing is staged. -/
structure Fresh (s : State) : Prop where
  slots_eq : ∀ i, s.slots i = { host := (s.slots i).host, capacityBytes := (s.slots i).capacityBytes }
  chunkSlot_eq : s.chunkSlot = fun _ => none
  pending_eq : s.writePending = fun _ => false

/-- The calls in any order, from slots that are empty. -/
def machine : Machine (State × ω) (Action ω) where
  init p := Fresh p.1
  step := step c o

end Functions

end Qw3.RawK.Writeback
