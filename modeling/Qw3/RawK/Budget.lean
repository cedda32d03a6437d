import Mathlib.Data.List.Range
import Qw3.Lib.Program
import Qw3.Tier.Eviction

/-!
# The CPU budget that raw keys and spilled blocks share

The sparse CPU tier holds spilled blocks in slabs that get their storage when
their first slot is taken.  The host copies of the raw keys are chunks that get
theirs when they are first written to.  Both count against one budget, and a chunk
that no longer fits takes from the slabs, the spilled blocks and the other chunks
what it needs.

* `Config`, `State` — what is configured, and what the counters are about.
* `Outside` — the rest of the executor, as far as the functions here call it.
* `kvmemReserveCpuSlot`, `kvmemReleaseCpuSlot`, `kvmemEvictOneRawKChunk`,
  `kvmemEvictCpuForRaw`, `kvmemEnsureRawKChunks` — the functions.
* `machine` — their calls in any order, with everything that happens between them.
-/

namespace Qw3.RawK

open Qw3.Tier

/-- Why a call does not return: a loop that was given too few rounds, or the
exception that the source throws. -/
inductive Halt
  | outOfFuel
  | error (what : String)
  deriving DecidableEq, Repr

/-! ## The configuration and the state -/

/-- What `configure_kvmem` sets and nothing changes afterwards, for a sparse tier:
`kvmem_sparse_cpu_tier_` is set, and with it there is a `kvmem_cpu_tier_`. -/
structure Config where
  /-- Whether there is a `block_store_`. -/
  blockStore : Bool
  /-- `kvmem_cpu_budget_bytes_`, the bytes of the CPU tier. -/
  budgetBytes : ℕ
  /-- `kvmem_cpu_sparse_slot_bytes_`. -/
  slotBytes : ℕ
  /-- `kvmem_io_slab_bytes()`. -/
  ioSlabBytes : ℕ
  /-- Whether there is a `kvmem_nvme_tier_`. -/
  nvmeTier : Bool
  /-- `kvmem_inclusive_cpu_backing_`. -/
  inclusiveCpuBacking : Bool
  /-- `block_store_->config().optimize_stage_out`. -/
  optimizeStageOut : Bool
  /-- `block_store_->config().block_tokens`. -/
  blockTokens : ℕ
  /-- `kv_ctx_size_`. -/
  kvCtxSize : ℕ
  /-- `kvmem_raw_layers_.size()`. -/
  rawLayers : ℕ
  /-- `kvmem_mtp_local_positions_`. -/
  mtpLocalPositions : Bool
  /-- `kvmem_raw_k_chunk_tokens_`. -/
  chunkTokens : ℕ
  /-- `kvmem_raw_k_row_bytes_`. -/
  rowBytes : ℕ
  /-- `kvmem_raw_k_nvme_enabled_`, with its tier. -/
  rawKNvme : Bool
  /-- `kvmem_raw_k_nvme_block_slots_`. -/
  rawKNvmeBlockSlots : Bool
  deriving DecidableEq, Repr

/-- `KvMemCpuSparseSlab`. -/
structure Slab where
  /-- Whether it has its storage. -/
  data : Bool := false
  liveSlots : ℕ := 0
  capacitySlots : ℕ
  deriving DecidableEq, Repr

/-- The host copies of one segment's raw keys. -/
structure Mirror where
  /-- Which of the chunks are allocated: `kvmem_raw_k_chunks_`. -/
  chunks : List Bool
  /-- `kvmem_raw_k_mirror_bytes_`. -/
  bytes : ℕ
  deriving DecidableEq, Repr

/-- What the budget is spent on. -/
structure State where
  slabs : List Slab
  /-- `kvmem_cpu_sparse_slot_live_`. -/
  slotLive : List Bool
  /-- `kvmem_cpu_sparse_bytes_`. -/
  sparseBytes : ℕ
  tier : PinnedKvTier
  /-- The main segment's raw keys (`false`) and those of the MTP layer (`true`). -/
  mirror : Bool → Mirror

namespace Config

variable (c : Config)

/-- `kvmem_cpu_sparse_slots_per_slab_`. -/
def slotsPerSlab : ℕ := max 1 (c.ioSlabBytes / c.slotBytes) % 2 ^ 32

/-- The bytes of a slab with its storage. -/
def slabBytes (slab : Slab) : ℕ := slab.capacitySlots * c.slotBytes

/-- `chunk_bytes` of `kvmem_ensure_raw_k_chunks`. -/
def chunkBytes (mtp : Bool) : ℕ :=
  (if mtp then 1 else c.rawLayers) * c.chunkTokens * c.rowBytes % 2 ^ 64

/-- `kvmem_raw_k_chunk_bytes_` and `kvmem_raw_mtp_k_chunk_bytes_`. -/
def rawKChunkBytes (mtp : Bool) : ℕ :=
  if mtp && !c.mtpLocalPositions then 0 else c.chunkBytes mtp

/-- `raw_chunk_count`. -/
def rawChunkCount : ℕ := (c.kvCtxSize + c.chunkTokens - 1) / c.chunkTokens

/-- How many chunks a segment can have. -/
def chunkCount (mtp : Bool) : ℕ := if mtp && !c.mtpLocalPositions then 0 else c.rawChunkCount

/-- The slabs of a tier of `n` slots, all without storage. -/
def slabs (n : ℕ) : List Slab :=
  (List.range ((n + c.slotsPerSlab - 1) % 2 ^ 32 / c.slotsPerSlab)).map fun slab =>
    { capacitySlots := min c.slotsPerSlab (n - slab * c.slotsPerSlab) }

/-- The state after `configure_kvmem`. -/
def initial : State :=
  let tier := PinnedKvTier.initial c.budgetBytes c.slotBytes
  { slabs := c.slabs tier.slotCount
    slotLive := List.replicate tier.slotCount false
    sparseBytes := 0
    tier
    mirror := fun mtp => { chunks := List.replicate (c.chunkCount mtp) false, bytes := 0 } }

/-- `kvmem_cpu_budget_has(bytes)`. -/
def kvmemCpuBudgetHas (s : State) (bytes : ℕ) : Bool :=
  let used := (s.mirror false).bytes + (s.mirror true).bytes + s.sparseBytes
  decide (used ≤ c.budgetBytes ∧ bytes ≤ c.budgetBytes - used)

/-- `kvmem_cpu_slot_data(slot)` is not null. -/
def kvmemCpuSlotData (s : State) (slot : ℤ) : Bool :=
  match slot with
  | .negSucc _ => false
  | .ofNat i =>
      s.slotLive.getD i false && c.slotBytes != 0 &&
        (s.slabs[i / c.slotsPerSlab]?.any fun slab => slab.data)

end Config

namespace State

variable (s : State)

/-- `kvmem_cpu_tier_->block_slot(b)`. -/
def blockSlot (b : ℕ) : ℤ := (s.tier.pool.owner b).getD (-1)

/-- `kvmem_cpu_tier_->release_block(b)`; `forget_block(b)` drops its heat as well. -/
def releaseBlock (b : ℕ) : State := { s with tier := s.tier.releaseBlock b }

/-- `kvmem_cpu_tier_->lru_victim()`, if it is not negative as an `int32_t`. -/
def lruVictim : Option ℕ :=
  match s.tier.pool.recent with
  | [] => none
  | victim :: _ => if toInt32 victim < 0 then none else some victim

/-- A slab gives up its storage. -/
def resetSlab (c : Config) (i : ℕ) (slab : Slab) : State :=
  { s with
    slabs := s.slabs.set i { slab with data := false }
    sparseBytes := s.sparseBytes - c.slabBytes slab }

/-- A live slot is given back. -/
def dropSlot (i slabIndex : ℕ) (slab : Slab) : State :=
  { s with
    slotLive := s.slotLive.set i false
    slabs := s.slabs.set slabIndex { slab with liveSlots := slab.liveSlots - 1 } }

/-- `kvmem_release_cpu_slot(slot)`. -/
def releaseCpuSlot (c : Config) (hasRepository : Bool) (slot : ℤ) : State :=
  match slot with
  | .negSucc _ => s
  | .ofNat i =>
      if !c.blockStore || !s.slotLive.getD i false then s
      else
        match s.slabs[i / c.slotsPerSlab]? with
        | none => s
        | some slab =>
            let dropped := s.dropSlot i (i / c.slotsPerSlab) slab
            if slab.liveSlots - 1 = 0 && slab.data && !hasRepository then
              dropped.resetSlab c (i / c.slotsPerSlab) { slab with liveSlots := slab.liveSlots - 1 }
            else dropped

/-- A slot is taken, whose slab has its storage. -/
def takeSlot (i slabIndex : ℕ) (slab : Slab) : State :=
  { s with
    slotLive := s.slotLive.set i true
    slabs := s.slabs.set slabIndex { slab with liveSlots := slab.liveSlots + 1 } }

/-- A slab gets its storage. -/
def allocateSlab (c : Config) (i : ℕ) (slab : Slab) : State :=
  { s with
    slabs := s.slabs.set i { slab with data := true }
    sparseBytes := s.sparseBytes + c.slabBytes slab }

/-- A chunk is freed. -/
def resetChunk (mtp : Bool) (chunk bytes : ℕ) : State :=
  let m := s.mirror mtp
  { s with mirror := Function.update s.mirror mtp ⟨m.chunks.set chunk false, m.bytes - bytes⟩ }

/-- A chunk is allocated. -/
def allocateChunk (mtp : Bool) (chunk bytes : ℕ) : State :=
  let m := s.mirror mtp
  { s with mirror := Function.update s.mirror mtp ⟨m.chunks.set chunk true, m.bytes + bytes⟩ }

/-- What there is to give up: slabs with storage, blocks of the CPU tier and chunks. -/
def evictable : ℕ :=
  s.slabs.countP (fun slab => slab.data) + s.tier.pool.recent.length +
    ((s.mirror false).chunks.count true + (s.mirror true).chunks.count true)

/-- The last slab with storage and no live slot. -/
def emptySlab : Option (ℕ × Slab) :=
  (s.slabs.zipIdx.reverse.find? fun p => p.1.liveSlots == 0 && p.1.data).map fun p => (p.2, p.1)

/-- `release_suffix` of `kvmem_truncate_raw_k`. -/
def releaseSuffix (c : Config) (mtp : Bool) (first : ℕ) : State :=
  (List.range' first ((s.mirror mtp).chunks.length - first)).foldl
    (fun s i => if (s.mirror mtp).chunks.getD i false then s.resetChunk mtp i (c.chunkBytes mtp) else s) s

/-- The host allocations in `kvmem_truncate_raw_k(token_pos)`. -/
def kvmemTruncateRawK (c : Config) (tokenPos : ℕ) : State :=
  if c.chunkTokens = 0 then s
  else
    let first := (tokenPos + c.chunkTokens - 1) % 2 ^ 32 / c.chunkTokens
    (s.releaseSuffix c false first).releaseSuffix c true first

/-- The CPU tier in `reset`. -/
def reset (retainColdHost : Bool) : State :=
  { s with
    tier := s.tier.clear
    slabs := s.slabs.map fun slab => { slab with liveSlots := 0, data := slab.data && retainColdHost }
    slotLive := s.slotLive.map fun _ => false
    sparseBytes := if retainColdHost then s.sparseBytes else 0 }

end State

/-! ## The rest of the executor -/

/-- What the functions read of a `KvMemBlock`. -/
structure Block where
  blockId : ℕ
  ssdClean : Bool
  inFlight : Bool
  nvmeSlot : ℤ
  deriving DecidableEq, Repr

/-- The vectors that `kvmem_evict_one_raw_k_chunk` and `kvmem_ensure_raw_k_chunks`
read of one segment. -/
structure SegmentTables where
  /-- `kvmem_raw_k_nvme_backed_`. -/
  backed : List Bool
  /-- `kvmem_raw_k_dirty_`. -/
  dirty : List Bool
  /-- `kvmem_raw_k_valid_tokens_`. -/
  validTokens : List Bool
  /-- `kvmem_raw_k_nvme_block_backed_`. -/
  blockBacked : List Bool
  /-- `kvmem_repository_raw_capture_chunks_`, sorted. -/
  capture : List ℕ
  deriving DecidableEq, Repr

/-- A call that leaves the budget as it is, and may throw. -/
abbrev Call (ω α : Type) := State → ω → Except String α × ω

/-- A call of a function of `PinnedKvTier`.  The executor never calls `touch`
itself; a candidate that is turned down for its heat is no call at all. -/
abbrev TierCall := { a : PinnedKvTier.Action // ∀ b, a ≠ .touch b }

/-- What the transfers of blocks do to the CPU tier. -/
inductive Transfer
  | tier (call : TierCall)
  | reserve (slot : ℤ)
  | release (slot : ℤ)

/-- The rest of the executor: what the functions read of its state `ω`, and the
functions that they call. -/
structure Outside (ω : Type) where
  /-- `block_store_->has_repository()`. -/
  hasRepository : ω → Bool
  /-- `block_store_->blocks()`. -/
  blocks : ω → List Block
  /-- `kvmem_block_pages_resident(block)`. -/
  blockPagesResident : ω → Block → Bool
  /-- `kvmem_nvme_tier_->block_slot(b)`. -/
  nvmeBlockSlot : ω → ℕ → ℤ
  tables : ω → Bool → SegmentTables
  /-- `kvmem_raw_writeback_chunk_slot_`. -/
  writebackChunkSlot : ω → List ℤ
  /-- `position_`. -/
  position : ω → ℕ
  /-- `kvmem_raw_k_nvme_tier_->block_slot(b)`. -/
  rawKBlockSlot : ω → ℕ → ℤ
  /-- Whether the read of chunk `chunk` has a span of a block:
  `repository_raw_span(kvmem_repository_raw_chunk_read(chunk), b)`. -/
  repositoryRawSpan : ω → (chunk b : ℕ) → Bool
  /-- `kvmem_gc_ && b < block_store_->block_count() && !block_store_->is_live(b)`. -/
  collected : ω → ℕ → Bool
  /-- `new uint8_t[bytes]`. -/
  allocate : ℕ → Call ω Unit
  /-- `kvmem_finish_proactive_d2h(true)`: the transfers it completes, and how it ends. -/
  finishProactiveD2h : State → ω → List Transfer × Except String Unit × ω
  /-- `kvmem_reap_pending_writes(true)`. -/
  reapPendingWrites : State → ω → List Transfer × Except String Unit × ω
  /-- `kvmem_flush_raw_k_writes(true)`. -/
  flushRawKWrites : Call ω Unit
  /-- `kvmem_persist_raw_k_chunk(chunk, mtp)`. -/
  persistRawKChunk : (chunk : ℕ) → (mtp : Bool) → Call ω Unit
  /-- `kvmem_repository_raw_chunk_read(chunk)`. -/
  repositoryRawChunkRead : (chunk : ℕ) → Call ω Unit
  /-- `kvmem_raw_k_nvme_tier_->read_slot_range(slot, offset, dst, bytes)`. -/
  readSlotRange : (slot : ℤ) → (offset bytes : ℕ) → Call ω Unit
  /-- `kvmem_repository_pin_current(b)`: whether there is a lease. -/
  repositoryPinCurrent : (b : ℕ) → Call ω Bool
  /-- `kvmem_nvme_tier_->write_block(b, src, bytes)`. -/
  writeBlock : (b : ℕ) → Call ω Unit
  /-- `block_store_->set_block_ssd_backing(b, slot, true, generation)`. -/
  setBlockSsdBacking : (b : ℕ) → (slot : ℤ) → Call ω Unit
  /-- `block_store_->set_block_cpu_copy(b, -1, generation)`. -/
  setBlockCpuCopy : (b : ℕ) → Call ω Unit
  /-- `block_store_->set_block_tier(b, KvTier::SSD, -1, slot, generation)`. -/
  setBlockTier : (b : ℕ) → (slot : ℤ) → Call ω Unit

/-! ## The functions -/

section Functions

variable {ω : Type} (c : Config) (o : Outside ω)

/-- A call of the rest of the executor. -/
def outside {α : Type} (call : Call ω α) : Program (State × ω) Halt α :=
  fun p => ((call p.1 p.2).1.mapError .error, p.1, (call p.1 p.2).2)

/-- `kvmem_reserve_cpu_slot(slot)`. -/
def kvmemReserveCpuSlot (slot : ℤ) : Program (State × ω) Halt Bool := do
  let (s, _) ← get
  match slot with
  | .negSucc _ => pure false
  | .ofNat i =>
      if !c.blockStore || s.slotLive.length ≤ i || c.slotBytes == 0 then pure false
      else if s.slotLive.getD i false then pure true
      else
        let slabIndex := i / c.slotsPerSlab
        match s.slabs[slabIndex]? with
        | none => pure false
        | some slab =>
            if slab.data then do
              modify fun p => (p.1.takeSlot i slabIndex slab, p.2)
              pure true
            else if c.slabBytes slab == 0 || !c.kvmemCpuBudgetHas s (c.slabBytes slab) then pure false
            else do
              outside (o.allocate (c.slabBytes slab))
              modify fun p =>
                ((p.1.allocateSlab c slabIndex slab).takeSlot i slabIndex { slab with data := true }, p.2)
              pure true

/-- `kvmem_release_cpu_slot(slot)`. -/
def kvmemReleaseCpuSlot (slot : ℤ) : Program (State × ω) Halt Unit :=
  modify fun p => (p.1.releaseCpuSlot c (o.hasRepository p.2) slot, p.2)

/-- One step of a transfer. -/
def Transfer.perform (t : Transfer) (p : State × ω) : State × ω :=
  match t with
  | .tier call => ({ p.1 with tier := p.1.tier.step call }, p.2)
  | .reserve slot => ((kvmemReserveCpuSlot c o slot).exec p).2
  | .release slot => ((kvmemReleaseCpuSlot c o slot).exec p).2

/-- A call that completes transfers. -/
def transfers (call : State → ω → List Transfer × Except String Unit × ω) :
    Program (State × ω) Halt Unit :=
  fun p =>
    let (ts, r, w) := call p.1 p.2
    (r.mapError .error, (ts.foldl (fun p t => t.perform c o p) p).1, w)

/-! ### Eviction of a chunk -/

/-- Whether `evict_from` takes `chunk` in its pass `pass`. -/
def takesChunk (s : State) (w : ω) (mtp protectMtp : Bool) (protectFirst protectLast activeChunk pass chunk : ℕ) :
    Bool :=
  let t := o.tables w mtp
  (s.mirror mtp).chunks.getD chunk false &&
    !decide (chunk ∈ t.capture) &&
    -- The chunks of one host capture stay until all of it has been copied.
    !(mtp == protectMtp && decide (protectFirst ≠ 2 ^ 32 - 1 ∧ protectFirst ≤ chunk ∧ chunk ≤ protectLast)) &&
    -- A direct transfer may already own the chunk.
    !decide (0 ≤ (o.writebackChunkSlot w).getD chunk (-1)) &&
    !(decide (pass < 2) && chunk == activeChunk) &&
    !(pass == 0 && !(t.backed.getD chunk false && !t.dirty.getD chunk true))

/-- The victim of `evict_from`: a clean chunk, else any but the active one, else
any. -/
def victimChunk (s : State) (w : ω) (mtp protectMtp : Bool) (protectFirst protectLast activeChunk : ℕ) :
    Option ℕ :=
  (List.range 3).findSome? fun pass =>
    (List.range (s.mirror mtp).chunks.length).find? fun chunk =>
      takesChunk o s w mtp protectMtp protectFirst protectLast activeChunk pass chunk

/-- `evict_from` of `kvmem_evict_one_raw_k_chunk`, for one segment. -/
def evictFrom (mtp protectMtp : Bool) (protectFirst protectLast activeChunk : ℕ) :
    Program (State × ω) Halt Bool := do
  let (s, w) ← get
  if c.rawKChunkBytes mtp = 0 then pure false
  else
    match victimChunk o s w mtp protectMtp protectFirst protectLast activeChunk with
    | none => pure false
    | some victim => do
        let t := o.tables w mtp
        let hasValid := ((t.validTokens.drop (victim * c.chunkTokens)).take c.chunkTokens).any id
        if hasValid && (!t.backed.getD victim false || t.dirty.getD victim false) then
          outside (o.persistRawKChunk victim mtp)
        modify fun p => (p.1.resetChunk mtp victim (c.rawKChunkBytes mtp), p.2)
        pure true

/-- `kvmem_evict_one_raw_k_chunk(protect_mtp, protect_first, protect_last)`. -/
def kvmemEvictOneRawKChunk (protectMtp : Bool) (protectFirst protectLast : ℕ) :
    Program (State × ω) Halt Bool := do
  if !c.rawKNvme then pure false
  else do
    let (s, w) ← get
    let activeChunk :=
      if c.chunkTokens = 0 then 2 ^ 32 - 1
      else min ((s.mirror false).chunks.length - 1) (o.position w / c.chunkTokens % 2 ^ 32)
    if ← evictFrom c o false protectMtp protectFirst protectLast activeChunk then pure true
    else evictFrom c o true protectMtp protectFirst protectLast activeChunk

/-! ### Room for raw keys -/

/-- A CPU copy that is redundant: of the first block that is resident on the GPU. -/
def redundantCopy (s : State) (w : ω) : Option (ℕ × ℤ) :=
  ((o.blocks w).find? fun b => decide (0 ≤ s.blockSlot b.blockId) && o.blockPagesResident w b).map
    fun b => (b.blockId, s.blockSlot b.blockId)

/-- A block and its slot leave the CPU tier. -/
def leaveCpuTier (b : ℕ) (slot : ℤ) : Program (State × ω) Halt Unit := do
  modify fun p => (p.1.releaseBlock b, p.2)
  kvmemReleaseCpuSlot c o slot

/-- The victim is written to its file, unless what is there is clean. -/
def writeVictim (victim : ℕ) (block : Block) : Program (State × ω) Halt Unit := do
  let (_, w) ← get
  if c.optimizeStageOut && (block.ssdClean || block.inFlight) && decide (0 ≤ block.nvmeSlot) &&
      o.nvmeBlockSlot w victim == block.nvmeSlot then pure ()
  else do
    outside (o.writeBlock victim)
    let (_, w) ← get
    if c.optimizeStageOut then outside (o.setBlockSsdBacking victim (o.nvmeBlockSlot w victim))
    else pure ()

/-- The victim is in its file only, unless it is resident on the GPU. -/
def retierVictim (victim : ℕ) (block : Block) : Program (State × ω) Halt Unit := do
  let (_, w) ← get
  if c.optimizeStageOut then do
    outside (o.setBlockCpuCopy victim)
    let (_, w) ← get
    if o.blockPagesResident w ((o.blocks w).getD victim block) then pure ()
    else outside (o.setBlockTier victim (o.nvmeBlockSlot w victim))
  else outside (o.setBlockTier victim (o.nvmeBlockSlot w victim))

/-- The block that is least recently used leaves for the file tier. -/
def spillVictim (victim : ℕ) : Program (State × ω) Halt Unit := do
  let (s, _) ← get
  let slot := s.blockSlot victim
  let lease ← outside (o.repositoryPinCurrent victim)
  let (_, w) ← get
  -- A retired entry is no longer an authority.
  if o.hasRepository w && !lease then leaveCpuTier c o victim slot
  else
    match (o.blocks w)[victim]? with
    | none => throw (.error "KVMem sparse CPU tier lost an LRU block while growing raw-K")
    | some block =>
        if slot < 0 || !c.kvmemCpuSlotData s slot then
          throw (.error "KVMem sparse CPU tier lost an LRU block while growing raw-K")
        else do
          writeVictim c o victim block
          leaveCpuTier c o victim slot
          retierVictim c o victim block

/-- One round of the loop of `kvmem_evict_cpu_for_raw`; whether there is another. -/
def evictRound (bytes : ℕ) (protectMtp : Bool) (protectFirst protectLast : ℕ) :
    Program (State × ω) Halt Bool := do
  let (s, w) ← get
  if c.kvmemCpuBudgetHas s bytes then pure false
  else
    match s.emptySlab with
    | some (i, slab) => do
        modify fun p => (p.1.resetSlab c i slab, p.2)
        pure true
    | none =>
        match (if !c.nvmeTier && c.inclusiveCpuBacking then redundantCopy o s w else none).filter
            (fun copy => copy.1 != 2 ^ 32 - 1) with
        | some (redundant, slot) => do
            leaveCpuTier c o redundant slot
            outside (o.setBlockCpuCopy redundant)
            pure true
        | none =>
            match if c.nvmeTier then s.lruVictim else none with
            | none => do
                if ← kvmemEvictOneRawKChunk c o protectMtp protectFirst protectLast then pure true
                else
                  throw (.error ("KVMem immutable raw-K growth exhausted --kvmem-cpu-gb; " ++
                    "no CPU V block or raw-K cache chunk can be evicted. Raise " ++
                    "the CPU budget or enable --kvmem-raw-k-nvme"))
            | some victim => do
                spillVictim c o victim
                pure true

/-- `kvmem_evict_cpu_for_raw(bytes, ..)`, whose loop may take `fuel s` rounds when it
starts in the state `s`. -/
def kvmemEvictCpuForRawIn (fuel : State → ℕ) (bytes : ℕ) (protectMtp : Bool)
    (protectFirst protectLast : ℕ) : Program (State × ω) Halt Unit := do
  let (s, _) ← get
  if c.kvmemCpuBudgetHas s bytes then pure ()
  else if !c.blockStore then
    throw (.error ("KVMem immutable raw-K growth exhausted --kvmem-cpu-gb; " ++
      "configure an NVMe tier or raise the CPU budget"))
  else do
    transfers c o o.finishProactiveD2h
    transfers c o o.reapPendingWrites
    let (s, _) ← get
    Program.loop .outOfFuel (evictRound c o bytes protectMtp protectFirst protectLast) (fuel s)

/-- `kvmem_evict_cpu_for_raw(bytes, ..)`: each round of the loop gives something up. -/
def kvmemEvictCpuForRaw (bytes : ℕ) (protectMtp : Bool) (protectFirst protectLast : ℕ) :
    Program (State × ω) Halt Unit :=
  kvmemEvictCpuForRawIn c o (fun s => s.evictable + 1) bytes protectMtp protectFirst protectLast

/-! ### Allocation of chunks -/

/-- `bt`. -/
def bt : ℕ := max 1 c.blockTokens

/-- `blocks_per_chunk`. -/
def blocksPerChunk : ℕ := c.chunkTokens / bt c

/-- `has_nvme_backing` of a chunk. -/
def hasNvmeBacking (t : SegmentTables) (chunk : ℕ) : Bool :=
  if c.rawKNvmeBlockSlots then
    ((t.blockBacked.drop (chunk * blocksPerChunk c)).take (blocksPerChunk c)).any id
  else t.backed.getD chunk false

/-- The read of one block of a chunk. -/
def readBlock (mtp : Bool) (chunk b : ℕ) : Program (State × ω) Halt Unit := do
  let (_, w) ← get
  let blockId := chunk * blocksPerChunk c + b
  let mainBytes := c.rawLayers * bt c * c.rowBytes
  if o.hasRepository w && !o.repositoryRawSpan w chunk blockId then pure ()
  else if o.collected w blockId then pure ()
  else if !(o.tables w mtp).blockBacked.getD blockId false then pure ()
  else if o.rawKBlockSlot w blockId < 0 then
    throw (.error "KVMem raw-K block backing metadata lost its NVMe slot")
  else
    outside (o.readSlotRange (o.rawKBlockSlot w blockId) (if mtp then mainBytes else 0)
      (if mtp then bt c * c.rowBytes else mainBytes))

/-- The new storage of a chunk is filled with what is on file. -/
def readBacking (mtp : Bool) (chunk : ℕ) : Program (State × ω) Halt Unit := do
  let (_, w) ← get
  if !(c.rawKNvme && hasNvmeBacking c (o.tables w mtp) chunk) then pure ()
  else if c.rawKNvmeBlockSlots then do
    if o.hasRepository w then outside (o.repositoryRawChunkRead chunk)
    let totalBlocks := (c.kvCtxSize + bt c - 1) / bt c
    (List.range (min (blocksPerChunk c) (totalBlocks - chunk * blocksPerChunk c))).forM
      (readBlock c o mtp chunk)
  else if o.rawKBlockSlot w chunk < 0 then
    throw (.error "KVMem raw-K backing metadata lost its NVMe slot")
  else
    outside (o.readSlotRange (o.rawKBlockSlot w chunk) (if mtp then c.rawKChunkBytes false else 0)
      (c.chunkBytes mtp))

/-- One test of `while (!kvmem_cpu_budget_has(chunk_bytes) && kvmem_evict_one_raw_k_chunk(..)) {}`. -/
def dropRound (mtp : Bool) (first last : ℕ) : Program (State × ω) Halt Bool := do
  let (s, _) ← get
  if c.kvmemCpuBudgetHas s (c.chunkBytes mtp) then pure false
  else kvmemEvictOneRawKChunk c o mtp first last

/-- That loop; each of its rounds frees a chunk. -/
def dropChunks (mtp : Bool) (first last : ℕ) : Program (State × ω) Halt Unit := do
  let (s, _) ← get
  Program.loop .outOfFuel (dropRound c o mtp first last) (s.evictable + 1)

/-- What is tried first where a chunk does not fit: `if (!kvmem_cpu_budget_has(chunk_bytes)
&& kvmem_raw_k_nvme_enabled_)`. -/
def whenShort (mtp : Bool) (x : Program (State × ω) Halt Unit) : Program (State × ω) Halt Unit := do
  let (s, _) ← get
  if !c.kvmemCpuBudgetHas s (c.chunkBytes mtp) && c.rawKNvme then x else pure ()

/-- One chunk of `kvmem_ensure_raw_k_chunks`. -/
def ensureChunk (mtp : Bool) (first last chunk : ℕ) : Program (State × ω) Halt Unit := do
  let (s, _) ← get
  if (s.mirror mtp).chunks.getD chunk false then pure ()
  else do
    whenShort c mtp (dropChunks c o mtp first last)
    whenShort c mtp (outside o.flushRawKWrites)
    kvmemEvictCpuForRaw c o (c.chunkBytes mtp) mtp first last
    let (s, _) ← get
    if !c.kvmemCpuBudgetHas s (c.chunkBytes mtp) then
      throw (.error "immutable raw-K chunk exceeds the configured CPU budget")
    else do
      outside (o.allocate (c.chunkBytes mtp))
      readBacking c o mtp chunk
      modify fun p => (p.1.allocateChunk mtp chunk (c.chunkBytes mtp), p.2)

/-- `kvmem_ensure_raw_k_chunks(base, rows, mtp)`. -/
def kvmemEnsureRawKChunks (base rows : ℕ) (mtp : Bool) : Program (State × ω) Halt Unit := do
  let (s, _) ← get
  let first := base / c.chunkTokens
  let last := (base + rows - 1) / c.chunkTokens
  if rows = 0 then pure ()
  else if c.kvCtxSize < base + rows || c.chunkTokens = 0 || c.rowBytes = 0 then
    throw (.error "immutable raw-K chunk range is invalid")
  else if (s.mirror mtp).chunks.length ≤ last then
    throw (.error "immutable raw-K chunk allocation is too large")
  else (List.range' first (last + 1 - first)).forM (ensureChunk c o mtp first last)

/-! ## The calls -/

/-- What is called, and what happens in between. -/
inductive Action (ω : Type)
  | reserveCpuSlot (slot : ℤ)
  | releaseCpuSlot (slot : ℤ)
  | ensureRawKChunks (base rows : ℕ) (mtp : Bool)
  | evictOneRawKChunk (protectMtp : Bool) (protectFirst protectLast : ℕ)
  | evictCpuForRaw (bytes : ℕ) (protectMtp : Bool) (protectFirst protectLast : ℕ)
  | tier (call : TierCall)
  | truncateRawK (tokenPos : ℕ)
  | reset (retainColdHost : Bool)
  /-- The rest of the executor gets to a state `w`. -/
  | outside (w : ω)

/-- The state after a call, also of one that throws. -/
def step (p : State × ω) : Action ω → State × ω
  | .reserveCpuSlot slot => ((kvmemReserveCpuSlot c o slot).exec p).2
  | .releaseCpuSlot slot => ((kvmemReleaseCpuSlot c o slot).exec p).2
  | .ensureRawKChunks base rows mtp => ((kvmemEnsureRawKChunks c o base rows mtp).exec p).2
  | .evictOneRawKChunk protectMtp protectFirst protectLast =>
      ((kvmemEvictOneRawKChunk c o protectMtp protectFirst protectLast).exec p).2
  | .evictCpuForRaw bytes protectMtp protectFirst protectLast =>
      ((kvmemEvictCpuForRaw c o bytes protectMtp protectFirst protectLast).exec p).2
  | .tier call => ({ p.1 with tier := p.1.tier.step call }, p.2)
  | .truncateRawK tokenPos => (p.1.kvmemTruncateRawK c tokenPos, p.2)
  | .reset retainColdHost => (p.1.reset retainColdHost, p.2)
  | .outside w => (p.1, w)

/-- The calls in any order, from the state that the configuration leaves. -/
def machine : Machine (State × ω) (Action ω) where
  init p := p.1 = c.initial
  step p a := some (step c o p a)

end Functions

end Qw3.RawK
