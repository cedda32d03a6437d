import Qw3.Gc.Flags
import Qw3.Lib.Machine
import Qw3.Lib.OrdMap
import Qw3.Repository.Atomic

/-!
# The repository-backed store

`kvmem_store.cpp` in bounded mode: the block table indexed by physical slot, the
historical directory with one map node per slot, the append and rewind
transactions, the tier and flag setters, and the checkpoints in their table of
weak references.

The foreground is one thread; each of its public calls is one action here, and
between two of them the other callers of the repository do what they like
(`Action.other`).  A call that throws has no effect: the leases and
reservations it took end with it.  A lease that lives only inside a call is a
test (`Pinnable`), not a reference.

`committed` and `written` are history: the physical token that was committed for
a history position and not rewound since, and the commit that wrote it.
-/

namespace Qw3.Store

open Qw3.Repository (KvMemBlockHandle Record Repo uint32Max uint64Max)
open Qw3.Gc

/-- `INT32_MAX`. -/
def int32Max : ℕ := 2 ^ 31 - 1

/-! ## Data -/

/-- `KvTier`. -/
inductive KvTier
  | gpu | cpu | ssd
  deriving DecidableEq, Repr

/-- `KvMemBlock`, without its scores. -/
structure KvMemBlock where
  origPosStart : ℕ := 0
  nTokens : ℕ := 0
  tier : KvTier := .gpu
  gpuSlot : ℤ := -1
  cpuSlot : ℤ := -1
  nvmeSlot : ℤ := -1
  ssdClean : Bool := false
  dirtyGpu : Bool := false
  inFlight : Bool := false
  bakedPos : ℤ := -1
  remapCount : ℕ := 0
  remapAbsDelta : ℕ := 0
  inWorkingSet : Bool := false
  repositoryGeneration : ℕ := 0
  logicalId : ℕ := 0
  historyPosStart : ℕ := 0
  deriving DecidableEq, Repr

/-- `KvMemStorageSpan`. -/
structure Span where
  historyBegin : ℕ
  storageBegin : ℕ
  tokenCount : ℕ
  handle : KvMemBlockHandle
  deriving DecidableEq, Repr

/-- The exceptions of the store, each named for what its text says; the texts
themselves decide nothing. -/
inductive StoreError
  | unfinishedAppend | invalidAppend | blockIntervalOverflow | tailUnavailable | tailMismatch
  | identityExhausted | readyChanged | staleLease | invalidRange | alreadyInstalled
  | positionInstalled | nodeMissing | appendFinished | extensionOverflow | extensionBlockOverflow
  | lostCapacity | invalidCommit | historyChanged | notWritable | historyOverflow
  | requiredHistoryDeleted | rewindExceeds | partialTailDeleted | rewindInFlight
  | partialTailMismatch | rewindFinished | checkpointExceeds | checkpointCapacity
  | checkpointInvalid | checkpointMissing | staleGeneration | retiredBlock | stageInRetired
  | flagsOverridden | legacyOverflow
  deriving DecidableEq, Repr

/-- `KvMemStoreConfig`, as far as the block table depends on it. -/
structure StoreConfig where
  blockTokens : ℕ
  optimizeStageOut : Bool
  deriving DecidableEq, Repr

/-- `RepositoryAppend`.  The source keeps the spans and the reservations of the
new blocks in two vectors of the same order; here the reservation of a span is
its handle. -/
structure Append where
  begin : ℕ
  count : ℕ
  bakedBegin : ℕ
  tail : Option Span
  reserved : List Span
  deriving DecidableEq, Repr

/-- `spans_`. -/
def Append.spans (a : Append) : List Span := a.tail.toList ++ a.reserved

/-- Where the executor writes the tokens of a history position: the block and
the physical token its span names. -/
def Append.place (a : Append) (p : ℕ) : Option (KvMemBlockHandle × ℕ) :=
  (a.spans.find? fun sp => sp.historyBegin ≤ p ∧ p < sp.historyBegin + sp.tokenCount).map
    fun sp => (sp.handle, sp.storageBegin + (p - sp.historyBegin))

/-- The token count of the last span of a list is set. -/
def setLastCount (count : Span → ℕ) : List Span → List Span
  | [] => []
  | [sp] => [{ sp with tokenCount := count sp }]
  | sp :: rest => sp :: setLastCount count rest

/-- The append's spans after an extension to `stop`: the last one is filled up
to the end of its block, and the new blocks follow. -/
def Append.extended (a : Append) (count stop reservedEnd : ℕ) (more : List Span) : Append :=
  let last := fun sp : Span => min stop reservedEnd - sp.historyBegin
  { a with
    count := count
    tail := if a.reserved = [] then a.tail.map fun sp => { sp with tokenCount := last sp } else a.tail
    reserved := setLastCount last a.reserved ++ more }

/-- What `RepositoryRewind::commit` does to a captured block. -/
def KvMemBlock.rewound (position : ℕ) (b : KvMemBlock) : KvMemBlock :=
  if b.historyPosStart < position then
    { b with nTokens := position - b.historyPosStart, dirtyGpu := true, ssdClean := false }
  else { b with nTokens := 0, inWorkingSet := false }

/-- `RepositoryRewind`. -/
structure Rewind where
  position : ℕ
  captured : List Span
  deriving DecidableEq, Repr

/-- `RepositoryCheckpoint`; `alive` while somebody owns it, `created` is what
had been written when it was made. -/
structure Checkpoint where
  position : ℕ
  valid : Bool
  leases : List KvMemBlockHandle
  alive : Bool
  created : ℕ → ℕ

/-- The checkpoint is no longer valid and its leases end. -/
def Checkpoint.invalidated (c : Checkpoint) : Checkpoint := { c with valid := false, leases := [] }

/-- `repository_checkpoint_capacity`. -/
def checkpointCapacity : ℕ := 32

/-- The store, its repository and the transaction that is open.  Indices of
`checkpoints` are the identities the weak references of `table` name. -/
structure State where
  config : StoreConfig
  repo : Repo
  blocks : ℕ → KvMemBlock
  resident : ℕ → Option KvMemBlockHandle
  gcFlags : ℕ → ℕ
  history : OrdMap ℕ KvMemBlockHandle
  nodes : ℕ → Option (ℕ × KvMemBlockHandle)
  totalTokens : ℕ
  append : Option Append
  rewind : Option Rewind
  table : List (Option ℕ)
  checkpoints : List Checkpoint
  committed : ℕ → Option (KvMemBlockHandle × ℕ)
  written : ℕ → ℕ
  writes : ℕ

/-- The default `KvMemBlockHandle`. -/
def noHandle : KvMemBlockHandle := ⟨uint32Max, 0⟩

/-- The constructed store: every slot owns one parked node. -/
def State.initial (c : StoreConfig) (r : Repository.Config) : State where
  config := c
  repo := .initial r
  blocks := fun _ => {}
  resident := fun _ => none
  gcFlags := fun _ => 0
  history := .empty
  nodes := fun i => if i < r.capacity then some (i, noHandle) else none
  totalTokens := 0
  append := none
  rewind := none
  table := List.replicate checkpointCapacity none
  checkpoints := []
  committed := fun _ => none
  written := fun _ => 0
  writes := 0

namespace State

variable (s : State)

/-- `block_count()`. -/
def blockCount : ℕ := s.repo.config.capacity

/-- `repository_append_pending_`. -/
def appendPending : Bool := s.append.isSome || s.rewind.isSome

/-- `repository_handle(slot)`. -/
def repositoryHandle (slot : ℕ) : KvMemBlockHandle :=
  if slot < s.blockCount then ⟨slot, (s.blocks slot).repositoryGeneration⟩ else noHandle

/-- One entry of the block table changes. -/
def setBlock (i : ℕ) (b : KvMemBlock) : State := { s with blocks := Function.update s.blocks i b }

/-- `repository_resident_leases_[i].reset()`. -/
def resetResident (i : ℕ) : State :=
  match s.resident i with
  | some _ => { s with repo := s.repo.unpin i, resident := Function.update s.resident i none }
  | none => s

/-! ## Installation -/

/-- The node that will hold a slot's entry, and the directory without it: the
parked one, or the one taken from the slot's old position. -/
def takeNode (slot : ℕ) : Option (OrdMap ℕ KvMemBlockHandle) :=
  if (s.nodes slot).isSome then some s.history
  else
    let old := (s.blocks slot).historyPosStart
    if (s.history.lookup old).isSome then some (s.history.erase old) else none

/-- The store with the block `h` in place, its node in the directory. -/
def installed (h : KvMemBlockHandle) (bakedPos validTokens : ℕ)
    (history : OrdMap ℕ KvMemBlockHandle) : State :=
  let r := s.repo.record h.slot
  { s with
    history := history.insert r.tokenBegin h
    nodes := Function.update s.nodes h.slot none
    blocks := Function.update s.blocks h.slot {
      origPosStart := h.slot * s.config.blockTokens
      nTokens := validTokens
      dirtyGpu := true
      bakedPos := bakedPos
      repositoryGeneration := h.generation
      logicalId := r.logicalId
      historyPosStart := r.tokenBegin }
    gcFlags := Function.update s.gcFlags h.slot 0
    totalTokens := max s.totalTokens (r.tokenBegin + validTokens)
    resident := Function.update s.resident h.slot (some h) }

/-- `install_repository_block(lease, baked_pos, valid_tokens)`; the lease's
handle is `h`. -/
def install (h : KvMemBlockHandle) (bakedPos validTokens : ℕ) : Except StoreError State :=
  let r := s.repo.record h.slot
  let b := s.config.blockTokens
  if ¬ s.repo.Pinnable h then throw .staleLease
  else if r.tokenCount = 0 ∨ b < r.tokenCount ∨ r.tokenBegin % b ≠ 0 ∨ validTokens = 0 ∨
      r.tokenCount < validTokens ∨ int32Max < bakedPos + validTokens then throw .invalidRange
  else if (s.resident h.slot).isSome ∨
      (s.blocks h.slot).repositoryGeneration = h.generation then throw .alreadyInstalled
  else if (s.history.lookup r.tokenBegin).isSome then throw .positionInstalled
  else
    match s.takeNode h.slot with
    | none => throw .nodeMissing
    | some history => pure (s.installed h bakedPos validTokens history)

/-! ## Reading a history interval -/

/-- The loop of `repository_storage_read` over the directory from its iterator
on: the spans, and the repository with their leases in it. -/
def readSpans (stop : ℕ) : List (ℕ × KvMemBlockHandle) → ℕ → Repo → List Span × ℕ × Repo
  | [], covered, r => ([], covered, r)
  | (first, h) :: rest, covered, r =>
      if covered < stop then
        match r.tryPin h with
        | none => ([], covered, r)
        | some r' =>
            let b := s.blocks h.slot
            let last := first + b.nTokens
            if covered < first ∨ last ≤ covered then ([], covered, r)
            else
              let take := min last stop - covered
              let more := readSpans stop rest (covered + take)
                { r' with leases := h ::ₘ r'.leases }
              (⟨covered, b.origPosStart + (covered - first), take, h⟩ :: more.1, more.2)
      else ([], covered, r)

/-- `repository_storage_read(begin, count)`: the spans, and the repository with
the leases of the result. -/
def repositoryStorageRead (start count : ℕ) : Except StoreError (List Span × Repo) :=
  if uint64Max < start + count then throw .historyOverflow
  else if count = 0 then pure ([], s.repo)
  else
    let out := s.readSpans (start + count) (s.history.floor start) start s.repo
    if out.2.1 ≠ start + count then throw .requiredHistoryDeleted else pure (out.1, out.2.2)

/-! ## Appending -/

/-- `ceil_div_u32`. -/
def ceilDiv (a b : ℕ) : ℕ := (a + b - 1) / b

/-- The reservation loop of `prepare_repository_append` and `extend`: one block
for each multiple of `b` from `pos` to `stop`. -/
def reserveBlocks (b stop : ℕ) : ℕ → ℕ → Repo → Option (List Span × Repo)
  | 0, _, r => some ([], r)
  | n + 1, pos, r =>
      match r.tryReserve pos b with
      | none => none
      | some (h, r') =>
          (reserveBlocks b stop n (pos + b) r').map fun p =>
            (⟨pos, h.slot * b, min b (stop - pos), h⟩ :: p.1, p.2)

/-- The checks of the tail block and its pin, where the history ends inside a
block: its span, and the repository with the pin. -/
def pinTail (start take bakedBegin : ℕ) : Except StoreError (Option Span × Repo) :=
  let offset := start % s.config.blockTokens
  if take = 0 then pure (none, s.repo)
  else
    match s.history.lookup (start - offset) with
    | none => throw .tailUnavailable
    | some h =>
        match s.repo.tryPin h with
        | none => throw .tailUnavailable
        | some r =>
            let b := s.blocks h.slot
            if b.nTokens ≠ offset ∨ b.tier ≠ .gpu ∨ b.bakedPos + offset ≠ bakedBegin ∨
                (r.record h.slot).tokenCount < offset + take then throw .tailMismatch
            else pure (some ⟨start, b.origPosStart + offset, take, h⟩, r)

/-- `tail_take`: what of an append goes into the block the history ends in. -/
def tailTake (b start count : ℕ) : ℕ := if start % b = 0 then 0 else min count (b - start % b)

/-- `prepare_repository_append(count, baked_begin)`; `none` is the null result
when too few slots are ready.  The identities of the whole batch are checked at
once. -/
def prepareRepositoryAppend (count bakedBegin : ℕ) : Except StoreError (Option State) :=
  let b := s.config.blockTokens
  let start := s.totalTokens
  let stop := start + count
  let take := tailTake b start count
  let needed := ceilDiv (count - take) b
  if s.appendPending then throw .unfinishedAppend
  else if count = 0 ∨ uint64Max < stop ∨ int32Max < bakedBegin + count then throw .invalidAppend
  else if needed ≠ 0 ∧ (uint64Max - b) / b < (stop - 1) / b then throw .blockIntervalOverflow
  else if s.repo.ready.length < needed then pure none
  else if uint64Max < s.repo.sequence + needed then throw .identityExhausted
  else
    match s.pinTail start take bakedBegin with
    | .error e => throw e
    | .ok (tail, r) =>
        match reserveBlocks b stop needed (start + take) r with
        | none => throw .readyChanged
        | some (reserved, r) =>
            pure (some { s with
              repo := r, append := some ⟨start, count, bakedBegin, tail, reserved⟩ })

/-- `RepositoryAppend::extend(count)`; `none` where it returns false. -/
def extend (count : ℕ) : Except StoreError (Option State) :=
  match s.append with
  | none => throw .appendFinished
  | some a =>
      let b := s.config.blockTokens
      let stop := a.begin + count
      let reservedEnd := ((a.begin + a.count - 1) / b + 1) * b
      let needed := if stop ≤ reservedEnd then 0 else ceilDiv (stop - reservedEnd) b
      if count ≤ a.count then pure (some s)
      else if uint64Max < stop ∨ int32Max < a.bakedBegin + count then throw .extensionOverflow
      else if (uint64Max - b) / b < (stop - 1) / b then throw .extensionBlockOverflow
      else if s.repo.ready.length < needed then pure none
      else if uint64Max < s.repo.sequence + needed then throw .identityExhausted
      else
        match reserveBlocks b stop needed reservedEnd s.repo with
        | none => throw .lostCapacity
        | some (more, r) =>
            pure (some { s with
              repo := r, append := some (a.extended count stop reservedEnd more) })

/-- The tail's part of `RepositoryAppend::commit`. -/
def commitTail (accepted : ℕ) : Option Span → State
  | none => s
  | some sp =>
      let i := sp.handle.slot
      let b := s.blocks i
      let take := min sp.tokenCount accepted
      { s with
        blocks := Function.update s.blocks i { b with
          nTokens := b.nTokens + take
          dirtyGpu := b.dirtyGpu || accepted ≠ 0
          ssdClean := b.ssdClean && accepted = 0 }
        gcFlags := if accepted = 0 then s.gcFlags
          else Function.update s.gcFlags i (clearFlags (s.gcFlags i) backingFlags) }

/-- The reservation loop of `RepositoryAppend::commit`: blocks that begin before
`stop` are committed and installed. -/
def commitReserved (a : Append) (stop : ℕ) : List Span → State → Except StoreError State
  | [], s => pure s
  | sp :: rest, s =>
      if stop ≤ sp.historyBegin then commitReserved a stop rest s
      else
        match s.repo.commit sp.handle with
        | none => throw .notWritable
        | some r =>
            let baked := a.bakedBegin + (sp.historyBegin - a.begin)
            let valid := min sp.tokenCount (stop - sp.historyBegin)
            match ({ s with repo := r } : State).install sp.handle baked valid with
            | .error e => throw e
            | .ok s => commitReserved a stop rest s

/-- `reservations_.clear()`: what was not committed is cancelled. -/
def cancelReserved (stop : ℕ) (spans : List Span) (r : Repo) : Repo :=
  (spans.filter fun sp => stop ≤ sp.historyBegin).foldl (fun r sp => r.cancel sp.handle) r

/-- `tail_.reset()`. -/
def unpinTail (tail : Option Span) (r : Repo) : Repo :=
  match tail with
  | none => r
  | some sp => r.unpin sp.handle.slot

/-- The end of `RepositoryAppend::commit`: what was not committed is given back. -/
def finishAppend (a : Append) (stop : ℕ) : State :=
  { s with
    repo := unpinTail a.tail (cancelReserved stop a.reserved s.repo)
    totalTokens := stop
    append := none
    committed := fun p => if a.begin ≤ p ∧ p < stop then a.place p else s.committed p
    written := fun p => if a.begin ≤ p ∧ p < stop then s.writes + 1 else s.written p
    writes := s.writes + 1 }

/-- `RepositoryAppend::commit(accepted)`. -/
def commitAppend (accepted : ℕ) : Except StoreError State :=
  match s.append with
  | none => throw .invalidCommit
  | some a =>
      let stop := a.begin + accepted
      if a.count < accepted then throw .invalidCommit
      else if s.totalTokens ≠ a.begin then throw .historyChanged
      else
        (commitReserved a stop a.reserved (s.commitTail accepted a.tail)).map fun t =>
          t.finishAppend a stop

/-- The append is destroyed before any commit. -/
def cancelAppend : Except StoreError State :=
  match s.append with
  | none => throw .appendFinished
  | some a =>
      pure { s with
        repo := unpinTail a.tail (cancelReserved 0 a.reserved s.repo)
        append := none }

/-! ## Rewinding -/

/-- The loop of `prepare_repository_rewind` over the directory: what is
captured, and the repository with the captured leases. -/
def captureSpans (position : ℕ) :
    List (ℕ × KvMemBlockHandle) → Repo → Except StoreError (List Span × Repo)
  | [], r => pure ([], r)
  | (_, h) :: rest, r =>
      match r.tryPin h with
      | none => captureSpans position rest r
      | some r' =>
          let b := s.blocks h.slot
          let keep := position - b.historyPosStart
          if b.inFlight then throw .rewindInFlight
          else if b.nTokens < keep then throw .partialTailMismatch
          else if keep = b.nTokens then captureSpans position rest r
          else
            (captureSpans position rest r').map fun p =>
              (⟨b.historyPosStart, b.origPosStart, b.nTokens, h⟩ :: p.1, p.2)

/-- The test of `prepare_repository_rewind` for a position inside a block: the
block is there and can be pinned. -/
def PartialTail (position : ℕ) : Prop :=
  match s.history.lowerBound (position - position % s.config.blockTokens) with
  | [] => False
  | (first, h) :: _ => first = position - position % s.config.blockTokens ∧ s.repo.Pinnable h

instance (position : ℕ) : Decidable (s.PartialTail position) := by
  unfold PartialTail
  split
  · exact .isFalse id
  · exact inferInstanceAs (Decidable (_ ∧ _))

/-- `prepare_repository_rewind(position)`. -/
def prepareRepositoryRewind (position : ℕ) : Except StoreError State :=
  let boundary := position - position % s.config.blockTokens
  if s.appendPending then throw .unfinishedAppend
  else if s.totalTokens < position then throw .rewindExceeds
  else if position = s.totalTokens then pure { s with rewind := some ⟨position, []⟩ }
  else if position % s.config.blockTokens ≠ 0 ∧ ¬ s.PartialTail position then
    throw .partialTailDeleted
  else
    (s.captureSpans position (s.history.lowerBound boundary) s.repo).map fun p =>
      { s with repo := p.2, rewind := some ⟨position, p.1⟩ }

/-- The end of leases on the slots of a list of handles. -/
def unpinAll (hs : List KvMemBlockHandle) (r : Repo) : Repo :=
  hs.foldl (fun r h => r.unpin h.slot) r

local instance lawful_table : LawfulBEq (Option ℕ) := inferInstance

/-- The checkpoint with this identity is registered, owned and above the
position. -/
def ends (position : ℕ) (c : Checkpoint × ℕ) : Bool :=
  decide (some c.2 ∈ s.table) && (c.1.alive && decide (position < c.1.position))

/-- `RepositoryRewind::commit` ends every registered checkpoint above the
position. -/
def invalidateAbove (position : ℕ) : State :=
  { s with
    repo := unpinAll ((s.checkpoints.zipIdx.filter (s.ends position)).flatMap fun c => c.1.leases)
      s.repo
    checkpoints := s.checkpoints.zipIdx.map fun c =>
      if s.ends position c then c.1.invalidated else c.1 }

/-- One captured span in `RepositoryRewind::commit`: the partial tail is cut, a
later block is retired and dropped. -/
def commitSpan (position : ℕ) (sp : Span) : State :=
  let i := sp.handle.slot
  let b := s.blocks i
  let t :=
    if b.historyPosStart < position then
      { s with gcFlags := Function.update s.gcFlags i (clearFlags (s.gcFlags i) backingFlags) }
    else
      { ({ s with repo := s.repo.retire sp.handle } : State).resetResident i with
        gcFlags := Function.update s.gcFlags i 0 }
  t.setBlock i (b.rewound position)

/-- The directory loop of `RepositoryRewind::commit`: the nodes from the
position on are parked. -/
def unlinkFrom (position : ℕ) : State :=
  { s with
    history := s.history.below position
    nodes := (s.history.lowerBound position).foldl
      (fun nodes e => Function.update nodes e.2.slot (some e)) s.nodes }

/-- `RepositoryRewind::commit`.  The captured leases stay with the object, which
its owner destroys at any later time. -/
def commitRewind : Except StoreError State :=
  match s.rewind with
  | none => throw .rewindFinished
  | some w =>
      let t := (w.captured.foldl (fun s sp => s.commitSpan w.position sp)
        (s.invalidateAbove w.position)).unlinkFrom w.position
      pure { t with
        repo := { t.repo with
          leases := (w.captured.map Span.handle : Multiset KvMemBlockHandle) + t.repo.leases }
        totalTokens := w.position
        rewind := none
        committed := fun p => if p < w.position then t.committed p else none }

/-- The rewind is destroyed before its commit. -/
def abandonRewind : Except StoreError State :=
  match s.rewind with
  | none => throw .rewindFinished
  | some w =>
      pure { s with repo := unpinAll (w.captured.map Span.handle) s.repo, rewind := none }

/-! ## Tiers and flags -/

/-- `validate_repository_mutation(id, generation)`. -/
def validateMutation (id generation : ℕ) : Except StoreError Unit :=
  if generation = 0 ∨ (⟨id, generation⟩ : KvMemBlockHandle) ≠ s.repositoryHandle id then
    throw .staleGeneration
  else if ¬ s.repo.Pinnable ⟨id, generation⟩ then throw .retiredBlock
  else pure ()

/-- The resident lease that a move to `tier` takes or ends. -/
def moveResident (id : ℕ) (tier : KvTier) : Except StoreError State :=
  if tier = .gpu then
    if (s.resident id).isSome then pure s
    else
      match s.repo.tryPin (s.repositoryHandle id) with
      | none => throw .stageInRetired
      | some r =>
          pure { s with
            repo := r, resident := Function.update s.resident id (some (s.repositoryHandle id)) }
  else if (s.blocks id).inWorkingSet then pure s
  else pure (s.resetResident id)

end State

/-- What `set_block_tier` does to the block. -/
def KvMemBlock.setTier (b : KvMemBlock) (optimizeStageOut : Bool) (tier : KvTier)
    (cpuSlot nvmeSlot : ℤ) : KvMemBlock :=
  if optimizeStageOut then
    if tier = .gpu then
      { b with
        tier := tier
        cpuSlot := if 0 ≤ cpuSlot then cpuSlot else b.cpuSlot
        nvmeSlot := if 0 ≤ nvmeSlot then nvmeSlot else b.nvmeSlot }
    else
      { b with
        tier := tier
        gpuSlot := -1
        cpuSlot := cpuSlot
        nvmeSlot := if 0 ≤ nvmeSlot then nvmeSlot else b.nvmeSlot }
  else if tier = .gpu then
    { b with tier := tier, cpuSlot := -1, nvmeSlot := -1, ssdClean := false }
  else
    { b with
      tier := tier
      gpuSlot := -1
      cpuSlot := cpuSlot
      nvmeSlot := nvmeSlot
      ssdClean := decide (tier = .ssd ∧ 0 ≤ nvmeSlot) }

/-- What `set_block_ssd_backing` does to the block. -/
def KvMemBlock.setSsdBacking (b : KvMemBlock) (nvmeSlot : ℤ) (clean : Bool) : KvMemBlock :=
  let ssdClean := clean && decide (0 ≤ nvmeSlot)
  { b with nvmeSlot := nvmeSlot, ssdClean := ssdClean, dirtyGpu := b.dirtyGpu && !ssdClean }

/-- What `record_block_rerope` does to the block. -/
def KvMemBlock.rerope (b : KvMemBlock) (bakedPos : ℤ) : KvMemBlock :=
  if b.bakedPos = bakedPos then b
  else
    { b with
      remapCount := b.remapCount + 1
      remapAbsDelta := b.remapAbsDelta + (b.bakedPos - bakedPos).natAbs
      bakedPos := bakedPos }

/-- Whether a completed copy of the block's values exists below the GPU. -/
def KvMemBlock.backed (b : KvMemBlock) : Bool :=
  !b.dirtyGpu && !b.inFlight && (decide (0 ≤ b.cpuSlot) || b.ssdClean)

namespace State

variable (s : State)

/-- The `ValueBacked` flag follows the block. -/
def syncValueBacked (id : ℕ) : State :=
  let bit := if (s.blocks id).backed then valueBackedBit else 0
  { s with
    gcFlags := Function.update s.gcFlags id (clearFlags (s.gcFlags id) valueBackedBit ||| bit) }

/-- The block and the flags after its move to `tier`. -/
def tierSet (id : ℕ) (tier : KvTier) (cpuSlot nvmeSlot : ℤ) : State :=
  let b := (s.blocks id).setTier s.config.optimizeStageOut tier cpuSlot nvmeSlot
  let staged := s.config.optimizeStageOut && decide (tier = .cpu ∧ 0 ≤ cpuSlot) && !b.inFlight
  { s with
    blocks := Function.update s.blocks id { b with dirtyGpu := b.dirtyGpu && !staged }
    gcFlags := if staged then Function.update s.gcFlags id (s.gcFlags id ||| valueBackedBit)
      else s.gcFlags }

/-- `set_block_tier(id, tier, cpu_slot, nvme_slot, generation)`. -/
def setBlockTier (id : ℕ) (tier : KvTier) (cpuSlot nvmeSlot : ℤ) (generation : ℕ) :
    Except StoreError State :=
  match s.validateMutation id generation with
  | .error e => throw e
  | .ok () => (s.moveResident id tier).map fun s => s.tierSet id tier cpuSlot nvmeSlot

/-- `set_block_cpu_copy(id, cpu_slot, generation)`. -/
def setBlockCpuCopy (id : ℕ) (cpuSlot : ℤ) (generation : ℕ) : Except StoreError State :=
  let b := s.blocks id
  let copied := { b with cpuSlot := cpuSlot, dirtyGpu := b.dirtyGpu && !decide (0 ≤ cpuSlot) }
  (s.validateMutation id generation).map fun _ => (s.setBlock id copied).syncValueBacked id

/-- `set_block_ssd_backing(id, nvme_slot, clean, generation)`. -/
def setBlockSsdBacking (id : ℕ) (nvmeSlot : ℤ) (clean : Bool) (generation : ℕ) :
    Except StoreError State :=
  (s.validateMutation id generation).map fun _ =>
    (s.setBlock id ((s.blocks id).setSsdBacking nvmeSlot clean)).syncValueBacked id

/-- `set_block_io_in_flight(id, in_flight, generation)`. -/
def setBlockIoInFlight (id : ℕ) (inFlight : Bool) (generation : ℕ) : Except StoreError State :=
  (s.validateMutation id generation).map fun _ =>
    s.setBlock id { s.blocks id with inFlight := inFlight }

/-- `set_block_baked_pos(id, baked_pos, generation)`. -/
def setBlockBakedPos (id : ℕ) (bakedPos : ℤ) (generation : ℕ) : Except StoreError State :=
  (s.validateMutation id generation).map fun _ =>
    s.setBlock id { s.blocks id with bakedPos := bakedPos }

/-- `record_block_rerope(id, baked_pos, generation)`. -/
def recordBlockRerope (id : ℕ) (bakedPos : ℤ) (generation : ℕ) : Except StoreError State :=
  (s.validateMutation id generation).map fun _ => s.setBlock id ((s.blocks id).rerope bakedPos)

/-- The flags `set_repository_gc_flags` may assign. -/
def assignableFlags : ℕ :=
  backingFlags ||| anchorBit ||| mandatoryBit ||| duplicateBit ||| supersededBit

/-- `set_repository_gc_flags(h, mask, values)`. -/
def setRepositoryGcFlags (h : KvMemBlockHandle) (mask values : ℕ) : Except StoreError State :=
  match s.validateMutation h.slot h.generation with
  | .error e => throw e
  | .ok () =>
      if clearFlags mask assignableFlags ≠ 0 then throw .flagsOverridden
      else pure { s with
        gcFlags := Function.update s.gcFlags h.slot (assignFlags (s.gcFlags h.slot) mask values) }

/-! ## Checkpoints -/

/-- The loop of `repository_checkpoint_leases`. -/
def pinWorkingSet : List ℕ → Repo → Except StoreError (List KvMemBlockHandle × Repo)
  | [], r => pure ([], r)
  | i :: rest, r =>
      let b := s.blocks i
      if b.repositoryGeneration = 0 ∨ b.nTokens = 0 ∨ (b.inWorkingSet = false ∧ b.tier ≠ .gpu) then
        pinWorkingSet rest r
      else
        match r.tryPin (s.repositoryHandle i) with
        | none => throw .checkpointMissing
        | some r => (pinWorkingSet rest r).map fun p => (s.repositoryHandle i :: p.1, p.2)

/-- `repository_checkpoint_valid(c)`. -/
def CheckpointValid (c : Checkpoint) : Prop :=
  c.valid = true ∧ c.position ≤ s.totalTokens ∧
    ∀ h ∈ c.leases, s.repositoryHandle h.slot = h ∧ s.repo.Pinnable h

instance (c : Checkpoint) : Decidable (s.CheckpointValid c) :=
  inferInstanceAs (Decidable (_ ∧ _ ∧ _))

/-- `protect_repository_checkpoint(c)`: the leases taken, and the repository
without those the checkpoint had. -/
def protectLeases (c : Checkpoint) : Except StoreError (List KvMemBlockHandle × Repo) :=
  let keep := fun h : KvMemBlockHandle =>
    decide ((s.repo.record h.slot).tokenBegin < c.position)
  if ¬ s.CheckpointValid c then throw .checkpointInvalid
  else (s.pinWorkingSet (List.range s.blockCount) s.repo).map fun p =>
    (p.1.filter keep, unpinAll (p.1.filter (fun h => !keep h) ++ c.leases) p.2)

/-- The weak reference names nobody any more. -/
def expired (entry : Option ℕ) : Bool :=
  match entry.bind fun id => s.checkpoints[id]? with
  | some c => !c.alive
  | none => true

/-- `repository_checkpoint(position, pin_working_set)`. -/
def repositoryCheckpoint (position : ℕ) (pinWorkingSet : Bool) : Except StoreError State :=
  if s.totalTokens < position then throw .checkpointExceeds
  else
    match s.table.findIdx? s.expired with
    | none => throw .checkpointCapacity
    | some free =>
        let c : Checkpoint := ⟨position, true, [], true, s.written⟩
        let leases := if pinWorkingSet then s.protectLeases c else pure ([], s.repo)
        leases.map fun p => { s with
          repo := p.2
          checkpoints := s.checkpoints ++ [{ c with leases := p.1 }]
          table := s.table.set free (some s.checkpoints.length) }

/-- `protect_repository_checkpoint` of an existing checkpoint. -/
def protectRepositoryCheckpoint (id : ℕ) : Except StoreError State :=
  match s.checkpoints[id]? with
  | none => throw .checkpointInvalid
  | some c =>
      if c.alive then
        (s.protectLeases c).map fun p =>
          { s with repo := p.2, checkpoints := s.checkpoints.set id { c with leases := p.1 } }
      else throw .checkpointInvalid

/-- The last owner of a checkpoint lets go of it. -/
def dropCheckpoint (id : ℕ) : Option State :=
  match s.checkpoints[id]? with
  | none => none
  | some c =>
      if c.alive then
        some { s with
          repo := unpinAll c.leases s.repo
          checkpoints := s.checkpoints.set id { c with alive := false, leases := [] } }
      else none

end State

/-! ## The machine -/

/-- A call of the foreground, or of the repository's other callers. -/
inductive Action
  | other (a : Repo.Call)
  /-- `io_leases` and `storage_write`: a clone of a lease of the open append -/
  | ioLease (h : KvMemBlockHandle)
  | storageRead (start count : ℕ)
  | prepareAppend (count bakedBegin : ℕ)
  | extend (count : ℕ)
  | commitAppend (accepted : ℕ)
  | cancelAppend
  | prepareRewind (position : ℕ)
  | commitRewind
  | abandonRewind
  | setBlockTier (id : ℕ) (tier : KvTier) (cpuSlot nvmeSlot : ℤ) (generation : ℕ)
  | setBlockCpuCopy (id : ℕ) (cpuSlot : ℤ) (generation : ℕ)
  | setBlockSsdBacking (id : ℕ) (nvmeSlot : ℤ) (clean : Bool) (generation : ℕ)
  | setBlockIoInFlight (id : ℕ) (inFlight : Bool) (generation : ℕ)
  | setBlockBakedPos (id : ℕ) (bakedPos : ℤ) (generation : ℕ)
  | recordBlockRerope (id : ℕ) (bakedPos : ℤ) (generation : ℕ)
  | setRepositoryGcFlags (h : KvMemBlockHandle) (mask values : ℕ)
  | checkpoint (position : ℕ) (pinWorkingSet : Bool)
  | protect (id : ℕ)
  | dropCheckpoint (id : ℕ)
  deriving DecidableEq, Repr

/-- A call takes effect; `none` where it throws or returns without effect. -/
def State.step (s : State) : Action → Option State
  | .other a => (s.repo.step a).map fun r => { s with repo := r }
  | .ioLease h =>
      match s.append with
      | none => none
      | some a =>
          if h ∈ a.spans.map Span.handle then
            (s.repo.clone h.slot).map fun r =>
              { s with repo := { r with leases := h ::ₘ r.leases } }
          else none
  | .storageRead start count =>
      (s.repositoryStorageRead start count).toOption.map fun p => { s with repo := p.2 }
  | .prepareAppend count bakedBegin =>
      (s.prepareRepositoryAppend count bakedBegin).toOption.join
  | .extend count => (s.extend count).toOption.join
  | .commitAppend accepted => (s.commitAppend accepted).toOption
  | .cancelAppend => s.cancelAppend.toOption
  | .prepareRewind position => (s.prepareRepositoryRewind position).toOption
  | .commitRewind => s.commitRewind.toOption
  | .abandonRewind => s.abandonRewind.toOption
  | .setBlockTier id tier cpuSlot nvmeSlot generation =>
      (s.setBlockTier id tier cpuSlot nvmeSlot generation).toOption
  | .setBlockCpuCopy id cpuSlot generation => (s.setBlockCpuCopy id cpuSlot generation).toOption
  | .setBlockSsdBacking id nvmeSlot clean generation =>
      (s.setBlockSsdBacking id nvmeSlot clean generation).toOption
  | .setBlockIoInFlight id inFlight generation =>
      (s.setBlockIoInFlight id inFlight generation).toOption
  | .setBlockBakedPos id bakedPos generation =>
      (s.setBlockBakedPos id bakedPos generation).toOption
  | .recordBlockRerope id bakedPos generation =>
      (s.recordBlockRerope id bakedPos generation).toOption
  | .setRepositoryGcFlags h mask values => (s.setRepositoryGcFlags h mask values).toOption
  | .checkpoint position pin => (s.repositoryCheckpoint position pin).toOption
  | .protect id => (s.protectRepositoryCheckpoint id).toOption
  | .dropCheckpoint id => s.dropCheckpoint id

/-- The constructor's checks. -/
def ValidConfig (c : StoreConfig) (r : Repository.Config) : Prop :=
  r.Valid ∧ c.blockTokens ≠ 0 ∧ r.blockTokens = c.blockTokens ∧
    r.capacity * c.blockTokens ≤ int32Max

/-- The machine of a repository-backed store. -/
def machine : Machine State Action where
  init s := ∃ c r, ValidConfig c r ∧ s = State.initial c r
  step := State.step

end Qw3.Store
