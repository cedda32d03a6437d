import Qw3.Gc.Flags
import Qw3.Lib.SeqLock
import Qw3.Repository.Parties

/-!
# The repository's policy worker and its publisher

`kvmem_repository_gc.cpp` over the repository's machine.  Three parties share
the metadata of the slots and the repository:

* the foreground publishes (`publish`, one store at a time), moves
  `history_end_` and submits score frames (`submit_scores`, two stores);
* the worker runs `tick`: it snapshots scored slots, scans, and retires
  candidates, each of its loads one action;
* everybody else pins, clones, appends, retires, and so on: the actors of the
  repository that neither party holds.

A pin in progress is an actor like any other; when it is done its lease is
handed to the party that asked for it (`takes`).

What only decides *which* candidates a tick looks at is left to the actions:
the cursor, the clock and the batch limits, the arithmetic of
`kvmem_gc_score`, the order of the sort.  `history_` and the counters are not
modelled.  `Snapshot.log`, `Candidate.log`, `State.log` and `Moment` are
history: the publications completed so far, and what was the case when the
retiring exchange succeeded.
-/

namespace Qw3.RepositoryGc

open Qw3.Repository (KvMemBlockHandle Record Control Actor)
open Qw3.Gc

/-! ## Metadata -/

/-- The fields of `Metadata` behind its version. -/
inductive Field
  | generation | birth | lastUse | uses | flags
  deriving DecidableEq, Repr

/-- The order in which `snapshot` loads them. -/
def Field.all : List Field := [.generation, .birth, .lastUse, .uses, .flags]

theorem Field.mem_all (f : Field) : f ∈ Field.all := by
  cases f <;> decide

/-- `Metadata`. -/
abbrev Metadata := SeqLock Field ℕ

/-- The metadata of a slot never published. -/
def Metadata.zero : Metadata := ⟨0, fun _ => 0⟩

/-- `required` of `protected_now`. -/
def requiredFlags : ℕ := sealedBit ||| rawBackedBit ||| valueBackedBit ||| indexedBit

/-- `pinned` of `protected_now`. -/
def pinnedFlags : ℕ := gpuBit ||| ioBit ||| mandatoryBit ||| anchorBit

/-- All the required flags and none of the pinning ones. -/
def Retirable (flags : ℕ) : Prop :=
  flags &&& requiredFlags = requiredFlags ∧ flags &&& pinnedFlags = 0

instance (flags : ℕ) : Decidable (Retirable flags) := inferInstanceAs (Decidable (_ ∧ _))

/-- A completed call of `publish`: the metadata it left, and whether it stored
any. -/
structure Publication where
  record : Metadata
  stored : Bool

/-- A `snapshot` that returned true. -/
structure Snapshot where
  record : Metadata
  log : List Publication

/-- `Candidate`. -/
structure Candidate where
  handle : KvMemBlockHandle
  version : ℕ
  log : List Publication

/-- `Mode`. -/
inductive Mode
  | off | shadow | delete
  deriving DecidableEq, Repr

/-- `Config`, as far as retirement depends on it. -/
structure Config where
  recentTokens : ℕ
  mode : Mode
  deriving DecidableEq, Repr

/-- The block's tokens reach into the last `recent_tokens` before `end`. -/
def InRecentBand (c : Config) (historyEnd : ℕ) (r : Record) : Prop :=
  c.recentTokens ≠ 0 ∧ historyEnd - c.recentTokens < r.tokenEnd

instance (c : Config) (e : ℕ) (r : Record) : Decidable (InRecentBand c e r) :=
  inferInstanceAs (Decidable (_ ∧ _))

/-- `protected_now(r, m)` with the loaded `history_end_`. -/
def ProtectedNow (c : Config) (historyEnd : ℕ) (r : Record) (m : Metadata) : Prop :=
  m.cells .generation ≠ r.handle.generation ∨ ¬ Retirable (m.cells .flags) ∨
    InRecentBand c historyEnd r

instance (c : Config) (e : ℕ) (r : Record) (m : Metadata) : Decidable (ProtectedNow c e r m) :=
  inferInstanceAs (Decidable (_ ∨ _ ∨ _))

/-- The stores of a `publish` between its two increments of the version. -/
def publishStores (l : Metadata) (generation flags : ℕ) (used : Bool) (step : ℕ) :
    List (Field × ℕ) :=
  let fresh := l.cells .generation ≠ generation
  let lastUse := if fresh then step else l.cells .lastUse
  let uses := if fresh then (if step ≠ 0 then 1 else 0) else l.cells .uses
  (if fresh then
      [(.generation, generation), (.birth, step), (.lastUse, lastUse), (.uses, uses)]
    else []) ++
  (if used = true ∧ lastUse < step then [(.lastUse, step), (.uses, uses + 1)] else []) ++
  [(.flags, flags)]

/-! ## The parties -/

/-- Where the publisher is inside `publish`. -/
inductive PublisherPc
  | idle
  /-- before the first `version.fetch_add` -/
  | entering (h : KvMemBlockHandle) (stores : List (Field × ℕ))
  /-- these stores are left before the second `version.fetch_add` -/
  | writing (h : KvMemBlockHandle) (stores : List (Field × ℕ))
  /-- before the verifying pin is destroyed -/
  | leaving (h : KvMemBlockHandle)
  deriving DecidableEq

/-- What a snapshot of the worker is for. -/
inductive Purpose
  /-- an entry of a score frame, in `consume_scores` -/
  | score (slot : ℕ)
  /-- a slot of the scan -/
  | scan (h : KvMemBlockHandle)
  /-- a candidate about to be retired -/
  | retire (c : Candidate)

/-- The slot looked at. -/
def Purpose.slot : Purpose → ℕ
  | .score i => i
  | .scan h => h.slot
  | .retire c => c.handle.slot

/-- What was the case when a retiring exchange succeeded. -/
structure Moment where
  control : Control
  others : Multiset Actor
  record : Record
  metadata : Metadata
  log : List Publication
  historyEnd : ℕ
  /-- the `history_end_` that the check before the exchange had loaded -/
  checkedEnd : ℕ

/-- Where the worker is inside `tick`. -/
inductive WorkerPc
  | idle
  /-- in `consume_scores`, before the next entry -/
  | consuming
  /-- in the scan, before the next slot -/
  | scanning
  /-- in `retired_at`, before `control.load` -/
  | looking (slot : ℕ)
  /-- in `retired_at`, before `generation.load` -/
  | lookedRetired (slot : ℕ)
  /-- before `try_pin_slot` returns -/
  | pinningSlot (slot : ℕ)
  /-- before the candidates' next one -/
  | picking
  /-- before `try_pin` of a candidate returns -/
  | pinning (c : Candidate)
  /-- before the first load of a snapshot -/
  | opening (p : Purpose)
  | reading (p : Purpose) (r : SeqLock.Reader Field ℕ)
  /-- the snapshot returned true -/
  | seen (p : Purpose) (m : Snapshot)
  /-- not protected: before the policy's decision -/
  | deciding (h : KvMemBlockHandle) (m : Snapshot)
  /-- before `retire_if_only_reader` -/
  | retiring (c : Candidate) (m : Snapshot) (checkedEnd : ℕ)
  /-- retired: before the first load of the second snapshot -/
  | retired (c : Candidate) (m : Snapshot) (mo : Moment)
  | rereading (c : Candidate) (m : Snapshot) (mo : Moment) (r : SeqLock.Reader Field ℕ)
  /-- the second snapshot returned true -/
  | reseen (c : Candidate) (m : Snapshot) (mo : Moment) (after : Snapshot)
  /-- before `submitted_sequence_.load` -/
  | unchanged (c : Candidate) (m : Snapshot) (mo : Moment) (after : Snapshot)
  /-- before the load of `history_end_` -/
  | recheck (c : Candidate) (m : Snapshot) (mo : Moment) (after : Snapshot)
  /-- the block is left retired; `endAfter` is the loaded `history_end_` -/
  | left (c : Candidate) (m : Snapshot) (mo : Moment) (after : Snapshot) (endAfter : ℕ)
  /-- before `rescue` -/
  | rescue (h : KvMemBlockHandle)
  | rescuing (h : KvMemBlockHandle)
  /-- the lease is destroyed next; `scan` says in which loop -/
  | dropping (scan : Bool) (h : KvMemBlockHandle)
  /-- before `try_reclaim` -/
  | release (scan : Bool) (h : KvMemBlockHandle)
  | reclaiming (scan : Bool)

/-- The loop a worker returns to. -/
def WorkerPc.back (scan : Bool) : WorkerPc := if scan then .scanning else .picking

/-- Where a snapshot that fails, or a check on it, leads. -/
def Purpose.skip : Purpose → WorkerPc
  | .score _ => .consuming
  | .scan h => .dropping true h
  | .retire c => .dropping false c.handle

/-- The shared memory and the three parties. -/
structure State where
  config : Config
  repo : Repository.State
  metadata : ℕ → Metadata
  step : ℕ
  historyEnd : ℕ
  scores : ℕ
  submitted : ℕ
  scoreSequence : ℕ
  publisher : PublisherPc
  /-- the leases of a publication in progress -/
  publishing : Multiset Actor
  submitting : Bool
  worker : WorkerPc
  /-- the worker's lease, or its call on it -/
  held : Multiset Actor
  candidates : List Candidate
  log : ℕ → List Publication

/-- The constructed worker of an empty repository. -/
def State.initial (c : Config) (r : Repository.Config) : State where
  config := c
  repo := .initial r
  metadata := fun _ => .zero
  step := 0
  historyEnd := 0
  scores := 0
  submitted := 0
  scoreSequence := 0
  publisher := .idle
  publishing := 0
  submitting := false
  worker := .idle
  held := 0
  candidates := []
  log := fun _ => [⟨.zero, true⟩]

/-- One access of one party, or the start of a call. -/
inductive Action
  /-- a caller of the repository other than the two parties -/
  | repo (a : Repository.Action)
  | beginStep
  | setHistoryEnd (historyEnd : ℕ)
  | submitScores (sequence : ℕ)
  | submitted
  | publish (h : KvMemBlockHandle) (flags : ℕ) (used : Bool)
  | publishNext
  /-- the worker's next access -/
  | tick
  /-- the worker takes the next score entry, scan slot or candidate, or leaves
  the loop it is in -/
  | consume (slot : ℕ)
  | scan (slot : ℕ)
  | pick (index : ℕ)
  | leave
  /-- `try_pin_slot` or `try_pin` returns this lease, or an empty one -/
  | takes (h : KvMemBlockHandle)
  | refused
  /-- the policy's decision on the scanned block -/
  | decide (candidate : Bool)
  /-- one access of the worker's `rescue` or `try_reclaim` -/
  | call (a : Repository.Action)

/-- The actions of the reclaimer, which only the worker takes. -/
def isReclaim : Repository.Action → Bool
  | .tryReclaim _ | .reclaim _ => true
  | _ => false

/-- The accesses of a `rescue` in progress. -/
def isRescue (h : KvMemBlockHandle) : Repository.Action → Bool
  | .load (.rescue g) => g = h
  | .cas (.rescue g) _ _ => g = h
  | _ => false

namespace State

variable (s : State)

/-- The worker moves. -/
def goto (pc : WorkerPc) : State := { s with worker := pc }

@[simp] theorem goto_worker (pc : WorkerPc) : (s.goto pc).worker = pc := rfl
@[simp] theorem goto_repo (pc : WorkerPc) : (s.goto pc).repo = s.repo := rfl

/-- The record of the lease's slot, `lease.record()`. -/
def record (i : ℕ) : Record := (s.repo.slots i).record

/-- The repository with the actors of all parties in it. -/
def whole : Repository.State := s.repo.withActors (s.repo.actors + (s.publishing + s.held))

/-- A step of the repository taken by the callers that are neither party. -/
def repoStep (a : Repository.Action) : Option State :=
  (s.repo.step a).map fun r => { s with repo := r }

/-- A step of the repository taken by the worker with what it holds. -/
def heldStep (a : Repository.Action) (next : WorkerPc) : Option State :=
  (s.repo.stepAs s.held a).map fun p => { s with repo := p.1, held := p.2, worker := next }

/-- The start of `publish`: the caller's lease and the pin that verified it are
the publisher's from here on.  Nothing is stored where nothing changes. -/
def publish (h : KvMemBlockHandle) (flags : ℕ) (used : Bool) : Option State :=
  let l := s.metadata h.slot
  if s.publisher = .idle ∧ 2 ≤ s.repo.actors.count (.lease h) then
    let taken : State := { s with
      repo := s.repo.withActors (s.repo.actors - {.lease h, .lease h})
      publishing := {.lease h, .lease h} }
    if l.cells .generation = h.generation ∧ used = false ∧ l.cells .flags = flags then
      some { taken with
        log := Function.update s.log h.slot (⟨l, false⟩ :: s.log h.slot)
        publisher := .leaving h }
    else
      some { taken with
        publisher := .entering h (publishStores l h.generation flags used s.step) }
  else none

/-- The next access of the publisher. -/
def publishNext : Option State :=
  match s.publisher with
  | .idle => none
  | .entering h stores =>
      some { s with
        metadata := Function.update s.metadata h.slot (s.metadata h.slot).bump
        publisher := .writing h stores }
  | .writing h ((k, x) :: stores) =>
      some { s with
        metadata := Function.update s.metadata h.slot ((s.metadata h.slot).store k x)
        publisher := .writing h stores }
  | .writing h [] =>
      some { s with
        metadata := Function.update s.metadata h.slot (s.metadata h.slot).bump
        log := Function.update s.log h.slot (⟨(s.metadata h.slot).bump, true⟩ :: s.log h.slot)
        publisher := .leaving h }
  | .leaving h =>
      (s.repo.stepAs s.publishing (.reset h)).map fun p =>
        { s with
          repo := p.1.withActors (p.1.actors + p.2)
          publishing := 0
          publisher := .idle }

/-- The two loads of `snapshot` around a cell: the next cell, or the last load
of the version. -/
def read (r : SeqLock.Reader Field ℕ) (i : ℕ) (reading : SeqLock.Reader Field ℕ → WorkerPc)
    (accepted : Snapshot → WorkerPc) (failed : WorkerPc) : WorkerPc :=
  match r.todo with
  | k :: rest => reading (r.load (s.metadata i) k rest)
  | [] =>
      if (s.metadata i).version = r.version then accepted ⟨⟨r.version, r.values⟩, s.log i⟩
      else failed

/-- The start of `snapshot`: an odd version is refused. -/
def openRead (i : ℕ) (reading : SeqLock.Reader Field ℕ → WorkerPc) (failed : WorkerPc) :
    WorkerPc :=
  if (s.metadata i).version % 2 = 1 then failed
  else reading (.start (s.metadata i) Metadata.zero.cells Field.all)

/-- What a snapshot that returned true is checked for, up to `protected_now`. -/
def checkSeen (p : Purpose) (m : Snapshot) : WorkerPc :=
  match p with
  | .score _ => p.skip
  | .scan h =>
      if m.record.cells .generation ≠ h.generation ∨
          ProtectedNow s.config s.historyEnd (s.record h.slot) m.record then p.skip
      else .deciding h m
  | .retire c =>
      if m.record.version ≠ c.version ∨
          ProtectedNow s.config s.historyEnd (s.record c.handle.slot) m.record then p.skip
      else if s.config.mode = .shadow then p.skip
      else .retiring c m s.historyEnd

/-- What holds now, for a retirement of `c` by the exchange now succeeding. -/
def moment (c : Candidate) (checkedEnd : ℕ) : Moment where
  control := (s.repo.slots c.handle.slot).control
  others := s.repo.actors + s.publishing
  record := s.record c.handle.slot
  metadata := s.metadata c.handle.slot
  log := s.log c.handle.slot
  historyEnd := s.historyEnd
  checkedEnd := checkedEnd

/-- The worker's next access, where it has no choice. -/
def tick : Option State :=
  match s.worker with
  | .idle =>
      some { s with
        worker := if s.config.mode = .off then .scanning else .consuming
        scoreSequence := if s.config.mode = .off then s.scoreSequence
          else max s.scoreSequence s.scores
        candidates := [] }
  | .looking i =>
      let phase := (s.repo.slots i).control.phase
      let pc := if phase = .retired ∨ phase = .releasing ∨ phase = .cancelled then .lookedRetired i
        else if s.config.mode = .off then .scanning else .pinningSlot i
      some (s.goto pc)
  | .lookedRetired i => some (s.goto (.release true ⟨i, (s.repo.slots i).generation⟩))
  | .opening p => some (s.goto (s.openRead p.slot (.reading p) p.skip))
  | .reading p r => some (s.goto (s.read r p.slot (.reading p) (.seen p) p.skip))
  | .seen p m => some (s.goto (s.checkSeen p m))
  | .retiring c m checkedEnd =>
      if (s.repo.slots c.handle.slot).control = .single .live then
        s.heldStep (.retireIfOnlyReader c.handle) (.retired c m (s.moment c checkedEnd))
      else some (s.goto (.dropping false c.handle))
  | .retired c m mo =>
      some (s.goto (s.openRead c.handle.slot (.rereading c m mo) (.rescue c.handle)))
  | .rereading c m mo r =>
      some (s.goto (s.read r c.handle.slot (.rereading c m mo) (.reseen c m mo) (.rescue c.handle)))
  | .reseen c m mo after =>
      let pc := if after.record.version ≠ m.record.version then .rescue c.handle
        else .unchanged c m mo after
      some (s.goto pc)
  | .unchanged c m mo after =>
      let pc := if s.submitted ≠ s.scoreSequence then .rescue c.handle else .recheck c m mo after
      some (s.goto pc)
  | .recheck c m mo after =>
      let pc := if ProtectedNow s.config s.historyEnd (s.record c.handle.slot) after.record then
          .rescue c.handle
        else .left c m mo after s.historyEnd
      some (s.goto pc)
  | .left c _ _ _ _ => s.heldStep (.reset c.handle) (.release false c.handle)
  | .rescue h => s.heldStep (.beginRescue h) (.rescuing h)
  | .rescuing h =>
      if s.held = {.lease h} then some (s.goto (.dropping false h)) else none
  | .dropping scan h => s.heldStep (.reset h) (.back scan)
  | .release scan h => s.heldStep (.tryReclaim h) (.reclaiming scan)
  | .reclaiming scan =>
      if s.repo.reclaimer = .idle then some (s.goto (.back scan)) else none
  | .consuming | .scanning | .pinningSlot _ | .picking | .pinning _ | .deciding _ _ => none

/-- One action. -/
def next : Action → Option State
  | .repo a => if isReclaim a then none else s.repoStep a
  | .beginStep => if s.publisher = .idle then some { s with step := s.step + 1 } else none
  | .setHistoryEnd e => some { s with historyEnd := e }
  | .submitScores n =>
      if s.submitting = false ∧ s.submitted < n then
        some { s with scores := n, submitting := true }
      else none
  | .submitted =>
      if s.submitting = true then some { s with submitted := s.scores, submitting := false }
      else none
  | .publish h flags used => s.publish h flags used
  | .publishNext => s.publishNext
  | .tick => s.tick
  | .consume i =>
      match s.worker with
      | .consuming => some (s.goto (.opening (.score i)))
      | _ => none
  | .scan i =>
      match s.worker with
      | .scanning =>
          if i < s.repo.config.capacity then some (s.goto (.looking i)) else none
      | _ => none
  | .pick k =>
      match s.worker, s.candidates[k]? with
      | .picking, some c =>
          some { s.goto (.pinning c) with candidates := s.candidates.eraseIdx k }
      | _, _ => none
  | .leave =>
      match s.worker with
      | .consuming => some (s.goto .scanning)
      | .scanning => some (s.goto .picking)
      | .picking => some (s.goto .idle)
      | .release scan _ => some (s.goto (.back scan))
      | _ => none
  | .takes h =>
      if Actor.lease h ∈ s.repo.actors then
        let taken : State := { s with
          repo := s.repo.withActors (s.repo.actors.erase (.lease h)), held := {.lease h} }
        match s.worker with
        | .pinningSlot i =>
            if h.slot = i then some (taken.goto (.opening (.scan h))) else none
        | .pinning c =>
            if h = c.handle then some (taken.goto (.opening (.retire c))) else none
        | _ => none
      else none
  | .refused =>
      match s.worker with
      | .pinningSlot _ => some (s.goto .scanning)
      | .pinning _ => some (s.goto .picking)
      | _ => none
  | .decide candidate =>
      match s.worker with
      | .deciding h m =>
          some { s with
            worker := .dropping true h
            candidates := if candidate then ⟨h, m.record.version, m.log⟩ :: s.candidates
              else s.candidates }
      | _ => none
  | .call a =>
      match s.worker with
      | .rescuing h => if isRescue h a then s.heldStep a (.rescuing h) else none
      | .reclaiming scan =>
          match a with
          | .reclaim outcome => s.heldStep (.reclaim outcome) (.reclaiming scan)
          | _ => none
      | _ => none

end State

/-- The machine of the repository, its publisher and its worker. -/
def machine : Machine State Action where
  init s := ∃ c r, r.Valid ∧ s = State.initial c r
  step := State.next

end Qw3.RepositoryGc
