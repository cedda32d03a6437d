import Mathlib.Data.Multiset.AddSub
import Mathlib.Data.Multiset.Count
import Mathlib.Logic.Function.Basic
import Qw3.Lib.Machine
import Qw3.Lib.RingQueue
import Qw3.Repository.Control

/-!
# The repository as its threads run it

`kvmem_repository.cpp`, one atomic access per action.  The shared memory is the
slot array and the ready ring; around it run the single append producer
(`try_reserve`), one reclaimer (`try_reclaim`), and any number of anonymous
`Actor`s: the `Lease` and `Reservation` objects that exist, and the calls in
progress on them (`try_pin`, `clone`, `reset`, `commit`, `cancel`, `retire`,
`retire_if_unpinned`, `retire_if_only_reader`, `rescue`).  Actors are a
multiset, so a run may hold any number of them and schedule them in any order.

The six compare-exchange loops of the source share one shape: load the word,
decide from the loaded value, exchange, and go round again with the value the
failed exchange returned.  `CasOp.next` is the decision of each loop and
`Action.cas` is one round of any of them; a weak exchange may fail spuriously.

`issued` and `overflowed` are history: the handles of every reservation so far
and whether `push` ever threw.
-/

namespace Qw3.Repository

/-- `KvMemBlockHandle`. -/
structure KvMemBlockHandle where
  slot : ℕ
  generation : ℕ
  deriving DecidableEq, Repr

/-- `KvMemRepository::Record`. -/
structure Record where
  handle : KvMemBlockHandle
  logicalId : ℕ
  tokenBegin : ℕ
  tokenCount : ℕ
  deriving DecidableEq, Repr

/-- `Record::token_end`. -/
def Record.tokenEnd (r : Record) : ℕ := r.tokenBegin + r.tokenCount

/-- `KvMemRepository::Config`. -/
structure Config where
  capacity : ℕ
  blockTokens : ℕ
  deriving DecidableEq, Repr

/-- The constructor's check. -/
def Config.Valid (c : Config) : Prop :=
  c.capacity ≠ 0 ∧ c.capacity < uint32Max ∧ c.blockTokens ≠ 0

/-- `Shared::Slot`; `generation` is the separately atomic scan hint. -/
structure Slot where
  control : Control
  generation : ℕ
  record : Record
  deriving DecidableEq

/-- What a `try_pin` in progress was called for. -/
inductive PinGoal
  /-- `try_pin_slot(slot)` -/
  | slot (slot : ℕ)
  /-- `try_pin(h)` -/
  | handle (h : KvMemBlockHandle)
  /-- the `try_pin(h)` of `retire(h)` -/
  | retire (h : KvMemBlockHandle)
  /-- the `try_pin(h)` of `retire_if_unpinned(h)` -/
  | unpinned (h : KvMemBlockHandle)
  deriving DecidableEq, Repr

/-- The slot whose control word the pin acquires. -/
def PinGoal.target : PinGoal → ℕ
  | .slot i => i
  | .handle h | .retire h | .unpinned h => h.slot

/-- The compare-exchange loops. -/
inductive CasOp
  | pin (goal : PinGoal)
  /-- `Lease::clone`; `ofReservation` when the cloned lease is a reservation's -/
  | clone (ofReservation : Bool) (h : KvMemBlockHandle)
  | commit (h : KvMemBlockHandle)
  | cancel (h : KvMemBlockHandle)
  | retire (h : KvMemBlockHandle)
  | rescue (h : KvMemBlockHandle)
  deriving DecidableEq, Repr

/-- The slot of the control word a loop works on. -/
def CasOp.target : CasOp → ℕ
  | .pin goal => goal.target
  | .clone _ h | .commit h | .cancel h | .retire h | .rescue h => h.slot

/-- The handle of the lease a loop runs under; a pin has none yet. -/
def CasOp.handle : CasOp → Option KvMemBlockHandle
  | .pin _ => none
  | .clone _ h | .commit h | .cancel h | .retire h | .rescue h => some h

/-- The decision of each loop on the loaded word: the word to store, or `none`
where the loop leaves without storing. -/
def CasOp.next : CasOp → Control → Option Control
  | .pin _, prior => acquire false prior
  | .clone _ _, prior => acquire true prior
  | .commit _, prior => if prior.phase = .writing then some (prior.withPhase .live) else none
  | .cancel _, prior => if prior.phase = .writing then some (prior.withPhase .cancelled) else none
  | .retire _, prior => if prior.phase = .live then some (prior.withPhase .retired) else none
  | .rescue _, prior => if prior.phase = .retired then some (prior.withPhase .live) else none

/-- Lease and reservation objects, and the calls in progress on them. -/
inductive Actor
  | lease (h : KvMemBlockHandle)
  | reservation (h : KvMemBlockHandle)
  /-- a lease being destroyed at the end of a call -/
  | dropping (h : KvMemBlockHandle)
  /-- about to load the control word -/
  | load (op : CasOp)
  /-- about to decide on the loaded word and exchange it -/
  | cas (op : CasOp) (prior : Control)
  /-- the pin is counted, `record.handle` not yet read -/
  | pinned (goal : PinGoal)
  /-- `retire_if_unpinned` before its `retire_if_only_reader` -/
  | onlyReader (h : KvMemBlockHandle)
  deriving DecidableEq

/-- The lease object an actor owns. -/
def Actor.handle : Actor → Option KvMemBlockHandle
  | .lease h | .reservation h | .dropping h | .onlyReader h => some h
  | .load op | .cas op _ => op.handle
  | .pinned _ => none

/-- The slot an actor is counted on. -/
def Actor.slot : Actor → Option ℕ
  | .pinned goal => some goal.target
  | a => a.handle.map KvMemBlockHandle.slot

/-- The actors left when a loop stored its word. -/
def CasOp.stored : CasOp → List Actor
  | .pin goal => [.pinned goal]
  | .clone false h => [.lease h, .lease h]
  | .clone true h => [.reservation h, .lease h]
  | .commit h => [.lease h]
  | .cancel h => [.dropping h]
  | .retire h => [.dropping h]
  | .rescue h => [.lease h]

/-- The actors left when a loop gave up: `clone` and `commit` throw and leave
their object as it was. -/
def CasOp.refused : CasOp → List Actor
  | .pin _ => []
  | .clone false h => [.lease h]
  | .clone true h => [.reservation h]
  | .commit h => [.reservation h]
  | .cancel h => [.dropping h]
  | .retire h => [.dropping h]
  | .rescue h => [.lease h]

/-- The actors left when a pin compares the handle it read with the one it was
called for. -/
def PinGoal.pinned (goal : PinGoal) (read : KvMemBlockHandle) : List Actor :=
  match goal with
  | .slot _ => [.lease read]
  | .handle h => if read = h then [.lease read] else [.dropping read]
  | .retire h => if read = h then [.load (.retire read)] else [.dropping read]
  | .unpinned h => if read = h then [.onlyReader read] else [.dropping read]

/-- Where the append producer is inside `try_reserve`. -/
inductive ProducerPc
  | idle
  /-- before `tail.load` in `pop` -/
  | popTail (tokenBegin tokenCount : ℕ)
  /-- before the read of `ready[h]` -/
  | popCell (tokenBegin tokenCount : ℕ)
  /-- before `head.store` -/
  | popHead (tokenBegin tokenCount slot : ℕ)
  /-- before `control.store(Writing, 1)` -/
  | popped (tokenBegin tokenCount slot : ℕ)
  /-- before `++sequence` and the record write -/
  | claimed (tokenBegin tokenCount slot : ℕ)
  /-- before `generation.store` -/
  | recorded (h : KvMemBlockHandle)
  deriving DecidableEq, Repr

/-- Where the reclaimer is inside `try_reclaim`. -/
inductive ReclaimerPc
  | idle
  /-- the owner flag is set, before `control.load` -/
  | locked (h : KvMemBlockHandle)
  /-- before `generation.load` -/
  | loaded (h : KvMemBlockHandle) (prior : Control)
  /-- before the reader test and the exchange -/
  | checked (h : KvMemBlockHandle) (prior : Control)
  /-- inside the release callback -/
  | releasing (h : KvMemBlockHandle)
  /-- the callback returned true, before `control.store(Free)` -/
  | released (h : KvMemBlockHandle)
  /-- before the `head.load` of `push` -/
  | freed (slot : ℕ)
  /-- before the write of `ready[t]` -/
  | pushCell (slot : ℕ)
  /-- before `tail.store` -/
  | pushTail (slot : ℕ)
  /-- before `reclaim_owner.clear` -/
  | unlocking
  deriving DecidableEq

/-- The state of the repository and of every thread inside it. -/
structure State where
  config : Config
  slots : ℕ → Slot
  ready : RingQueue ℕ
  reclaimOwner : Bool
  sequence : ℕ
  producer : ProducerPc
  reclaimer : ReclaimerPc
  actors : Multiset Actor
  issued : List KvMemBlockHandle
  overflowed : Bool

/-- `Shared::Shared`. -/
def State.initial (c : Config) : State where
  config := c
  slots := fun _ => ⟨.free, 0, ⟨⟨uint32Max, 0⟩, 0, 0, 0⟩⟩
  ready := ⟨c.capacity, id, 0, c.capacity⟩
  reclaimOwner := false
  sequence := 0
  producer := .idle
  reclaimer := .idle
  actors := 0
  issued := []
  overflowed := false

/-- What a release callback did. -/
inductive ReleaseOutcome
  | returnedTrue | returnedFalse | threw
  deriving DecidableEq, Repr

/-- One atomic access of one thread, or the start of a call. -/
inductive Action
  | beginPin (goal : PinGoal)
  | beginClone (h : KvMemBlockHandle)
  | beginReservationLease (h : KvMemBlockHandle)
  | beginCommit (h : KvMemBlockHandle)
  | beginCancel (h : KvMemBlockHandle)
  | beginRescue (h : KvMemBlockHandle)
  | load (op : CasOp)
  | cas (op : CasOp) (prior : Control) (spurious : Bool)
  | readHandle (goal : PinGoal)
  | reset (h : KvMemBlockHandle)
  | drop (h : KvMemBlockHandle)
  | retireIfOnlyReader (h : KvMemBlockHandle)
  | retireUnpinned (h : KvMemBlockHandle)
  | tryReserve (tokenBegin tokenCount : ℕ)
  | produce
  | tryReclaim (h : KvMemBlockHandle)
  | reclaim (outcome : ReleaseOutcome)
  deriving DecidableEq

namespace State

variable (s : State)

/-- Store to the control word of a slot. -/
def setControl (i : ℕ) (c : Control) : State :=
  { s with slots := Function.update s.slots i { s.slots i with control := c } }

/-- Replace one actor by others, if it is there. -/
def replaceActor (a : Actor) (bs : List Actor) : Option State :=
  if a ∈ s.actors then some { s with actors := s.actors.erase a + (bs : Multiset Actor) }
  else none

/-- One round of a compare-exchange loop: give up on the loaded word, store the
next one if the word is still the loaded one, or reload it. -/
def casRound (op : CasOp) (prior : Control) (spurious : Bool) : Option State :=
  match op.next prior with
  | none => s.replaceActor (.cas op prior) op.refused
  | some next =>
      if (s.slots op.target).control = prior ∧ spurious = false then
        (s.setControl op.target next).replaceActor (.cas op prior) op.stored
      else s.replaceActor (.cas op prior) [.cas op (s.slots op.target).control]

/-- `retire_if_only_reader` on the lease of the actor `a`: one strong exchange
of `state(Live, 1)` for `state(Retired, 1)`. -/
def retireIfOnlyReader (a : Actor) (h : KvMemBlockHandle) (after : List Actor) : Option State :=
  if (s.slots h.slot).control = .single .live then
    (s.setControl h.slot (.single .retired)).replaceActor a after
  else s.replaceActor a after

/-- The next access of the append producer. -/
def produce : Option State :=
  match s.producer with
  | .idle => none
  | .popTail b n =>
      if s.ready.head = s.ready.tail then some { s with producer := .idle }
      else some { s with producer := .popCell b n }
  | .popCell b n => some { s with producer := .popHead b n (s.ready.cells s.ready.head) }
  | .popHead b n i => some { s with ready := s.ready.advanceHead, producer := .popped b n i }
  | .popped b n i =>
      some { s.setControl i (.single .writing) with producer := .claimed b n i }
  | .claimed b n i =>
      let h : KvMemBlockHandle := ⟨i, s.sequence + 1⟩
      some { s with
        sequence := s.sequence + 1
        slots := Function.update s.slots i { s.slots i with record := ⟨h, h.generation, b, n⟩ }
        issued := h :: s.issued
        producer := .recorded h }
  | .recorded h =>
      some { s with
        slots := Function.update s.slots h.slot
          { s.slots h.slot with generation := h.generation }
        actors := .reservation h ::ₘ s.actors
        producer := .idle }

/-- The next access of the reclaimer; `outcome` is read where the callback
returns. -/
def reclaim (outcome : ReleaseOutcome) : Option State :=
  match s.reclaimer with
  | .idle => none
  | .locked h =>
      let prior := (s.slots h.slot).control
      if prior.phase = .retired ∨ prior.phase = .releasing ∨ prior.phase = .cancelled then
        some { s with reclaimer := .loaded h prior }
      else some { s with reclaimer := .unlocking }
  | .loaded h prior =>
      if (s.slots h.slot).generation = h.generation then
        some { s with reclaimer := .checked h prior }
      else some { s with reclaimer := .unlocking }
  | .checked h prior =>
      if prior.refs ≠ 0 then some { s with reclaimer := .unlocking }
      else if prior.phase = .releasing then some { s with reclaimer := .releasing h }
      else if (s.slots h.slot).control = prior then
        some { s.setControl h.slot .releasing with reclaimer := .releasing h }
      else some { s with reclaimer := .unlocking }
  | .releasing h =>
      if outcome = .returnedTrue then some { s with reclaimer := .released h }
      else some { s with reclaimer := .unlocking }
  | .released h => some { s.setControl h.slot .free with reclaimer := .freed h.slot }
  | .freed i =>
      if s.ready.next s.ready.tail = s.ready.head then
        some { s with reclaimer := .unlocking, overflowed := true }
      else some { s with reclaimer := .pushCell i }
  | .pushCell i => some { s with ready := s.ready.writeTail i, reclaimer := .pushTail i }
  | .pushTail _ => some { s with ready := s.ready.advanceTail, reclaimer := .unlocking }
  | .unlocking => some { s with reclaimOwner := false, reclaimer := .idle }

/-- One action. -/
def step : Action → Option State
  | .beginPin goal =>
      if goal.target < s.config.capacity then
        some { s with actors := .load (.pin goal) ::ₘ s.actors }
      else none
  | .beginClone h => s.replaceActor (.lease h) [.load (.clone false h)]
  | .beginReservationLease h => s.replaceActor (.reservation h) [.load (.clone true h)]
  | .beginCommit h => s.replaceActor (.reservation h) [.load (.commit h)]
  | .beginCancel h => s.replaceActor (.reservation h) [.load (.cancel h)]
  | .beginRescue h => s.replaceActor (.lease h) [.load (.rescue h)]
  | .load op => s.replaceActor (.load op) [.cas op (s.slots op.target).control]
  | .cas op prior spurious => s.casRound op prior spurious
  | .readHandle goal =>
      s.replaceActor (.pinned goal) (goal.pinned (s.slots goal.target).record.handle)
  | .reset h =>
      (s.setControl h.slot (s.slots h.slot).control.decr).replaceActor (.lease h) []
  | .drop h =>
      (s.setControl h.slot (s.slots h.slot).control.decr).replaceActor (.dropping h) []
  | .retireIfOnlyReader h => s.retireIfOnlyReader (.lease h) h [.lease h]
  | .retireUnpinned h => s.retireIfOnlyReader (.onlyReader h) h [.dropping h]
  | .tryReserve b n =>
      if s.producer = .idle ∧ n ≠ 0 ∧ n ≤ s.config.blockTokens ∧ b + n ≤ uint64Max ∧
          s.sequence ≠ uint64Max then
        some { s with producer := .popTail b n }
      else none
  | .produce => s.produce
  | .tryReclaim h =>
      if s.reclaimer = .idle ∧ s.reclaimOwner = false ∧ h.slot < s.config.capacity ∧
          h.generation ≠ 0 then
        some { s with reclaimOwner := true, reclaimer := .locked h }
      else none
  | .reclaim outcome => s.reclaim outcome

end State

/-- The repository's machine. -/
def machine : Machine State Action where
  init s := ∃ c : Config, c.Valid ∧ s = State.initial c
  step := State.step

end Qw3.Repository
