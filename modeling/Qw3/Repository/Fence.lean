import Mathlib.Data.Multiset.Count
import Mathlib.Data.List.Perm.Subperm
import Qw3.Repository.Concurrent

/-!
# The lifetime fence

The invariant of the repository's machine and what it says about leases, slots
and generations in every reachable state.

* `State.holders` — who is counted on a slot: the actors on it, and the
  producer between its claim and the reservation it returns.  `Inv.refs` says
  the control word counts exactly these.
* `State.queue` — the ready ring together with the slots in transit at its two
  ends.  `Inv.mem_queue` says it holds exactly the `Free` slots, and
  `Inv.queue_nodup` each of them once; a push therefore never meets a full
  ring.
* `inv_replaceActor` — every call on a lease, in one lemma: what a step that
  stores one control word and replaces one actor has to keep.
* `lifetimeFence` — the fence itself.
-/

namespace Qw3.Repository

/-- The slot an actor's next access is about. -/
def Actor.target : Actor → ℕ
  | .lease h | .reservation h | .dropping h | .onlyReader h => h.slot
  | .load op | .cas op _ => op.target
  | .pinned goal => goal.target

/-- The reference the producer holds between its claim of a slot and the
reservation it hands out. -/
def ProducerPc.refs (pc : ProducerPc) (i : ℕ) : ℕ :=
  match pc with
  | .claimed _ _ j => if j = i then 1 else 0
  | .recorded h => if h.slot = i then 1 else 0
  | _ => 0

/-- The slot popped and not yet claimed. -/
def ProducerPc.transit : ProducerPc → List ℕ
  | .popped _ _ i => [i]
  | _ => []

/-- The slot freed and not yet pushed. -/
def ReclaimerPc.transit : ReclaimerPc → List ℕ
  | .freed i | .pushCell i | .pushTail i => [i]
  | _ => []

/-- The handle the reclaimer's call was made with, until the slot is free. -/
def ReclaimerPc.handle : ReclaimerPc → Option KvMemBlockHandle
  | .locked h | .loaded h _ | .checked h _ | .releasing h | .released h => some h
  | _ => none

/-- The handle, once the loaded phase was one of a retired slot. -/
def ReclaimerPc.seen : ReclaimerPc → Option KvMemBlockHandle
  | .loaded h _ | .checked h _ | .releasing h | .released h => some h
  | _ => none

/-- The handle, once the generation was found to be its own. -/
def ReclaimerPc.matched : ReclaimerPc → Option KvMemBlockHandle
  | .checked h _ | .releasing h | .released h => some h
  | _ => none

/-- The reclaimer has seen its slot in phase `Releasing`. -/
def ReclaimerPc.SawReleasing : ReclaimerPc → Prop
  | .loaded _ prior | .checked _ prior => prior.phase = .releasing
  | .releasing _ | .released _ => True
  | _ => False

namespace State

/-- How many hold a reference on slot `i`. -/
def holders (s : State) (i : ℕ) : ℕ :=
  s.actors.countP (fun a => a.slot = some i) + s.producer.refs i

/-- The ready ring and the slots in transit at its ends. -/
def queue (s : State) : List ℕ :=
  s.producer.transit ++ s.ready.contents ++ s.reclaimer.transit

/-- The phase of a slot. -/
def phase (s : State) (i : ℕ) : Phase := (s.slots i).control.phase

end State

/-- The invariant of the repository. -/
structure Inv (s : State) : Prop where
  valid : s.config.Valid
  ready_capacity : s.ready.capacity = s.config.capacity
  ready_wf : s.ready.WellFormed
  refs : ∀ i, (s.slots i).control.refs = s.holders i
  phase_of_refs : ∀ i, (s.slots i).control.refs ≠ 0 →
    s.phase i ≠ .free ∧ s.phase i ≠ .releasing
  handle : ∀ a ∈ s.actors, ∀ h, a.handle = some h → (s.slots h.slot).record.handle = h
  target_lt : ∀ a ∈ s.actors, a.target < s.config.capacity
  record_slot : ∀ i, s.phase i ≠ .free → (∀ b n, s.producer ≠ .claimed b n i) →
    (s.slots i).record.handle.slot = i
  generation : ∀ i, s.phase i ≠ .free → s.producer.refs i = 0 →
    (s.slots i).generation = (s.slots i).record.handle.generation
  popCell : ∀ b n, s.producer = .popCell b n → s.ready.head ≠ s.ready.tail
  popHead : ∀ b n i, s.producer = .popHead b n i →
    s.ready.head ≠ s.ready.tail ∧ s.ready.cells s.ready.head = i
  claimed : ∀ i, s.producer.refs i ≠ 0 →
    i < s.config.capacity ∧ s.phase i = .writing ∧ (s.slots i).control.refs = 1
  recorded : ∀ h, s.producer = .recorded h →
    h.slot < s.config.capacity ∧ (s.slots h.slot).record.handle = h
  queue_nodup : s.queue.Nodup
  mem_queue : ∀ i, i ∈ s.queue ↔ i < s.config.capacity ∧ s.phase i = .free
  reclaim_lt : ∀ h, s.reclaimer.handle = some h → h.slot < s.config.capacity
  reclaim_seen : ∀ h, s.reclaimer.seen = some h → s.phase h.slot ≠ .free ∧ s.phase h.slot ≠ .writing
  reclaim_matched : ∀ h, s.reclaimer.matched = some h → (s.slots h.slot).record.handle = h
  reclaim_releasing : ∀ h, s.reclaimer.handle = some h → s.reclaimer.SawReleasing →
    s.phase h.slot = .releasing
  pushTail : ∀ i, s.reclaimer = .pushTail i → s.ready.cells s.ready.tail = i
  issued_le : ∀ h ∈ s.issued, h.generation ≤ s.sequence
  issued_nodup : (s.issued.map KvMemBlockHandle.generation).Nodup
  overflowed : s.overflowed = false

variable {h : KvMemBlockHandle}

theorem ReclaimerPc.seen_of_matched {pc : ReclaimerPc}
    (hh : pc.matched = some h) : pc.seen = some h := by
  cases pc <;> simp_all [ReclaimerPc.matched, ReclaimerPc.seen]

theorem ReclaimerPc.handle_of_seen {pc : ReclaimerPc}
    (hh : pc.seen = some h) : pc.handle = some h := by
  cases pc <;> simp_all [ReclaimerPc.handle, ReclaimerPc.seen]

/-! ## Actors come and go -/

@[simp] theorem Actor.slot_reservation (h : KvMemBlockHandle) :
    (Actor.reservation h).slot = some h.slot := rfl

variable {a : Actor}

theorem Actor.target_of_slot {i : ℕ} (h : a.slot = some i) : a.target = i := by
  cases a with
  | load op | cas op _ => cases op <;> simp_all [Actor.slot, Actor.handle, CasOp.handle,
      Actor.target, CasOp.target]
  | _ => simpa [Actor.slot, Actor.handle, Actor.target] using h

theorem Actor.slot_of_handle (hh : a.handle = some h) :
    a.slot = some h.slot := by
  cases a <;> simp_all [Actor.slot, Actor.handle]

namespace State

variable {s t : State}

@[simp] theorem setControl_control_self (s : State) (i : ℕ) (c : Control) :
    ((s.setControl i c).slots i).control = c := by simp [setControl]

theorem setControl_control (s : State) (i j : ℕ) (c : Control) :
    ((s.setControl i c).slots j).control = if j = i then c else (s.slots j).control := by
  by_cases h : j = i
  · subst h
    simp
  · simp [setControl, h]

@[simp] theorem setControl_record (s : State) (i j : ℕ) (c : Control) :
    ((s.setControl i c).slots j).record = (s.slots j).record := by
  by_cases h : j = i
  · subst h
    simp [setControl]
  · simp [setControl, h]

@[simp] theorem setControl_generation (s : State) (i j : ℕ) (c : Control) :
    ((s.setControl i c).slots j).generation = (s.slots j).generation := by
  by_cases h : j = i
  · subst h
    simp [setControl]
  · simp [setControl, h]

theorem setControl_self (s : State) (i : ℕ) : s.setControl i (s.slots i).control = s := by
  simp [setControl]

theorem replaceActor_eq_some {bs : List Actor} :
    s.replaceActor a bs = some t ↔
      a ∈ s.actors ∧ { s with actors := s.actors.erase a + (bs : Multiset Actor) } = t := by
  simp [replaceActor]

/-- The count of a slot's holders follows the actors replaced. -/
theorem holders_replace (ha : a ∈ s.actors) (bs : List Actor) (i : ℕ) :
    ({ s with actors := s.actors.erase a + (bs : Multiset Actor) } : State).holders i +
        (if a.slot = some i then 1 else 0) =
      s.holders i + bs.countP fun b => b.slot = some i := by
  obtain ⟨rest, hrest⟩ := Multiset.exists_cons_of_mem ha
  simp only [holders, hrest, Multiset.erase_cons_head, Multiset.countP_add, Multiset.coe_countP,
    Multiset.countP_cons]
  omega

end State

variable {s t : State}

/-- A state whose control word of slot `i` was stored and whose actor `a` was
replaced by `bs` keeps the invariant, provided the word counts the change of
holders, the phase neither enters nor leaves `Free` and `Releasing`, a slot the
producer is claiming is left alone, and the new actors name installed records. -/
theorem inv_replaceActor (hs : Inv s) {i : ℕ} {c : Control}
    {bs : List Actor} (ht : (s.setControl i c).replaceActor a bs = some t)
    (hrefs : c.refs + (if a.slot = some i then 1 else 0) =
      (s.slots i).control.refs + bs.countP fun b => b.slot = some i)
    (hother : ∀ j, j ≠ i → (if a.slot = some j then 1 else 0) = bs.countP fun b => b.slot = some j)
    (hlive : c.refs ≠ 0 → c.phase ≠ .free ∧ c.phase ≠ .releasing)
    (hfree : c.phase = .free ↔ s.phase i = .free)
    (hreleasing : s.phase i = .releasing → c.phase = .releasing)
    (hwriting : c.phase = .writing → s.phase i = .writing)
    (hclaimed : s.producer.refs i ≠ 0 → c = (s.slots i).control)
    (hhandle : ∀ b ∈ bs, ∀ h, b.handle = some h → (s.slots h.slot).record.handle = h)
    (htarget : ∀ b ∈ bs, b.target < s.config.capacity) : Inv t := by
  obtain ⟨ha, rfl⟩ := State.replaceActor_eq_some.mp ht
  have ha' : a ∈ s.actors := ha
  have hphase : ∀ j, ({ s.setControl i c with
      actors := (s.setControl i c).actors.erase a + (bs : Multiset Actor) } : State).phase j =
        if j = i then c.phase else s.phase j := by
    intro j
    simp only [State.phase, State.setControl_control]
    split <;> rfl
  have hmem : ∀ b ∈ s.actors.erase a + (bs : Multiset Actor), b ∈ s.actors ∨ b ∈ bs := by
    intro b hb
    rw [Multiset.mem_add, Multiset.mem_coe] at hb
    exact hb.imp_left Multiset.mem_of_mem_erase
  have hfree' : ∀ j, (if j = i then c.phase else s.phase j) = .free ↔ s.phase j = .free := by
    intro j
    split
    · rename_i h
      subst h
      exact hfree
    · rfl
  refine
    { valid := hs.valid
      ready_capacity := hs.ready_capacity
      ready_wf := hs.ready_wf
      refs := fun j => ?_
      phase_of_refs := fun j => ?_
      handle := fun b hb h hbh => ?_
      target_lt := fun b hb => ?_
      record_slot := fun j hj hp => ?_
      generation := fun j hj hp => ?_
      popCell := hs.popCell
      popHead := hs.popHead
      claimed := fun j hp => ?_
      recorded := fun h hp => ?_
      queue_nodup := hs.queue_nodup
      mem_queue := fun j => ?_
      reclaim_lt := hs.reclaim_lt
      reclaim_seen := fun h hh => ?_
      reclaim_matched := fun h hh =>
        (congrArg (·.handle) (State.setControl_record s i h.slot c)).trans (hs.reclaim_matched h hh)
      reclaim_releasing := fun h hh hsaw => ?_
      pushTail := hs.pushTail
      issued_le := hs.issued_le
      issued_nodup := hs.issued_nodup
      overflowed := hs.overflowed }
  · have hcount := State.holders_replace (s := s) ha' bs j
    have hold := hs.refs j
    change ((s.setControl i c).slots j).control.refs =
      ({ s with actors := s.actors.erase a + (bs : Multiset Actor) } : State).holders j
    rw [State.setControl_control]
    by_cases hj : j = i
    · subst hj
      rw [if_pos rfl]
      omega
    · have := hother j hj
      rw [if_neg hj]
      omega
  · rw [hphase]
    change ((s.setControl i c).slots j).control.refs ≠ 0 → _
    rw [State.setControl_control]
    split
    · exact hlive
    · exact hs.phase_of_refs j
  · rw [show ∀ k, (({ s.setControl i c with
        actors := (s.setControl i c).actors.erase a + (bs : Multiset Actor) } : State).slots k).record =
          (s.slots k).record from fun k => State.setControl_record s i k c]
    exact (hmem b hb).elim (fun hb => hs.handle b hb h hbh) fun hb => hhandle b hb h hbh
  · exact (hmem b hb).elim (hs.target_lt b) (htarget b)
  · rw [hphase, ne_eq, hfree'] at hj
    exact (congrArg (·.handle.slot) (State.setControl_record s i j c)).trans
      (hs.record_slot j hj hp)
  · rw [hphase, ne_eq, hfree'] at hj
    exact (State.setControl_generation s i j c).trans <| (hs.generation j hj hp).trans
      (congrArg (·.handle.generation) (State.setControl_record s i j c)).symm
  · obtain ⟨hlt, hw, hr⟩ := hs.claimed j hp
    rw [hphase]
    refine ⟨hlt, ?_, ?_⟩
    · split
      · rename_i hj
        subst hj
        rw [hclaimed hp]
        exact hw
      · exact hw
    · refine (congrArg Control.refs (State.setControl_control s i j c)).trans ?_
      split
      · rename_i hj
        subst hj
        rw [hclaimed hp]
        exact hr
      · exact hr
  · exact ⟨(hs.recorded h hp).1, (congrArg (·.handle) (State.setControl_record s i h.slot c)).trans
      (hs.recorded h hp).2⟩
  · rw [hphase, hfree']
    exact hs.mem_queue j
  · obtain ⟨hf, hw⟩ := hs.reclaim_seen h hh
    refine ⟨by rwa [hphase, ne_eq, hfree'], ?_⟩
    rw [hphase]
    split
    · rename_i hj
      rw [hj] at hw
      exact fun h => hw (hwriting h)
    · exact hw
  · rw [hphase]
    have hrel := hs.reclaim_releasing h hh hsaw
    split
    · rename_i hj
      rw [hj] at hrel
      exact hreleasing hrel
    · exact hrel

/-- Replacing an actor without touching a control word. -/
theorem inv_replaceActor_same (hs : Inv s) {bs : List Actor}
    (ht : s.replaceActor a bs = some t)
    (hslot : ∀ j, (if a.slot = some j then 1 else 0) = bs.countP fun b => b.slot = some j)
    (hhandle : ∀ b ∈ bs, ∀ h, b.handle = some h → (s.slots h.slot).record.handle = h)
    (htarget : ∀ b ∈ bs, b.target < s.config.capacity) : Inv t := by
  have hcount := hslot 0
  rw [← State.setControl_self s 0] at ht
  exact inv_replaceActor hs ht (by omega) (fun j _ => hslot j) (hs.phase_of_refs 0) Iff.rfl id
    id (fun _ => rfl) hhandle htarget

namespace Inv

variable {s : State} (hs : Inv s)
include hs

/-- Whoever is counted on a slot keeps it out of `Free` and `Releasing`, and
out of the producer's hands. -/
theorem of_slot (ha : a ∈ s.actors) {i : ℕ} (hi : a.slot = some i) :
    (s.slots i).control.refs ≠ 0 ∧ s.phase i ≠ .free ∧ s.phase i ≠ .releasing ∧
      s.producer.refs i = 0 := by
  have hpos : 0 < s.actors.countP fun a => a.slot = some i :=
    Multiset.countP_pos.mpr ⟨a, ha, hi⟩
  have hrefs := hs.refs i
  have hne : (s.slots i).control.refs ≠ 0 := by
    rw [hrefs, State.holders]
    omega
  refine ⟨hne, (hs.phase_of_refs i hne).1, (hs.phase_of_refs i hne).2, ?_⟩
  by_contra hp
  have hone := (hs.claimed i hp).2.2
  rw [hrefs, State.holders] at hone
  omega

theorem of_handle (ha : a ∈ s.actors)
    (hh : a.handle = some h) (hslot : a.slot = some h.slot) :
    (s.slots h.slot).record.handle = h ∧ h.slot < s.config.capacity := by
  refine ⟨hs.handle a ha h hh, ?_⟩
  rw [← Actor.target_of_slot hslot]
  exact hs.target_lt a ha

end Inv

/-! ## The compare-exchange loops -/

/-- A stored word counts exactly the holders the loop leaves, and no loop
stores over a slot that is free or being released. -/
theorem CasOp.next_spec {op : CasOp} {prior next : Control} (h : op.next prior = some next) :
    next.refs + (if (Actor.cas op prior).slot = some op.target then 1 else 0) =
        prior.refs + op.stored.countP (fun b => b.slot = some op.target) ∧
      prior.phase ≠ .free ∧ prior.phase ≠ .releasing ∧
      next.phase ≠ .free ∧ next.phase ≠ .releasing ∧
      (op.handle = none → prior.phase = .live) ∧
      (next.phase = .writing → prior.phase = .writing) := by
  cases op with
  | pin goal =>
      obtain ⟨⟨-, hphase, -⟩, hp, hr⟩ := acquire_eq_some h
      have hlive := hphase rfl
      simp [hp, hr, hlive, Actor.slot, Actor.handle, CasOp.handle, CasOp.stored, CasOp.target]
  | clone ofReservation h' =>
      obtain ⟨⟨hphase, -, -⟩, hp, hr⟩ := acquire_eq_some h
      obtain ⟨-, hf, hrel⟩ := hphase rfl
      cases ofReservation <;>
        simp [hp, hr, hf, hrel, Actor.slot, Actor.handle, CasOp.handle, CasOp.stored, CasOp.target]
  | commit h' | cancel h' | retire h' | rescue h' =>
      simp only [CasOp.next, Option.ite_none_right_eq_some, Option.some.injEq] at h
      obtain ⟨hphase, rfl⟩ := h
      simp [hphase, Actor.slot, Actor.handle, CasOp.handle, CasOp.stored, CasOp.target]

theorem CasOp.slot_cas (op : CasOp) (prior : Control) :
    (Actor.cas op prior).slot = op.handle.map KvMemBlockHandle.slot := rfl

theorem CasOp.stored_other (op : CasOp) (prior : Control) {j : ℕ} (hj : j ≠ op.target) :
    (if (Actor.cas op prior).slot = some j then 1 else 0) =
      op.stored.countP fun b => b.slot = some j := by
  cases op with
  | clone ofReservation h =>
      cases ofReservation <;>
        simp_all [Actor.slot, Actor.handle, CasOp.handle, CasOp.stored, CasOp.target, Ne.symm]
  | _ => simp_all [Actor.slot, Actor.handle, CasOp.handle, CasOp.stored, CasOp.target, Ne.symm]

theorem CasOp.refused_count (op : CasOp) (prior : Control) (j : ℕ) :
    (if (Actor.cas op prior).slot = some j then 1 else 0) =
      op.refused.countP fun b => b.slot = some j := by
  cases op with
  | clone ofReservation h =>
      cases ofReservation <;>
        simp [Actor.slot, Actor.handle, CasOp.handle, CasOp.refused, List.countP_cons]
  | _ => simp [Actor.slot, Actor.handle, CasOp.handle, CasOp.refused, List.countP_cons]

/-- The lease objects a loop leaves are the one it ran under. -/
theorem CasOp.handle_of_mem {op : CasOp} {b : Actor}
    (hb : b ∈ op.stored ∨ b ∈ op.refused) (hh : b.handle = some h) : op.handle = some h := by
  cases op with
  | clone ofReservation h' =>
      cases ofReservation <;> rcases hb with hb | hb <;>
        simp [CasOp.stored, CasOp.refused] at hb <;> rcases hb with rfl | rfl <;> exact hh
  | _ =>
      rcases hb with hb | hb <;> simp [CasOp.stored, CasOp.refused] at hb <;> subst hb <;> exact hh

theorem CasOp.target_of_mem {op : CasOp} {b : Actor} (hb : b ∈ op.stored ∨ b ∈ op.refused) :
    b.target = op.target := by
  cases op with
  | clone ofReservation h' =>
      cases ofReservation <;> rcases hb with hb | hb <;>
        simp [CasOp.stored, CasOp.refused] at hb <;> rcases hb with rfl | rfl <;> rfl
  | _ =>
      rcases hb with hb | hb <;> simp [CasOp.stored, CasOp.refused] at hb <;> subst hb <;> rfl

theorem CasOp.target_of_handle {op : CasOp} (hh : op.handle = some h) :
    op.target = h.slot := by
  cases op <;> simp_all [CasOp.handle, CasOp.target]

theorem inv_casRound (hs : Inv s) {op : CasOp} {prior : Control} {spurious : Bool}
    (ht : s.casRound op prior spurious = some t) : Inv t := by
  have hmem : Actor.cas op prior ∈ s.actors := by
    unfold State.casRound at ht
    split at ht
    · exact (State.replaceActor_eq_some.mp ht).1
    · split at ht
      · exact (State.replaceActor_eq_some.mp ht).1
      · exact (State.replaceActor_eq_some.mp ht).1
  have hlt : op.target < s.config.capacity := hs.target_lt _ hmem
  have hhandle : ∀ h, op.handle = some h → (s.slots h.slot).record.handle = h :=
    fun h hh => hs.handle _ hmem h hh
  unfold State.casRound at ht
  split at ht
  -- the loop gives up on the loaded word
  · exact inv_replaceActor_same hs ht (op.refused_count prior)
      (fun b hb h hh => hhandle h (CasOp.handle_of_mem (.inr hb) hh))
      (fun b hb => (CasOp.target_of_mem (.inr hb)).trans_lt hlt)
  · rename_i next hnext
    split at ht
    -- the exchange stores the next word
    · rename_i hcas
      obtain ⟨hcount, hf, hr, hf', hr', hpin, hw⟩ := CasOp.next_spec hnext
      have hphase : s.phase op.target = prior.phase := congrArg Control.phase hcas.1
      refine inv_replaceActor hs ht (hcas.1 ▸ hcount)
        (fun j hj => op.stored_other prior hj) (fun _ => ⟨hf', hr'⟩)
        ⟨fun h => absurd h hf', fun h => absurd (hphase ▸ h) hf⟩
        (fun h => absurd (hphase ▸ h) hr) (fun h => hphase.trans (hw h)) (fun hp => ?_)
        (fun b hb h hh => hhandle h (CasOp.handle_of_mem (.inl hb) hh))
        (fun b hb => (CasOp.target_of_mem (.inl hb)).trans_lt hlt)
      cases hop : op.handle with
      | none =>
          have := (hs.claimed _ hp).2.1
          rw [hphase, hpin hop] at this
          cases this
      | some h =>
          have hslot : (Actor.cas op prior).slot = some op.target := by
            rw [CasOp.slot_cas, hop, CasOp.target_of_handle hop]
            rfl
          exact absurd (hs.of_slot hmem hslot).2.2.2 hp
    -- the exchange failed and returned the current word
    · refine inv_replaceActor_same hs ht (fun j => ?_) (fun b hb h hh => ?_) (fun b hb => ?_)
      · simp [Actor.slot, Actor.handle, List.countP_cons]
      · obtain rfl := List.mem_singleton.mp hb
        exact hhandle h hh
      · obtain rfl := List.mem_singleton.mp hb
        exact hlt

/-! ## The other calls on a lease -/

/-- The pin reads the handle of the record its reference holds in place. -/
theorem inv_readHandle (hs : Inv s) {goal : PinGoal}
    (ht : s.step (.readHandle goal) = some t) : Inv t := by
  simp only [State.step] at ht
  have hmem : Actor.pinned goal ∈ s.actors := (State.replaceActor_eq_some.mp ht).1
  have hlt : goal.target < s.config.capacity := hs.target_lt _ hmem
  obtain ⟨-, hf, -, hclaim⟩ := hs.of_slot (i := goal.target) hmem rfl
  set read := (s.slots goal.target).record.handle with hread
  have hslot : read.slot = goal.target := by
    refine hs.record_slot _ hf fun b n hp => ?_
    rw [hp] at hclaim
    simp [ProducerPc.refs] at hclaim
  have hcases : ∃ b, goal.pinned read = [b] ∧ b.slot = some read.slot ∧
      b.handle = some read ∧ b.target = read.slot := by
    cases goal <;> simp only [PinGoal.pinned] <;> try split
    all_goals exact ⟨_, rfl, rfl, rfl, rfl⟩
  obtain ⟨b, hb, hbslot, hbhandle, hbtarget⟩ := hcases
  rw [hb] at ht
  refine inv_replaceActor_same hs ht (fun j => ?_) (fun c hc h hh => ?_) (fun c hc => ?_)
  · change (if some goal.target = some j then 1 else 0) = _
    simp [hbslot, hslot, List.countP_cons]
  · obtain rfl := List.mem_singleton.mp hc
    rw [hbhandle] at hh
    obtain rfl := Option.some.inj hh
    rw [hslot]
  · obtain rfl := List.mem_singleton.mp hc
    rw [hbtarget, hslot]
    exact hlt

/-- `Lease::reset`, by a lease or at the end of a call. -/
theorem inv_decr (hs : Inv s)
    (hslot : a.slot = some h.slot)
    (ht : (s.setControl h.slot (s.slots h.slot).control.decr).replaceActor a [] = some t) :
    Inv t := by
  have hmem : a ∈ s.actors := (State.replaceActor_eq_some.mp ht).1
  obtain ⟨hne, hf, hr, hclaim⟩ := hs.of_slot hmem hslot
  refine inv_replaceActor hs ht ?_ (fun j hj => ?_) (fun _ => ⟨hf, hr⟩) Iff.rfl id id
    (fun hp => absurd hclaim hp) (by simp) (by simp)
  · rw [hslot, if_pos rfl, Control.decr_refs]
    simp only [List.countP_nil]
    omega
  · rw [hslot, if_neg (by simpa using Ne.symm hj), List.countP_nil]

/-- A call begins on an object and keeps its lease. -/
theorem inv_begin (hs : Inv s) {a b : Actor}
    (ha : a.slot = some h.slot) (hb : b.slot = some h.slot) (hah : a.handle = some h)
    (hbh : b.handle = some h) (ht : s.replaceActor a [b] = some t) : Inv t := by
  have hmem := (State.replaceActor_eq_some.mp ht).1
  obtain ⟨hrec, hlt⟩ := hs.of_handle hmem hah ha
  refine inv_replaceActor_same hs ht (fun j => ?_) (fun c hc g hg => ?_) (fun c hc => ?_)
  · simp [ha, hb, List.countP_cons]
  · obtain rfl := List.mem_singleton.mp hc
    rw [hbh] at hg
    obtain rfl := Option.some.inj hg
    exact hrec
  · obtain rfl := List.mem_singleton.mp hc
    rw [Actor.target_of_slot hb]
    exact hlt

/-- `retire_if_only_reader` under the lease of `a`. -/
theorem inv_retireIfOnlyReader (hs : Inv s) {a b : Actor}
    (ha : a.slot = some h.slot) (hb : b.slot = some h.slot) (hah : a.handle = some h)
    (hbh : b.handle = some h) (ht : s.retireIfOnlyReader a h [b] = some t) : Inv t := by
  have hmem : a ∈ s.actors := by
    unfold State.retireIfOnlyReader at ht
    split at ht
    · exact (State.replaceActor_eq_some.mp ht).1
    · exact (State.replaceActor_eq_some.mp ht).1
  have hcount : ∀ j, (if a.slot = some j then 1 else 0) =
      [b].countP fun b => b.slot = some j := by
    intro j
    simp [ha, hb, List.countP_cons]
  have hhandle : ∀ c ∈ [b], ∀ g, c.handle = some g → (s.slots g.slot).record.handle = g := by
    intro c hc g hg
    obtain rfl := List.mem_singleton.mp hc
    rw [hbh] at hg
    obtain rfl := Option.some.inj hg
    exact hs.handle a hmem h hah
  have htarget : ∀ c ∈ [b], c.target < s.config.capacity := by
    intro c hc
    obtain rfl := List.mem_singleton.mp hc
    rw [Actor.target_of_slot hb]
    exact (hs.of_handle hmem hah ha).2
  unfold State.retireIfOnlyReader at ht
  split at ht
  · rename_i hcas
    obtain ⟨-, hf, hr, hclaim⟩ := hs.of_slot hmem ha
    refine inv_replaceActor hs ht ?_ (fun j _ => hcount j) (by simp)
      ⟨fun h => absurd h (by simp), fun h => absurd h hf⟩ (fun h => absurd h hr) (by simp)
      (fun hp => absurd hclaim hp) hhandle htarget
    rw [hcount, hcas]
    rfl
  · exact inv_replaceActor_same hs ht hcount hhandle htarget

variable {s : State}

/-- A new pin enters with nothing counted. -/
theorem inv_beginPin (hs : Inv s) {goal : PinGoal}
    (hlt : goal.target < s.config.capacity) :
    Inv { s with actors := .load (.pin goal) ::ₘ s.actors } :=
  { hs with
    refs := fun i => by
      have := hs.refs i
      simp only [State.holders, Multiset.countP_cons] at this ⊢
      simpa [Actor.slot, Actor.handle, CasOp.handle] using this
    handle := fun a ha h hh => by
      rcases Multiset.mem_cons.mp ha with rfl | ha
      · cases hh
      · exact hs.handle a ha h hh
    target_lt := fun a ha => by
      rcases Multiset.mem_cons.mp ha with rfl | ha
      · exact hlt
      · exact hs.target_lt a ha }

/-! ## The append producer -/

/-- The producer moves between accesses that touch no slot. -/
theorem inv_producer (hs : Inv s) {pc : ProducerPc}
    (hrefs : ∀ i, pc.refs i = s.producer.refs i) (htransit : pc.transit = s.producer.transit)
    (hwas : ∀ b n i, s.producer ≠ .claimed b n i) (hrecorded : ∀ h, pc ≠ .recorded h)
    (hcell : ∀ b n, pc = .popCell b n → s.ready.head ≠ s.ready.tail)
    (hhead : ∀ b n i, pc = .popHead b n i →
      s.ready.head ≠ s.ready.tail ∧ s.ready.cells s.ready.head = i) :
    Inv { s with producer := pc } := by
  have hqueue : ({ s with producer := pc } : State).queue = s.queue := by
    simp only [State.queue, htransit]
  exact
  { hs with
    refs := fun i => by
      have := hs.refs i
      simpa only [State.holders, hrefs] using this
    record_slot := fun i hi _ => hs.record_slot i hi fun b n => hwas b n i
    generation := fun i hi hp => hs.generation i hi ((hrefs i).symm.trans hp)
    popCell := hcell
    popHead := hhead
    claimed := fun i hp => hs.claimed i (hrefs i ▸ hp)
    recorded := fun h hp => absurd hp (hrecorded h)
    queue_nodup := hqueue ▸ hs.queue_nodup
    mem_queue := hqueue ▸ hs.mem_queue }

/-- `head.store`: the slot leaves the ring and is in the producer's hands. -/
theorem inv_popHead (hs : Inv s) {b n i : ℕ} (hp : s.producer = .popHead b n i) :
    Inv { s with ready := s.ready.advanceHead, producer := .popped b n i } := by
  obtain ⟨hne, hcell⟩ := hs.popHead b n i hp
  have hqueue : ({ s with ready := s.ready.advanceHead, producer := .popped b n i } : State).queue =
      s.queue := by
    simp only [State.queue, hp, ProducerPc.transit, List.nil_append,
      RingQueue.contents_of_ne hs.ready_wf hne, hcell, List.cons_append]
  exact
    { hs with
      ready_capacity := hs.ready_capacity
      ready_wf := hs.ready_wf.advanceHead
      refs := fun j => by
        have := hs.refs j
        simpa only [State.holders, hp, ProducerPc.refs] using this
      record_slot := fun j hj _ => hs.record_slot j hj (by simp [hp])
      generation := fun j hj _ => hs.generation j hj (by simp [hp, ProducerPc.refs])
      popCell := by simp
      popHead := by simp
      claimed := by simp [ProducerPc.refs]
      recorded := by simp
      queue_nodup := hqueue ▸ hs.queue_nodup
      mem_queue := hqueue ▸ hs.mem_queue
      pushTail := hs.pushTail }

/-- `control.store(Writing, 1)`: the popped slot is free, so nobody else is
counted on it. -/
theorem inv_popped (hs : Inv s) {b n i : ℕ} (hp : s.producer = .popped b n i) :
    Inv { s.setControl i (.single .writing) with producer := .claimed b n i } := by
  have hqueue : s.queue = i :: (s.ready.contents ++ s.reclaimer.transit) := by
    simp [State.queue, hp, ProducerPc.transit]
  have hnodup := hs.queue_nodup
  rw [hqueue, List.nodup_cons] at hnodup
  obtain ⟨hlt, hfree⟩ := (hs.mem_queue i).mp (by simp [hqueue])
  have hzero : (s.slots i).control.refs = 0 := by
    by_contra h
    exact (hs.phase_of_refs i h).1 hfree
  have hnew : ({ s.setControl i (.single .writing) with producer := .claimed b n i } : State).queue =
      s.ready.contents ++ s.reclaimer.transit := by
    simp [State.queue, ProducerPc.transit, State.setControl]
  have hphase : ∀ j, ({ s.setControl i (.single .writing) with
      producer := .claimed b n i } : State).phase j = if j = i then .writing else s.phase j := by
    intro j
    simp only [State.phase, State.setControl_control]
    split <;> rfl
  exact
    { valid := hs.valid
      ready_capacity := hs.ready_capacity
      ready_wf := hs.ready_wf
      refs := fun j => by
        have hj := hs.refs j
        change ((s.setControl i (.single .writing)).slots j).control.refs = _
        rw [State.setControl_control]
        by_cases h : j = i
        · subst h
          simp only [State.holders, hp, ProducerPc.refs, hzero] at hj
          simp [State.holders, ProducerPc.refs, State.setControl]
          omega
        · simp only [State.holders, hp, ProducerPc.refs] at hj
          simpa [State.holders, ProducerPc.refs, State.setControl, h, Ne.symm h] using hj
      phase_of_refs := fun j => by
        rw [hphase]
        change ((s.setControl i (.single .writing)).slots j).control.refs ≠ 0 → _
        rw [State.setControl_control]
        split
        · simp
        · exact hs.phase_of_refs j
      handle := fun a ha h hh =>
        (congrArg (·.handle) (State.setControl_record s i h.slot _)).trans (hs.handle a ha h hh)
      target_lt := hs.target_lt
      record_slot := fun j hj hc => by
        have hji : j ≠ i := by
          rintro rfl
          exact hc b n rfl
        rw [hphase, if_neg hji] at hj
        exact (congrArg (·.handle.slot) (State.setControl_record s i j _)).trans
          (hs.record_slot j hj (by simp [hp]))
      generation := fun j hj hc => by
        have hji : j ≠ i := by
          rintro rfl
          simp [ProducerPc.refs] at hc
        rw [hphase, if_neg hji] at hj
        exact (State.setControl_generation s i j _).trans <|
          (hs.generation j hj (by simp [hp, ProducerPc.refs])).trans
            (congrArg (·.handle.generation) (State.setControl_record s i j _)).symm
      popCell := by simp
      popHead := by simp
      claimed := fun j h => by
        have hji : j = i := by
          by_contra hne
          exact h (by simp [ProducerPc.refs, Ne.symm hne])
        subst hji
        refine ⟨hlt, by rw [hphase, if_pos rfl], ?_⟩
        exact congrArg Control.refs (State.setControl_control_self s j _)
      recorded := by simp
      queue_nodup := hnew ▸ hnodup.2
      mem_queue := fun j => by
        rw [hnew, hphase]
        have hj := hs.mem_queue j
        rw [hqueue, List.mem_cons] at hj
        by_cases h : j = i
        · subst h
          simp [hnodup.1]
        · rw [if_neg h]
          exact (or_iff_right h).symm.trans hj
      reclaim_lt := hs.reclaim_lt
      reclaim_seen := fun h hh => by
        have hseen := hs.reclaim_seen h hh
        rw [hphase, if_neg]
        · exact hseen
        · rintro rfl
          exact hseen.1 hfree
      reclaim_matched := fun h hh =>
        (congrArg (·.handle) (State.setControl_record s i h.slot _)).trans (hs.reclaim_matched h hh)
      reclaim_releasing := fun h hh hsaw => by
        have hrel := hs.reclaim_releasing h hh hsaw
        rw [hphase, if_neg]
        · exact hrel
        · rintro rfl
          rw [hfree] at hrel
          cases hrel
      pushTail := hs.pushTail
      issued_le := hs.issued_le
      issued_nodup := hs.issued_nodup
      overflowed := hs.overflowed }

/-- `++sequence` and the record write: the claimed slot has no holder but the
producer, so no lease sees the record change. -/
theorem inv_claimed (hs : Inv s) {b n i : ℕ} (hp : s.producer = .claimed b n i)
    {r : Record} (hr : r.handle = ⟨i, s.sequence + 1⟩) :
    Inv { s with
      sequence := s.sequence + 1
      slots := Function.update s.slots i { s.slots i with record := r }
      issued := r.handle :: s.issued
      producer := .recorded r.handle } := by
  obtain ⟨hlt, hw, hone⟩ := hs.claimed i (by simp [hp, ProducerPc.refs])
  set t : State := { s with
      sequence := s.sequence + 1
      slots := Function.update s.slots i { s.slots i with record := r }
      issued := r.handle :: s.issued
      producer := .recorded r.handle } with ht
  have hslot : r.handle.slot = i := by rw [hr]
  have hcontrol : ∀ j, (t.slots j).control = (s.slots j).control := by
    intro j
    by_cases h : j = i
    · subst h
      simp [ht]
    · simp [ht, h]
  have hphase : ∀ j, t.phase j = s.phase j := fun j => congrArg Control.phase (hcontrol j)
  have hrecord : ∀ j, j ≠ i → (t.slots j).record = (s.slots j).record := by
    intro j h
    simp [ht, h]
  have hself : (t.slots i).record.handle = r.handle := by simp [ht]
  have hqueue : t.queue = s.queue := by
    simp [State.queue, ht, hp, ProducerPc.transit]
  exact
    { hs with
      refs := fun j => by
        have hj := hs.refs j
        rw [hcontrol, hj]
        simp [State.holders, ht, hp, ProducerPc.refs, hslot]
      phase_of_refs := fun j => by
        rw [hcontrol, hphase]
        exact hs.phase_of_refs j
      handle := fun a ha h hh => by
        have hne : h.slot ≠ i := by
          rintro rfl
          have hzero := (hs.of_slot ha (Actor.slot_of_handle hh)).2.2.2
          simp [hp, ProducerPc.refs] at hzero
        rw [hrecord _ hne]
        exact hs.handle a ha h hh
      record_slot := fun j hj _ => by
        by_cases h : j = i
        · subst h
          rw [hself, hslot]
        · rw [hrecord j h]
          rw [hphase] at hj
          refine hs.record_slot j hj fun b' n' h' => ?_
          rw [hp] at h'
          exact h (ProducerPc.claimed.inj h').2.2.symm
      generation := fun j hj hc => by
        have hji : j ≠ i := by
          rintro rfl
          simp [ht, ProducerPc.refs, hslot] at hc
        rw [hphase] at hj
        have hold := hs.generation j hj (by simp [hp, ProducerPc.refs, Ne.symm hji])
        simpa [ht, hji] using hold
      popCell := by simp [ht]
      popHead := by simp [ht]
      claimed := fun j hj => by
        rw [hphase, hcontrol]
        exact hs.claimed j (by simpa [ht, hp, ProducerPc.refs, hslot] using hj)
      recorded := fun h hh => by
        obtain rfl := ProducerPc.recorded.inj hh
        exact ⟨hslot ▸ hlt, by rw [hslot, hself]⟩
      queue_nodup := hqueue ▸ hs.queue_nodup
      mem_queue := fun j => by
        rw [hqueue, hphase]
        exact hs.mem_queue j
      reclaim_seen := fun h hh => by
        rw [hphase]
        exact hs.reclaim_seen h hh
      reclaim_matched := fun h hh => by
        have hne : h.slot ≠ i := by
          rintro rfl
          exact (hs.reclaim_seen h (ReclaimerPc.seen_of_matched hh)).2 hw
        rw [hrecord _ hne]
        exact hs.reclaim_matched h hh
      reclaim_releasing := fun h hh hsaw => by
        rw [hphase]
        exact hs.reclaim_releasing h hh hsaw
      issued_le := fun h hh => by
        rcases List.mem_cons.mp hh with rfl | hh
        · rw [hr]
        · exact (hs.issued_le h hh).trans (Nat.le_succ _)
      issued_nodup := by
        refine List.nodup_cons.mpr ⟨fun hmem => ?_, hs.issued_nodup⟩
        obtain ⟨h, hh, hg⟩ := List.mem_map.mp hmem
        have := hs.issued_le h hh
        rw [hg, hr] at this
        exact absurd this (by simp) }

/-- `generation.store`, and the reservation is handed out. -/
theorem inv_recorded (hs : Inv s)
    (hp : s.producer = .recorded h) :
    Inv { s with
      slots := Function.update s.slots h.slot { s.slots h.slot with generation := h.generation }
      actors := .reservation h ::ₘ s.actors
      producer := .idle } := by
  obtain ⟨hlt, hrec⟩ := hs.recorded h hp
  set t : State := { s with
      slots := Function.update s.slots h.slot { s.slots h.slot with generation := h.generation }
      actors := .reservation h ::ₘ s.actors
      producer := .idle } with ht
  have hcontrol : ∀ j, (t.slots j).control = (s.slots j).control := by
    intro j
    by_cases hj : j = h.slot
    · subst hj
      simp [ht]
    · simp [ht, hj]
  have hrecord : ∀ j, (t.slots j).record = (s.slots j).record := by
    intro j
    by_cases hj : j = h.slot
    · subst hj
      simp [ht]
    · simp [ht, hj]
  have hphase : ∀ j, t.phase j = s.phase j := fun j => congrArg Control.phase (hcontrol j)
  have hqueue : t.queue = s.queue := by
    simp [State.queue, ht, hp, ProducerPc.transit]
  exact
    { hs with
      refs := fun j => by
        rw [hcontrol, hs.refs j]
        simp [State.holders, ht, hp, ProducerPc.refs, Multiset.countP_cons]
      phase_of_refs := fun j => by
        rw [hcontrol, hphase]
        exact hs.phase_of_refs j
      handle := fun a ha g hg => by
        rw [hrecord]
        rcases Multiset.mem_cons.mp ha with rfl | ha
        · obtain rfl := Option.some.inj hg
          exact hrec
        · exact hs.handle a ha g hg
      target_lt := fun a ha => by
        rcases Multiset.mem_cons.mp ha with rfl | ha
        · exact hlt
        · exact hs.target_lt a ha
      record_slot := fun j hj _ => by
        rw [hphase] at hj
        rw [hrecord]
        exact hs.record_slot j hj (by simp [hp])
      generation := fun j hj _ => by
        rw [hphase] at hj
        rw [hrecord]
        by_cases hjh : j = h.slot
        · subst hjh
          rw [hrec]
          simp [ht]
        · have hold := hs.generation j hj (by simp [hp, ProducerPc.refs, Ne.symm hjh])
          simpa [ht, hjh] using hold
      popCell := by simp [ht]
      popHead := by simp [ht]
      claimed := by simp [ht, ProducerPc.refs]
      recorded := by simp [ht]
      queue_nodup := hqueue ▸ hs.queue_nodup
      mem_queue := fun j => by
        rw [hqueue, hphase]
        exact hs.mem_queue j
      reclaim_seen := fun g hg => by
        rw [hphase]
        exact hs.reclaim_seen g hg
      reclaim_matched := fun g hg => by
        rw [hrecord]
        exact hs.reclaim_matched g hg
      reclaim_releasing := fun g hg hsaw => by
        rw [hphase]
        exact hs.reclaim_releasing g hg hsaw }

theorem inv_produce (hs : Inv s) (ht : s.produce = some t) : Inv t := by
  unfold State.produce at ht
  split at ht
  case h_1 => cases ht
  case h_2 b n hp =>
    split at ht
    · cases ht
      exact inv_producer hs (by simp [hp, ProducerPc.refs]) (by simp [hp, ProducerPc.transit])
        (by simp [hp]) (by simp) (by simp) (by simp)
    · rename_i hne
      cases ht
      exact inv_producer hs (by simp [hp, ProducerPc.refs]) (by simp [hp, ProducerPc.transit])
        (by simp [hp]) (by simp) (fun _ _ _ => hne) (by simp)
  case h_3 b n hp =>
    cases ht
    exact inv_producer hs (by simp [hp, ProducerPc.refs]) (by simp [hp, ProducerPc.transit])
      (by simp [hp]) (by simp) (by simp)
      (fun b' n' i h => ⟨hs.popCell b n hp, (ProducerPc.popHead.inj h).2.2⟩)
  case h_4 b n i hp =>
    cases ht
    exact inv_popHead hs hp
  case h_5 b n i hp =>
    cases ht
    exact inv_popped hs hp
  case h_6 b n i hp =>
    cases ht
    exact inv_claimed hs hp rfl
  case h_7 h hp =>
    cases ht
    exact inv_recorded hs hp

/-! ## The reclaimer -/

/-- The reclaimer moves between accesses that store to no slot and no ring
cell. -/
theorem inv_reclaimer (hs : Inv s) {pc : ReclaimerPc} {owner : Bool}
    (htransit : pc.transit = s.reclaimer.transit)
    (hhandle : ∀ h, pc.handle = some h → h.slot < s.config.capacity)
    (hseen : ∀ h, pc.seen = some h → s.phase h.slot ≠ .free ∧ s.phase h.slot ≠ .writing)
    (hmatched : ∀ h, pc.matched = some h → (s.slots h.slot).record.handle = h)
    (hsaw : ∀ h, pc.handle = some h → pc.SawReleasing → s.phase h.slot = .releasing)
    (htail : ∀ i, pc ≠ .pushTail i) :
    Inv { s with reclaimer := pc, reclaimOwner := owner } := by
  have hqueue : ({ s with reclaimer := pc, reclaimOwner := owner } : State).queue = s.queue := by
    simp only [State.queue, htransit]
  exact
    { hs with
      queue_nodup := hqueue ▸ hs.queue_nodup
      mem_queue := hqueue ▸ hs.mem_queue
      reclaim_lt := hhandle
      reclaim_seen := hseen
      reclaim_matched := hmatched
      reclaim_releasing := hsaw
      pushTail := fun i h => absurd h (htail i) }

/-- The reclaimer gives its call up. -/
theorem inv_unlocking (hs : Inv s) (htransit : s.reclaimer.transit = []) :
    Inv { s with reclaimer := .unlocking } :=
  inv_reclaimer hs htransit.symm (by simp [ReclaimerPc.handle]) (by simp [ReclaimerPc.seen])
    (by simp [ReclaimerPc.matched]) (by simp [ReclaimerPc.handle]) (by simp)

/-- The reclaimer stores the control word of a slot nobody holds: into
`Releasing`, or out of it into `Free`, where the slot joins the queue. -/
theorem inv_reclaimStore (hs : Inv s) {c : Control}
    {pc : ReclaimerPc} (hzero : (s.slots h.slot).control.refs = 0) (hc : c.refs = 0)
    (hlt : h.slot < s.config.capacity) (hwas : s.phase h.slot ≠ .free)
    (hnow : s.reclaimer.transit = [])
    (hkind : (c.phase ≠ .free ∧ pc.transit = []) ∨ (c.phase = .free ∧ pc.transit = [h.slot]))
    (hhandle : ∀ g, pc.handle = some g → g = h)
    (hrec : (s.slots h.slot).record.handle = h)
    (hsaw : ∀ g, pc.handle = some g → c.phase = .releasing)
    (htail : ∀ i, pc ≠ .pushTail i) :
    Inv { s.setControl h.slot c with reclaimer := pc } := by
  set t : State := { s.setControl h.slot c with reclaimer := pc } with ht
  have hcontrol : ∀ j, (t.slots j).control = if j = h.slot then c else (s.slots j).control :=
    fun j => s.setControl_control h.slot j c
  have hphase : ∀ j, t.phase j = if j = h.slot then c.phase else s.phase j := by
    intro j
    rw [State.phase, hcontrol]
    split <;> rfl
  have hrecord : ∀ j, (t.slots j).record = (s.slots j).record :=
    fun j => s.setControl_record h.slot j c
  have hnot : h.slot ∉ s.queue := fun hmem => hwas ((hs.mem_queue _).mp hmem).2
  have hqueue : t.queue = s.queue ++ pc.transit := by
    simp [State.queue, ht, hnow, State.setControl]
  have hnotClaimed : s.producer.refs h.slot = 0 := by
    by_contra hp
    have := (hs.claimed _ hp).2.2
    omega
  exact
    { valid := hs.valid
      ready_capacity := hs.ready_capacity
      ready_wf := hs.ready_wf
      refs := fun j => by
        have hj := hs.refs j
        rw [hcontrol]
        change _ = s.holders j
        split
        · rename_i hjh
          subst hjh
          omega
        · exact hj
      phase_of_refs := fun j => by
        rw [hcontrol, hphase]
        split
        · intro hne
          exact absurd hc hne
        · exact hs.phase_of_refs j
      handle := fun a ha g hg => (congrArg (·.handle) (hrecord g.slot)).trans (hs.handle a ha g hg)
      target_lt := hs.target_lt
      record_slot := fun j hj hp => by
        rw [hrecord]
        refine hs.record_slot j ?_ hp
        by_cases hjh : j = h.slot
        · subst hjh
          exact hwas
        · rwa [hphase, if_neg hjh] at hj
      generation := fun j hj hp => by
        rw [hrecord]
        refine (s.setControl_generation h.slot j c).trans (hs.generation j ?_ hp)
        by_cases hjh : j = h.slot
        · subst hjh
          exact hwas
        · rwa [hphase, if_neg hjh] at hj
      popCell := hs.popCell
      popHead := hs.popHead
      claimed := fun j hp => by
        have hjh : j ≠ h.slot := by
          rintro rfl
          exact hp hnotClaimed
        rw [hphase, hcontrol, if_neg hjh, if_neg hjh]
        exact hs.claimed j hp
      recorded := fun g hp => ⟨(hs.recorded g hp).1,
        (congrArg (·.handle) (hrecord g.slot)).trans (hs.recorded g hp).2⟩
      queue_nodup := by
        rw [hqueue]
        rcases hkind with ⟨-, hpc⟩ | ⟨-, hpc⟩
        · rw [hpc, List.append_nil]
          exact hs.queue_nodup
        · rw [hpc]
          exact hs.queue_nodup.append (List.nodup_singleton _) (by simpa using hnot)
      mem_queue := fun j => by
        rw [hqueue, hphase, List.mem_append, hs.mem_queue]
        change _ ↔ j < s.config.capacity ∧ _
        by_cases hjh : j = h.slot
        · subst hjh
          rw [if_pos rfl]
          rcases hkind with ⟨hf, hpc⟩ | ⟨hf, hpc⟩ <;> simp [hf, hpc, hlt, hwas]
        · rw [if_neg hjh]
          rcases hkind with ⟨-, hpc⟩ | ⟨-, hpc⟩ <;> simp [hpc, hjh]
      reclaim_lt := fun g hg => hhandle g hg ▸ hlt
      reclaim_seen := fun g hg => by
        have hg' := ReclaimerPc.handle_of_seen hg
        rw [hphase, hhandle g hg', if_pos rfl, hsaw g hg']
        simp
      reclaim_matched := fun g hg => by
        rw [hhandle g (ReclaimerPc.handle_of_seen (ReclaimerPc.seen_of_matched hg)), hrecord]
        exact hrec
      reclaim_releasing := fun g hg _ => by
        rw [hphase, hhandle g hg, if_pos rfl]
        exact hsaw g hg
      pushTail := fun i hp => absurd hp (htail i)
      issued_le := hs.issued_le
      issued_nodup := hs.issued_nodup
      overflowed := hs.overflowed }

/-- While a freed slot is on its way to the ring, the ring is not full. -/
theorem Inv.next_tail_ne_head (hs : Inv s) {i : ℕ}
    (htransit : s.reclaimer.transit = [i]) : s.ready.next s.ready.tail ≠ s.ready.head := by
  rw [ne_eq, RingQueue.next_tail_eq_head_iff hs.ready_wf, hs.ready_capacity]
  have hsub : s.queue ⊆ List.range s.config.capacity := fun j hj =>
    List.mem_range.mpr ((hs.mem_queue j).mp hj).1
  have hlen := (hs.queue_nodup.subperm hsub).length_le
  simp only [State.queue, htransit, List.length_append, List.length_singleton,
    List.length_range] at hlen
  omega

theorem inv_pushCell (hs : Inv s) {i : ℕ} (hp : s.reclaimer = .pushCell i) :
    Inv { s with ready := s.ready.writeTail i, reclaimer := .pushTail i } := by
  have hqueue : ({ s with ready := s.ready.writeTail i, reclaimer := .pushTail i } : State).queue =
      s.queue := by
    simp only [State.queue, hp, ReclaimerPc.transit, RingQueue.contents_writeTail hs.ready_wf]
  have hhead : s.ready.head ≠ s.ready.tail →
      (s.ready.writeTail i).cells s.ready.head = s.ready.cells s.ready.head :=
    fun hne => Function.update_of_ne hne _ _
  exact
    { hs with
      ready_capacity := hs.ready_capacity
      ready_wf := hs.ready_wf.writeTail i
      popCell := hs.popCell
      popHead := fun b n j h => by
        obtain ⟨hne, hcell⟩ := hs.popHead b n j h
        exact ⟨hne, (hhead hne).trans hcell⟩
      queue_nodup := hqueue ▸ hs.queue_nodup
      mem_queue := hqueue ▸ hs.mem_queue
      reclaim_lt := fun _ h => by cases h
      reclaim_seen := fun _ h => by cases h
      reclaim_matched := fun _ h => by cases h
      reclaim_releasing := fun _ h => by cases h
      pushTail := fun j h => by
        obtain rfl := ReclaimerPc.pushTail.inj h
        exact RingQueue.writeTail_cells_tail s.ready i }

theorem inv_pushTail (hs : Inv s) {i : ℕ} (hp : s.reclaimer = .pushTail i) :
    Inv { s with ready := s.ready.advanceTail, reclaimer := .unlocking } := by
  have hfull := hs.next_tail_ne_head (i := i) (by rw [hp]; rfl)
  have hcontents := RingQueue.contents_advanceTail hs.ready_wf hfull
  rw [hs.pushTail i hp] at hcontents
  have hqueue : ({ s with ready := s.ready.advanceTail, reclaimer := .unlocking } : State).queue =
      s.queue := by
    simp only [State.queue, hp, ReclaimerPc.transit, hcontents, List.append_assoc, List.append_nil]
  have hne : s.ready.head ≠ s.ready.tail → s.ready.head ≠ s.ready.next s.ready.tail :=
    fun _ => Ne.symm hfull
  exact
    { hs with
      ready_capacity := hs.ready_capacity
      ready_wf := hs.ready_wf.advanceTail
      popCell := fun b n h => hne (hs.popCell b n h)
      popHead := fun b n j h => ⟨hne (hs.popHead b n j h).1, (hs.popHead b n j h).2⟩
      queue_nodup := hqueue ▸ hs.queue_nodup
      mem_queue := hqueue ▸ hs.mem_queue
      reclaim_lt := fun _ h => by cases h
      reclaim_seen := fun _ h => by cases h
      reclaim_matched := fun _ h => by cases h
      reclaim_releasing := fun _ h => by cases h
      pushTail := fun _ h => by cases h }

/-- A retired slot whose scan hint is a handle's generation holds that
handle's record. -/
theorem Inv.record_eq (hs : Inv s)
    (hphase : s.phase h.slot ≠ .free ∧ s.phase h.slot ≠ .writing)
    (hgen : (s.slots h.slot).generation = h.generation) :
    (s.slots h.slot).record.handle = h := by
  have hzero : s.producer.refs h.slot = 0 := by
    by_contra hne
    exact hphase.2 (hs.claimed _ hne).2.1
  have hslot := hs.record_slot h.slot hphase.1 fun b n hp => by
    rw [hp] at hzero
    simp [ProducerPc.refs] at hzero
  have hg := hs.generation h.slot hphase.1 hzero
  obtain ⟨slot, generation⟩ := h
  calc (s.slots slot).record.handle
      = ⟨(s.slots slot).record.handle.slot, (s.slots slot).record.handle.generation⟩ := rfl
    _ = ⟨slot, generation⟩ := by rw [hslot, ← hg, hgen]

theorem inv_reclaim (hs : Inv s) {outcome : ReleaseOutcome}
    (ht : s.reclaim outcome = some t) : Inv t := by
  have hlt := hs.reclaim_lt
  have hseen := hs.reclaim_seen
  have hmatched := hs.reclaim_matched
  have hrel := hs.reclaim_releasing
  unfold State.reclaim at ht
  split at ht <;> rename_i hp <;> rw [hp] at hlt hseen hmatched hrel
  case h_1 => cases ht
  -- the phase test on the loaded word
  case h_2 h =>
    dsimp only at ht
    split at ht <;> cases ht
    · rename_i hphase
      refine inv_reclaimer hs (by rw [hp]; rfl) hlt (fun g hg => ?_) (by simp [ReclaimerPc.matched])
        (fun g hg hsaw => ?_) (by simp)
      · cases hg
        rcases hphase with h | h | h <;> simp [State.phase, h]
      · cases hg
        exact hsaw
    · exact inv_unlocking hs (by rw [hp]; rfl)
  -- the generation test
  case h_3 h prior =>
    split at ht <;> cases ht
    · rename_i hgen
      refine inv_reclaimer hs (by rw [hp]; rfl) hlt hseen (fun g hg => ?_) hrel (by simp)
      cases hg
      exact hs.record_eq (hseen h rfl) hgen
    · exact inv_unlocking hs (by rw [hp]; rfl)
  -- the reader test and the exchange
  case h_4 h prior =>
    split at ht
    · cases ht
      exact inv_unlocking hs (by rw [hp]; rfl)
    rename_i hzero
    split at ht
    · rename_i hphase
      cases ht
      exact inv_reclaimer hs (by rw [hp]; rfl) hlt hseen hmatched
        (fun g hg _ => hrel g hg hphase) (by simp)
    split at ht <;> cases ht
    · rename_i hcas
      exact inv_reclaimStore hs (by rw [hcas]; exact not_not.mp hzero) rfl (hlt h rfl)
        (hseen h rfl).1 (by rw [hp]; rfl) (.inl ⟨by simp, rfl⟩) (by simp [ReclaimerPc.handle])
        (hmatched h rfl) (fun _ _ => rfl) (by simp)
    · exact inv_unlocking hs (by rw [hp]; rfl)
  -- the callback returns
  case h_5 h =>
    split at ht <;> cases ht
    · exact inv_reclaimer hs (by rw [hp]; rfl) hlt hseen hmatched (fun g hg _ => hrel g hg trivial)
        (by simp)
    · exact inv_unlocking hs (by rw [hp]; rfl)
  case h_6 h =>
    cases ht
    have hreleasing := hrel h rfl trivial
    refine inv_reclaimStore hs ?_ rfl (hlt h rfl) (hseen h rfl).1 (by rw [hp]; rfl)
      (.inr ⟨rfl, rfl⟩) (by simp [ReclaimerPc.handle]) (hmatched h rfl)
      (by simp [ReclaimerPc.handle]) (by simp)
    by_contra hne
    exact (hs.phase_of_refs _ hne).2 hreleasing
  case h_7 i =>
    rw [if_neg (hs.next_tail_ne_head (i := i) (by rw [hp]; rfl))] at ht
    cases ht
    exact inv_reclaimer hs (by rw [hp]; rfl) hlt hseen hmatched (by simp [ReclaimerPc.handle])
      (by simp)
  case h_8 i =>
    cases ht
    exact inv_pushCell hs hp
  case h_9 i =>
    cases ht
    exact inv_pushTail hs hp
  case h_10 =>
    cases ht
    exact inv_reclaimer hs (by rw [hp]; rfl) hlt hseen hmatched (by simp [ReclaimerPc.handle])
      (by simp)

/-! ## Every step, and the fence -/

theorem inv_step {a : Action} (hs : Inv s) (ht : s.step a = some t) : Inv t := by
  cases a with
  | beginPin goal =>
      simp only [State.step, Option.ite_none_right_eq_some, Option.some.injEq] at ht
      obtain ⟨hlt, rfl⟩ := ht
      exact inv_beginPin hs hlt
  | beginClone h | beginReservationLease h | beginCommit h | beginCancel h | beginRescue h =>
      exact inv_begin hs rfl rfl rfl rfl ht
  | load op =>
      have hmem := (State.replaceActor_eq_some.mp ht).1
      refine inv_replaceActor_same hs ht (fun j => ?_) (fun b hb h hh => ?_) (fun b hb => ?_)
      · simp [Actor.slot, Actor.handle, List.countP_cons]
      · obtain rfl := List.mem_singleton.mp hb
        exact hs.handle _ hmem h hh
      · obtain rfl := List.mem_singleton.mp hb
        exact hs.target_lt (.load op) hmem
  | cas op prior spurious => exact inv_casRound hs ht
  | readHandle goal => exact inv_readHandle hs ht
  | reset h => exact inv_decr hs rfl ht
  | drop h => exact inv_decr hs rfl ht
  | retireIfOnlyReader h => exact inv_retireIfOnlyReader hs rfl rfl rfl rfl ht
  | retireUnpinned h => exact inv_retireIfOnlyReader hs rfl rfl rfl rfl ht
  | tryReserve b n =>
      simp only [State.step, Option.ite_none_right_eq_some, Option.some.injEq] at ht
      obtain ⟨⟨hidle, -⟩, rfl⟩ := ht
      exact inv_producer hs (by simp [hidle, ProducerPc.refs]) (by simp [hidle, ProducerPc.transit])
        (by simp [hidle]) (by simp) (by simp) (by simp)
  | produce => exact inv_produce hs ht
  | tryReclaim h =>
      simp only [State.step, Option.ite_none_right_eq_some, Option.some.injEq] at ht
      obtain ⟨⟨hidle, -, hlt, -⟩, rfl⟩ := ht
      exact inv_reclaimer hs (by rw [hidle]; rfl) (by simpa [ReclaimerPc.handle] using hlt)
        (by simp [ReclaimerPc.seen]) (by simp [ReclaimerPc.matched])
        (by simp [ReclaimerPc.SawReleasing]) (by simp)
  | reclaim outcome => exact inv_reclaim hs ht

/-- The prepopulated ring lists every slot once. -/
theorem initial_queue (c : Config) : (State.initial c).queue = List.range c.capacity := by
  have hindex : ∀ k ∈ List.range c.capacity, (State.initial c).ready.cells
      ((State.initial c).ready.index k) = k := by
    intro k hk
    have hle : k ≤ c.capacity := (List.mem_range.mp hk).le
    simp [State.initial, RingQueue.index, hle]
  have hsize : (State.initial c).ready.size = c.capacity := by
    simp [State.initial, RingQueue.size]
  calc (State.initial c).queue
      = (State.initial c).ready.contents := by
        simp [State.queue, State.initial, ProducerPc.transit, ReclaimerPc.transit]
    _ = List.range c.capacity := by
        rw [RingQueue.contents, hsize, List.map_congr_left hindex, List.map_id']

theorem inv_initial {c : Config} (hc : c.Valid) : Inv (State.initial c) where
  valid := hc
  ready_capacity := rfl
  ready_wf := ⟨Nat.zero_le _, le_rfl⟩
  refs i := by simp [State.holders, State.initial, ProducerPc.refs]
  phase_of_refs i h := absurd rfl h
  handle a ha := by simp [State.initial] at ha
  target_lt a ha := by simp [State.initial] at ha
  record_slot i h := absurd rfl h
  generation i h := absurd rfl h
  popCell := by simp [State.initial]
  popHead := by simp [State.initial]
  claimed i h := absurd rfl h
  recorded := by simp [State.initial]
  queue_nodup := by
    rw [initial_queue]
    exact List.nodup_range
  mem_queue i := by
    rw [initial_queue, List.mem_range]
    exact ⟨fun h => ⟨h, rfl⟩, fun h => h.1⟩
  reclaim_lt h hh := by cases hh
  reclaim_seen h hh := by cases hh
  reclaim_matched h hh := by cases hh
  reclaim_releasing h hh := by cases hh
  pushTail := by simp [State.initial]
  issued_le h hh := by simp [State.initial] at hh
  issued_nodup := List.nodup_nil
  overflowed := rfl

theorem machine_invariant : machine.Invariant Inv where
  init := by
    rintro s ⟨c, hc, rfl⟩
    exact inv_initial hc
  step s a t hs ht := inv_step hs ht

/-- A slot waits in the ready ring. -/
def State.Ready (s : State) (i : ℕ) : Prop := i ∈ s.ready.contents ∧ s.phase i = .free

/-- A slot is on its way between the ring and its owner. -/
def State.InTransit (s : State) (i : ℕ) : Prop :=
  (i ∈ s.producer.transit ∨ i ∈ s.reclaimer.transit) ∧ s.phase i = .free

/-- A slot belongs to a reservation, its leases or the reclaimer. -/
def State.Owned (s : State) (i : ℕ) : Prop :=
  s.phase i ∈ [Phase.writing, .live, .retired, .releasing, .cancelled]

/-- Exactly one of three alternatives. -/
def ExactlyOne (p q r : Prop) : Prop :=
  (p ∧ ¬ q ∧ ¬ r) ∨ (¬ p ∧ q ∧ ¬ r) ∨ (¬ p ∧ ¬ q ∧ r)

theorem Inv.exactlyOne (hs : Inv s) {i : ℕ} (hi : i < s.config.capacity) :
    ExactlyOne (s.Ready i) (s.InTransit i) (s.Owned i) := by
  have howned : s.Owned i ↔ s.phase i ≠ .free := by
    unfold State.Owned
    cases s.phase i <;> simp
  unfold ExactlyOne State.Ready State.InTransit
  rw [howned]
  by_cases hfree : s.phase i = .free
  · have hmem := (hs.mem_queue i).mpr ⟨hi, hfree⟩
    have hnodup := hs.queue_nodup
    simp only [State.queue, List.append_assoc, List.mem_append, List.nodup_append'] at hmem hnodup
    obtain ⟨-, ⟨-, -, hright⟩, hleft⟩ := hnodup
    simp only [hfree, and_true, ne_eq, not_true_eq_false, not_false_eq_true, and_false, or_false]
    rcases hmem with hmem | hmem | hmem
    · exact .inr ⟨fun h => hleft hmem (List.mem_append_left _ h), .inl hmem⟩
    · refine .inl ⟨hmem, ?_⟩
      rintro (h | h)
      · exact hleft h (List.mem_append_left _ hmem)
      · exact hright hmem h
    · exact .inr ⟨fun h => hright h hmem, .inr hmem⟩
  · exact .inr (.inr ⟨fun h => hfree h.2, fun h => hfree h.2, hfree⟩)

/-- **The lifetime fence.**  In every reachable state: a lease's slot holds the
lease's record, is not free and not in the ready ring; every slot is ready, in
transit or owned, and only one of these, the ring lists no slot twice, a slot
is claimed only while nobody is counted on it, and no push has overflowed; all
reservations so far have different generations; and the release callback runs
on the retired record its call named, with nobody counted on the slot. -/
theorem lifetimeFence {s : State} (h : machine.Reachable s) :
    (∀ a ∈ s.actors, ∀ l, a.handle = some l →
      (s.slots l.slot).record.handle = l ∧ s.phase l.slot ≠ .free ∧ l.slot ∉ s.ready.contents) ∧
    ((∀ i < s.config.capacity, ExactlyOne (s.Ready i) (s.InTransit i) (s.Owned i)) ∧
      s.ready.contents.Nodup ∧
      (∀ b n i, s.producer = .claimed b n i → ∀ a ∈ s.actors, a.slot ≠ some i) ∧
      s.overflowed = false) ∧
    (s.issued.map KvMemBlockHandle.generation).Nodup ∧
    (∀ l, s.reclaimer = .releasing l →
      (s.slots l.slot).record.handle = l ∧ (s.slots l.slot).control = .releasing ∧
        ∀ a ∈ s.actors, a.slot ≠ some l.slot) := by
  have hs := machine_invariant.reachable h
  refine ⟨fun a ha l hl => ?_, ⟨fun i => hs.exactlyOne, ?_, fun b n i hp a ha hslot => ?_,
    hs.overflowed⟩, hs.issued_nodup, fun l hl => ?_⟩
  · have hslot := hs.of_slot ha (Actor.slot_of_handle hl)
    refine ⟨hs.handle a ha l hl, hslot.2.1, fun hmem => hslot.2.1 ?_⟩
    refine ((hs.mem_queue l.slot).mp ?_).2
    simp [State.queue, hmem]
  · have hnodup := hs.queue_nodup
    rw [State.queue, List.append_assoc] at hnodup
    exact hnodup.of_append_right.of_append_left
  · have hzero := (hs.of_slot ha hslot).2.2.2
    simp [hp, ProducerPc.refs] at hzero
  · have hrel := hs.reclaim_releasing l (by rw [hl]; rfl) (by rw [hl]; trivial)
    have hzero : (s.slots l.slot).control.refs = 0 := by
      by_contra hne
      exact (hs.phase_of_refs _ hne).2 hrel
    refine ⟨hs.reclaim_matched l (by rw [hl]; rfl), ?_, fun a ha hslot => ?_⟩
    · exact Control.ext hrel hzero
    · exact (hs.of_slot ha hslot).1 hzero

/-- A reservation committed, retired under its own lease and refused by the
reclaimer. -/
def retiredUnderReader : List Action :=
  [.tryReserve 0 32, .produce, .produce, .produce, .produce, .produce, .produce,
    .beginCommit ⟨0, 1⟩, .load (.commit ⟨0, 1⟩), .cas (.commit ⟨0, 1⟩) (.single .writing) false,
    .retireIfOnlyReader ⟨0, 1⟩, .tryReclaim ⟨0, 1⟩, .reclaim .returnedTrue, .reclaim .returnedTrue]

theorem lifetimeFence_retiredUnderReader :
    ∃ s, machine.run (State.initial ⟨2, 32⟩) retiredUnderReader = some s ∧
      ∀ a ∈ s.actors, ∀ l, a.handle = some l →
        (s.slots l.slot).record.handle = l ∧ s.phase l.slot ≠ .free ∧
          l.slot ∉ s.ready.contents := by
  have hsome : (machine.run (State.initial ⟨2, 32⟩) retiredUnderReader).isSome := by decide
  obtain ⟨s, hs⟩ := Option.isSome_iff_exists.mp hsome
  have hvalid : Config.Valid ⟨2, 32⟩ := by unfold Config.Valid; decide
  exact ⟨s, hs, (lifetimeFence ⟨_, _, ⟨⟨2, 32⟩, hvalid, rfl⟩, hs⟩).1⟩

end Qw3.Repository
