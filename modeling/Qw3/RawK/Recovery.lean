import Qw3.RawK.Staging

/-!
# Recovery from a failed writeback

After packing or the launch of a task threw, the writeback can go on: the slots and
the vectors agree, and a flush launches the failed record again.  After the task
itself threw it cannot: `get` has given the future up, and the slot stays in flight.

* `Recoverable` — what an exception should leave behind.
* `recoverable_iff_early` — in every run: it does exactly where it was thrown before
  the result of a task was taken.
* `kvmemFlushRawKWrites_dead` — otherwise no flush that waits ever returns.
-/

namespace Qw3.RawK.Writeback

open Qw3.Store (Span)
open Qw3.Tier (NvmeIoSpan)

section Recovery

variable {ω : Type} (c : Config) (o : Outside ω)

/-- The record that a call starts. -/
def Action.starts : Action ω → ℕ → Prop
  | .copy _ chunk, x => x = chunk
  | _, _ => False

/-- What an exception leaves behind, of the state before the call. -/
structure Recoverable (new : ℕ → Prop) (s t : State) : Prop where
  /-- A record that failed is not entered as backed or clean. -/
  unflagged : ∀ x, t.writePending x = true ∨ new x → FlagsEq c x s t
  /-- The other records are where they were, or they are completed. -/
  others : ∀ x, s.writePending x = true → ¬ new x → Held x s t ∨ t.writePending x = false
  /-- A task in flight has a result that nobody has taken. -/
  futures : ∀ i, (t.slots i).inFlight = true → (t.slots i).future = true
  /-- A flush that waits returns with nothing pending, or something fails again. -/
  retried : Runs (fun u => u = t) (kvmemFlushRawKWrites c o true) (fun _ u => ∀ x, u.writePending x = false)
    fun f _ => Blames o f

/-- A call does not throw, or it does so before the result of a task is taken. -/
def throwsEarly (p : State × ω) (a : Action ω) : Bool :=
  match ((call c o a).exec p).1 with
  | .ok _ => true
  | .error f => f.early

variable {c o} {new : ℕ → Prop} {s t : State} {f : Failure}

/-! ## One call -/

theorem Left.of_early (h : Left c new s f t) (hf : f.early = true) :
    Good c new s t ∧ ∀ x, new x → FlagsEq c x s t := by
  cases f with
  | refused e => exact h
  | packing e => exact h
  | launch e => exact h
  | background e => cases hf
  | bookkeeping e => cases hf
  | noState => cases hf
  | outOfFuel => cases hf

theorem Left.dead (h : Left c new s f t) (hf : ¬ f.early = true) (hfuel : f ≠ .outOfFuel) : Dead t := by
  cases f with
  | refused e => exact absurd rfl hf
  | packing e => exact absurd rfl hf
  | launch e => exact absurd rfl hf
  | background e => exact h
  | bookkeeping e => exact h
  | noState => exact absurd h id
  | outOfFuel => exact absurd rfl hfuel

theorem Good.recoverable (h : Good c new s t) (hnew : ∀ x, new x → FlagsEq c x s t) : Recoverable c o new s t where
  unflagged x hx := by
    by_cases hx' : new x
    · exact hnew x hx'
    · rcases h.frame x hx' with hu | ⟨-, hdone⟩
      · exact hu.flags
      · exact absurd (hdone.symm.trans (hx.resolve_right hx')) Bool.false_ne_true
  others x hx hx' := (h.frame x hx').imp (fun hu => hu.held hx) fun hdone => hdone.2
  futures := h.ordered.future
  retried := (kvmemFlushRawKWrites_runs h.ordered true).conseq (fun _ h => h) (fun _ _ ht => ht.2 rfl)
    fun _ _ ht => ht.1

theorem call_runs (hs : Ordered c s) (a : Action ω) :
    Runs (fun t => t = s) (call c o a) (fun _ => Good c a.starts s) (Left c a.starts s) := by
  have hsame : ∀ t, t = s → Good c a.starts s t := by
    rintro _ rfl
    exact .refl hs
  cases a with
  | copy fuel chunk =>
      exact .bind (kvmemCopyRawKChunkToWriteback_runs hs fuel chunk) fun _ => .pure fun _ h => h
  | flush waitAll =>
      exact (kvmemFlushRawKWrites_runs hs waitAll).conseq (fun _ h => h) (fun _ _ h => h.1) fun _ _ h => h.2
  | reap waitAll =>
      refine (kvmemReapRawKWrites_runs s waitAll).conseq ?_ (fun _ _ h => h) fun _ _ h => h.2
      exact hsame
  | submit i =>
      refine (kvmemSubmitRawKWritebackSlot_runs hs i).conseq (fun _ h => h) (fun _ _ h => h.1) ?_
      rintro _ t ⟨ht, -, e, rfl⟩
      exact ⟨hsame t ht, nofun⟩
  | recycle b generation => exact .pure hsame
  | mark backed dirty blockBacked => exact .pure hsame
  | outside w => exact .pure hsame

/-! ## Every run -/

theorem Fresh.ordered (h : Fresh s) : Ordered c s where
  future i hi := by
    rw [h.slots_eq i] at hi
    cases hi
  staged_iff x i := by
    rw [h.chunkSlot_eq, h.slots_eq i]
    simp
  pending_iff x := by
    rw [h.chunkSlot_eq, h.pending_eq]
    simp
  used_iff i := by
    rw [h.slots_eq i]
    exact iff_of_true rfl rfl
  submittable i hi := by
    rw [h.slots_eq i] at hi
    exact absurd rfl hi
  current i span hspan := by
    rw [h.slots_eq i] at hspan
    cases hspan
  readable i x hx := by
    rw [h.slots_eq i] at hx
    cases hx

/-- A block that no slot has captured may get another generation. -/
theorem Ordered.recycled (h : Ordered c s) {b : ℕ} (hb : captures s b = false) (generation : ℕ) :
    Ordered c { s with storageGeneration := Function.update s.storageGeneration b generation } where
  future := h.future
  staged_iff := h.staged_iff
  pending_iff := h.pending_iff
  used_iff := h.used_iff
  submittable := h.submittable
  readable := h.readable
  current i span hspan := by
    refine (Function.update_of_ne ?_ ..).trans (h.current i span hspan)
    rintro rfl
    refine absurd ?_ (Bool.eq_false_iff.mp hb)
    exact List.any_eq_true.mpr ⟨i, List.mem_finRange i, List.any_eq_true.mpr ⟨span, hspan, beq_self_eq_true _⟩⟩

theorem step_ordered {p q : State × ω} {a : Action ω} (hs : Ordered c p.1) (hearly : throwsEarly c o p a = true)
    (h : step c o p a = some q) : Ordered c q.1 := by
  have hcall : ∀ r u, (call c o a).exec p = (r, u) → Ordered c u.1 := by
    intro r u hexec
    have hruns := call_runs (o := o) hs a p rfl
    unfold throwsEarly at hearly
    rw [hexec] at hruns hearly
    cases r with
    | ok _ => exact hruns.ordered
    | error f => exact (Left.of_early hruns hearly).1.ordered
  unfold step at h
  split at h
  · split at h
    · cases h
    · next b generation hb =>
        rw [← Option.some.inj h]
        exact hs.recycled (by simpa using hb) generation
  · rw [← Option.some.inj h]
    exact hs.of_eq rfl rfl rfl rfl
  · rw [← Option.some.inj h]
    exact hs
  · split at h
    · cases h
    · next hexec =>
        rw [← Option.some.inj h]
        exact hcall _ _ hexec

theorem ordered_invariant :
    ((machine c o).restrict fun p a => throwsEarly c o p a = true).Invariant fun p => Ordered c p.1 where
  init _ h := Fresh.ordered h
  step p a q hs h := by
    obtain ⟨hearly, h⟩ := Machine.restrict_step.mp h
    exact step_ordered hs hearly h

/-- In a run whose exceptions were all thrown before the result of a task was taken, an
exception leaves a state to recover from if and only if it is one of those, too. -/
theorem recoverable_iff_early {w w' : ω}
    (h : ((machine c o).restrict fun p a => throwsEarly c o p a = true).Reachable (s, w)) (a : Action ω)
    (hthrow : (call c o a).exec (s, w) = (.error f, t, w')) (hfuel : f ≠ .outOfFuel) :
    Recoverable c o a.starts s t ↔ f.early = true := by
  have hs : Ordered c s := ordered_invariant.reachable h
  have hleft : Left c a.starts s f t := by
    have hruns := call_runs (o := o) hs a (s, w) rfl
    rwa [hthrow] at hruns
  constructor
  · intro hrecoverable
    by_contra hlate
    obtain ⟨i, hflight, hfuture⟩ := hleft.dead hlate hfuel
    rw [hrecoverable.futures i hflight] at hfuture
    cases hfuture
  · intro hearly
    obtain ⟨hgood, hnew⟩ := hleft.of_early hearly
    exact hgood.recoverable hnew

/-! One chunk of one block fills a slot, and the file tier is full.  Whether `std::async`
can launch a task is up to the rest of the executor. -/

/-- The configuration. -/
def oneChunk : Config where
  blockTokens := 1
  blockCount := 1
  kvCtxSize := 1
  chunkTokens := 1
  chunkCount := 1
  mtp := false
  slotBytes := 1
  recordBytes := 1

/-- The rest of the executor. -/
def fullTier : Outside Bool where
  repositorySlotRead _ _ s w := (.ok ([⟨0, 0, 1, ⟨0, s.storageGeneration 0⟩⟩], [⟨0, s.storageGeneration 0⟩]), w)
  read_current := by
    intro _ _ s _ r hr span hspan
    rw [← Except.ok.inj hr] at hspan
    rw [List.mem_singleton.mp hspan]
  validTokens _ _ := [true]
  resident _ _ _ := true
  blockSlot _ _ := -1
  placeBlock _ _ w := (.ok 0, w)
  readSlotRange _ _ _ w := (.ok (), w)
  launch _ _ w := (if w then .ok () else .error "Resource temporarily unavailable", w)
  isReady _ _ := true
  wait _ w := w
  outcome _ _ w := (.error "No space left on device", w)
  gcRawChunkState _ _ _ w := (.ok (), w)

local instance neZero_slots : NeZero (1 + 1) := ⟨Nat.succ_ne_zero 1⟩

/-- Two empty slots. -/
def emptySlots : State where
  slots _ := { host := true, capacityBytes := 1 }
  fillSlot := 0
  chunkSlot _ := none
  chunkOffset _ := 0
  ready _ := false
  writePending _ := false
  backed _ _ := false
  dirty _ _ := true
  blockBacked _ _ := false
  storageGeneration _ := 7

theorem emptySlots_fresh : Fresh emptySlots := ⟨fun _ => rfl, rfl, rfl⟩

/-- Two chunks of one block. -/
def twoChunks : Config := { oneChunk with blockCount := 2, kvCtxSize := 2, chunkCount := 2 }

/-- Each block is in a slot of its own, and no task is done. -/
def busyTier : Outside Bool where
  __ := fullTier
  isReady _ _ := false
  repositorySlotRead first _ s w :=
    (.ok ([⟨first, 0, 1, ⟨first, s.storageGeneration first⟩⟩], [⟨first, s.storageGeneration first⟩]), w)
  read_current := by
    intro _ _ s _ r hr span hspan
    rw [← Except.ok.inj hr] at hspan
    rw [List.mem_singleton.mp hspan]

/-- The record of one chunk is in flight, and the task of the other cannot be launched. -/
theorem recoverable_iff_early_unlaunched : ∃ s, s.writePending 0 = true ∧ (s.slots 0).inFlight = true ∧
    ∃ f t w, (call twoChunks busyTier (.copy 1 1)).exec (s, false) = (.error f, t, w) ∧
      (Recoverable twoChunks busyTier (Action.copy (ω := Bool) 1 1).starts s t ↔ f.early = true) := by
  have hreach : ((machine twoChunks busyTier).restrict fun p a => throwsEarly twoChunks busyTier p a = true).Reachable
      (((call twoChunks busyTier (.copy 1 0)).exec (emptySlots, true)).2.1, false) :=
    ⟨(emptySlots, true), [.copy 1 0, .outside false], emptySlots_fresh, rfl⟩
  exact ⟨_, rfl, rfl, .launch "Resource temporarily unavailable", _, _, rfl,
    recoverable_iff_early hreach (.copy 1 1) rfl nofun⟩

/-- The task of a slot that is launched fails: its result is taken, and the slot stays in
flight without it. -/
theorem failed_task_not_recoverable : ∃ s w f t w', (machine oneChunk fullTier).Reachable (s, w) ∧
    (call oneChunk fullTier (.flush true)).exec (s, w) = (.error f, t, w') ∧
    f = .background "No space left on device" ∧ s.writePending 0 = true ∧ t.writePending 0 = true ∧
    ¬ Recoverable oneChunk fullTier (Action.flush (ω := Bool) true).starts s t := by
  have hreach : (machine oneChunk fullTier).Reachable
      ((call oneChunk fullTier (.copy 1 0)).exec (emptySlots, true)).2 :=
    ⟨(emptySlots, true), [.copy 1 0], emptySlots_fresh, rfl⟩
  refine ⟨_, _, .background "No space left on device", _, _, hreach, rfl, rfl, rfl, rfl, fun h => ?_⟩
  exact absurd (h.futures 0 rfl) Bool.false_ne_true

/-! ## After the result of a task was lost -/

/-- Slot `i` is in flight, and nobody can take its result. -/
def DeadAt (i : Fin 2) (s : State) : Prop := (s.slots i).inFlight = true ∧ (s.slots i).future = false

section Dead

variable {i j : Fin 2}

theorem DeadAt.of_slot (h : DeadAt i s) (ht : t.slots i = s.slots i) : DeadAt i t := by
  unfold DeadAt
  rwa [ht]

theorem flushSlot_dead : Runs (DeadAt i) (flushSlot o j) (fun _ => DeadAt i) fun _ => DeadAt i := by
  unfold flushSlot kvmemSubmitRawKWritebackSlot
  refine .get fun s w hs => ?_
  have hsame : ∀ t, t = s → DeadAt i t := fun t ht => ht ▸ hs
  dsimp only
  split
  · next hidle =>
      have hne : i ≠ j := by
        rintro rfl
        rw [hs.1] at hidle
        cases hidle
      refine .get fun u v hu => ?_
      subst hu
      dsimp only
      split
      · exact .pure hsame
      · split
        · exact .pure hsame
        · split
          · exact .throw hsame
          · refine .bind (.outside _ _ fun t w e ht _ => hsame t ht) fun _ => .modify fun p hp => ?_
            exact (hsame p.1 hp).of_slot (setSlot_ne hne)
  · exact .pure hsame

/-- Entering a chunk leaves the slots. -/
theorem finishChunk_dead (x : ℕ) : Runs (DeadAt i) (finishChunk c o j x) (fun _ => DeadAt i) fun _ => DeadAt i := by
  have hread : Runs (DeadAt i) (kvmemRepositoryRawChunkRead c o .bookkeeping x) (fun _ => DeadAt i)
      fun _ => DeadAt i := by
    unfold kvmemRepositoryRawChunkRead
    dsimp only
    split
    · exact .throw fun t ht => ht
    · exact .outside _ _ fun t w e ht _ => ht
  unfold finishChunk
  refine .bind (.modify (Q := fun _ => DeadAt i) fun p hp => hp) fun _ => .get fun s w hs => ?_
  refine .bind (Q := fun _ => DeadAt i) ?_ fun _ => ?_
  · refine Runs.pre (P := DeadAt i) ?_ fun t ht => ht ▸ hs
    refine Program.Triple.forM (c.blocksOf x) fun id _ => ?_
    unfold finishBlock
    refine Runs.get fun t v ht => ?_
    have hsame : ∀ u, u = t → DeadAt i u := fun u hu => hu ▸ ht
    dsimp only
    split
    · exact .pure hsame
    · split
      · exact .throw hsame
      · exact .modify fun p hp => hsame p.1 hp
  refine .bind (.modify (Q := fun _ => DeadAt i) fun p hp => hp) fun _ => ?_
  refine .bind (Q := fun _ => DeadAt i) (.bind hread fun view => .modify fun p hp => hp) fun _ => ?_
  refine .bind (.outside _ _ fun t v e ht _ => ht) fun _ => .modify fun p hp => ?_
  split
  · exact hp
  · exact hp

/-- The slot stays in flight, and reaping it throws. -/
theorem reapSlot_dead : Runs (DeadAt i) (reapSlot c o true j) (fun _ s => DeadAt i s ∧ j ≠ i) fun _ => DeadAt i := by
  unfold reapSlot
  refine .get fun s w hs => ?_
  have hsame : ∀ t, t = s → DeadAt i t := fun t ht => ht ▸ hs
  rcases eq_or_ne i j with rfl | hne
  · dsimp only
    rw [hs.1, hs.2]
    exact .throw hsame
  · dsimp only
    split
    · exact .pure fun t ht => ⟨hsame t ht, hne.symm⟩
    · split
      · exact .throw hsame
      · split
        · exact .pure fun t ht => ⟨hsame t ht, hne.symm⟩
        · refine .bind (.modify (Q := fun _ => DeadAt i) fun p hp => ?_) fun _ => ?_
          · exact (hsame p.1 hp).of_slot (setSlot_ne hne)
          refine .bind (.outside _ _ fun t v e ht _ => ht) fun _ => ?_
          refine .bind (Q := fun _ => DeadAt i) ?_ fun _ => .modify fun p hp => ⟨hp.of_slot (setSlot_ne hne), hne.symm⟩
          exact Program.Triple.forM _ fun x _ => finishChunk_dead x

/-- No flush that waits returns from here, and the next one meets the same slot. -/
theorem kvmemFlushRawKWrites_dead :
    Runs (DeadAt i) (kvmemFlushRawKWrites c o true) (fun _ _ => False) fun _ => DeadAt i := by
  unfold kvmemFlushRawKWrites kvmemReapRawKWrites
  refine .bind flushSlot_dead fun _ => .bind flushSlot_dead fun _ => .bind reapSlot_dead fun _ => .of_eq fun s hs => ?_
  refine reapSlot_dead.conseq (fun t ht => ht ▸ hs.1) (fun _ t ht => ?_) fun _ _ h => h
  -- One of the two slots is slot `i`.
  have hzero := hs.2
  have hone := ht.2
  omega

end Dead

/-- A flush has taken the result of a task that failed: the next one throws, and leaves the slot as
it is. -/
theorem kvmemFlushRawKWrites_dead_failed : ∃ s w f t w', (machine oneChunk fullTier).Reachable (s, w) ∧ DeadAt 0 s ∧
    (kvmemFlushRawKWrites oneChunk fullTier true).exec (s, w) = (.error f, t, w') ∧ DeadAt 0 t := by
  have hreach : (machine oneChunk fullTier).Reachable ((call oneChunk fullTier (.flush true)).exec
      ((call oneChunk fullTier (.copy 1 0)).exec (emptySlots, true)).2).2 :=
    ⟨(emptySlots, true), [.copy 1 0, .flush true], emptySlots_fresh, rfl⟩
  have hdead : DeadAt 0 ((call oneChunk fullTier (.flush true)).exec
      ((call oneChunk fullTier (.copy 1 0)).exec (emptySlots, true)).2).2.1 := ⟨rfl, rfl⟩
  have hruns := kvmemFlushRawKWrites_dead (c := oneChunk) (o := fullTier) _ hdead
  rcases hexec : (kvmemFlushRawKWrites oneChunk fullTier true).exec ((call oneChunk fullTier (.flush true)).exec
      ((call oneChunk fullTier (.copy 1 0)).exec (emptySlots, true)).2).2 with ⟨_ | f, t⟩
  · rw [hexec] at hruns
    exact ⟨_, _, _, _, _, hreach, hdead, hexec, hruns⟩
  · rw [hexec] at hruns
    exact hruns.elim

end Recovery

end Qw3.RawK.Writeback
