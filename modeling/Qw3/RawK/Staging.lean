import Qw3.RawK.Reaping

/-!
# Staging a record

A record is reserved at the end of a slot, packed, and published.  Where packing
throws the record is taken back, and the slot is what it was before.

* `State.staged` — a record that is reserved, with what is packed of it.
* `packRecord_runs`, `rollBack_runs` — packing, and how it is undone.
* `kvmemCopyRawKChunkToWriteback_runs` — the whole call: the other records are
  completed or left alone, and the chunk's own flags stay as they were.
-/

namespace Qw3.RawK.Writeback

open Qw3.Store (Span)
open Qw3.Tier (NvmeIoSpan)
open Qw3.Repository (KvMemBlockHandle)

/-- A record of a chunk is reserved at the end of slot `i`, and `io`, `spans` and
`leases` of it are packed. -/
def State.staged (s : State) (i : Fin 2) (chunk required : ℕ) (io : List NvmeIoSpan) (spans : List Span)
    (leases : List KvMemBlockHandle) : State :=
  { s.setSlot i fun slot => { slot with
        chunks := slot.chunks ++ [chunk]
        usedBytes := slot.usedBytes + required
        spans := slot.spans ++ io
        capture := slot.capture ++ spans
        leases := slot.leases ++ leases } with
    chunkSlot := Function.update s.chunkSlot chunk (some i)
    chunkOffset := Function.update s.chunkOffset chunk (s.slots i).usedBytes }

/-- The record is published: its chunk is pending, and what the slot captured is sorted. -/
def State.published (s : State) (i : Fin 2) (chunk required : ℕ) (io : List NvmeIoSpan) (spans : List Span)
    (leases : List KvMemBlockHandle) : State :=
  { (s.staged i chunk required io spans leases).setSlot i fun slot => { slot with
        capture := slot.capture.insertionSort fun a b => a.handle.slot ≤ b.handle.slot } with
    writePending := Function.update s.writePending chunk true
    ready := Function.update s.ready chunk true }

/-- What a slot may take a record in. -/
structure Room (s : State) (i : Fin 2) (required : ℕ) : Prop where
  required_ne : required ≠ 0
  idle : (s.slots i).inFlight = false
  host : (s.slots i).host = true

/-- A record of a chunk is reserved, and nothing of it is packed. -/
def Reserved (c : Config) (chunk : ℕ) (s₀ t : State) : Prop :=
  ∃ s i required, Good c (fun _ => False) s₀ s ∧ Room s i required ∧ t = s.staged i chunk required [] [] []

theorem Ordered.of_eq {c : Config} {s t : State} (h : Ordered c s) (hslots : t.slots = s.slots)
    (hchunk : t.chunkSlot = s.chunkSlot) (hpending : t.writePending = s.writePending)
    (hgeneration : t.storageGeneration = s.storageGeneration) : Ordered c t where
  future := hslots ▸ h.future
  staged_iff := hslots ▸ hchunk ▸ h.staged_iff
  pending_iff := hchunk ▸ hpending ▸ h.pending_iff
  used_iff := hslots ▸ h.used_iff
  submittable := hslots ▸ h.submittable
  current := hslots ▸ hgeneration ▸ h.current
  readable := hslots ▸ h.readable

theorem Good.mono {c : Config} {new : ℕ → Prop} {s₀ s : State} (h : Good c (fun _ => False) s₀ s) :
    Good c new s₀ s := ⟨h.ordered, h.frame.mono, h.generation_eq⟩

/-- Which slot is filled next does not matter. -/
theorem Good.fill {c : Config} {new : ℕ → Prop} {s₀ s : State} (h : Good c new s₀ s) (i : Fin 2) :
    Good c new s₀ { s with fillSlot := i } :=
  ⟨h.ordered.of_eq rfl rfl rfl rfl, h.frame.trans fun _ _ => .inl ⟨rfl, .refl, fun _ => ⟨rfl, rfl, rfl, fun _ _ => .refl _⟩⟩,
    h.generation_eq⟩

theorem Left.mono {c : Config} {new : ℕ → Prop} {s₀ t : State} {f : Failure}
    (h : Left c (fun _ => False) s₀ f t) (hnew : ∀ x, new x → s₀.writePending x = false) :
    Left c new s₀ f t := by
  have hgood : Good c (fun _ => False) s₀ t → Good c new s₀ t ∧ ∀ x, new x → FlagsEq c x s₀ t := fun ht =>
    ⟨ht.mono, fun x hx => (ht.frame.flags_of_not_pending not_false (hnew x hx)).1⟩
  cases f with
  | refused e => exact hgood h.1
  | packing e => exact hgood h.1
  | launch e => exact hgood h.1
  | background e => exact h
  | bookkeeping e => exact h
  | noState => exact h
  | outOfFuel => exact h

section Calls

variable {ω : Type} {c : Config} {o : Outside ω} {s s₀ : State} {i : Fin 2} {chunk required : ℕ}

/-! ## Reserving -/

theorem reserveRound_runs (hrequired : required ≠ 0) :
    Runs (Good c (fun _ => False) s₀) (reserveRound c o chunk required)
      (fun again t => if again then Good c (fun _ => False) s₀ t else Reserved c chunk s₀ t)
      (Left c (fun _ => False) s₀) := by
  have hreap : Runs (Good c (fun _ => False) s₀) (kvmemReapRawKWrites c o false)
      (fun _ => Good c (fun _ => False) s₀) (Left c (fun _ => False) s₀) :=
    (kvmemReapRawKWrites_runs s₀ false).conseq (fun _ h => h) (fun _ _ h => h) fun _ _ h => h.2
  have hflush : ∀ j, Runs (Good c (fun _ => False) s₀) (flushSlot o j)
      (fun _ => Good c (fun _ => False) s₀) (Left c (fun _ => False) s₀) := fun j =>
    (Runs.after fun s hs => flushSlot_runs hs j).conseq (fun _ h => h) (fun _ _ h => h) fun _ _ h => h.2
  unfold reserveRound
  refine .bind hreap fun _ => .get fun s w hs => ?_
  dsimp only
  split
  · next hroom =>
      rw [Bool.and_eq_true, Bool.and_eq_true, Bool.not_eq_true'] at hroom
      refine .bind (.modify (Q := fun _ => Reserved c chunk s₀) fun p hp => ?_) fun _ => .pure fun t ht => ht
      refine ⟨s, s.fillSlot, required, hs, ⟨hrequired, hroom.1.1, hroom.1.2⟩, ?_⟩
      rw [hp]
      simp [State.staged, State.setSlot]
  · refine .bind ((hflush _).pre fun t ht => ht ▸ hs) fun _ => ?_
    refine .bind (.modify (Q := fun _ => Good c (fun _ => False) s₀) fun p hp => hp.fill _) fun _ => .get fun t v ht => ?_
    dsimp only
    split
    · exact .pure fun u hu => hu ▸ ht
    · next hflight =>
        rw [Bool.not_eq_true', Bool.not_eq_false] at hflight
        split
        · next hfuture =>
            rw [ht.ordered.future _ hflight] at hfuture
            cases hfuture
        · refine .bind (.wait (Q := fun _ => Good c (fun _ => False) s₀) fun u hu => hu ▸ ht) fun _ => ?_
          exact .bind hreap fun _ => .pure fun u hu => hu

theorem kvmemReserveRawKWritebackRecord_runs (hs : Ordered c s) (hchunk : s.writePending chunk = false)
    (fuel bytes : ℕ) :
    Runs (fun t => t = s) (kvmemReserveRawKWritebackRecord c o fuel chunk bytes)
      (fun ok t => if ok then Reserved c chunk s t else t = s) (Left c (fun _ => False) s) := by
  unfold kvmemReserveRawKWritebackRecord
  refine .get fun t w ht => ?_
  subst ht
  dsimp only
  split
  · exact .pure fun u hu => hu
  · next hconfig =>
      rw [Bool.or_eq_true, not_or, decide_eq_true_iff] at hconfig
      have hrequired : (if bytes ≠ 0 then bytes else c.recordBytes) ≠ 0 := by
        split_ifs with hbytes
        · exact hbytes
        · exact hconfig.1
      generalize (if bytes ≠ 0 then bytes else c.recordBytes) = required at hrequired ⊢
      split
      · next hstaged =>
          rw [hs.not_pending hchunk] at hstaged
          cases hstaged
      · split
        · refine .throw fun u hu => ?_
          subst hu
          exact ⟨.refl hs, nofun⟩
        · refine .bind (Q := fun _ => Reserved c chunk t) ?_ fun _ => .pure fun u hu => hu
          refine Runs.pre (P := Good c (fun _ => False) t) ?_ fun u hu => hu.symm ▸ .refl hs
          have hout : ∀ u, Good c (fun _ => False) t u → Left c (fun _ => False) t .outOfFuel u := fun _ _ => trivial
          exact .loop (reserveRound_runs hrequired) hout fuel

/-! ## Packing -/

theorem copySegment_runs (id : ℕ) (allocation : ℤ) (mtp : Bool) {P : State → Prop} :
    Runs P (copySegment c o chunk id allocation mtp) (fun _ => P) fun f t => (∃ e, f = .packing e) ∧ P t := by
  unfold copySegment
  refine .get fun t w ht => ?_
  have hsame : ∀ u, u = t → P u := fun u hu => hu ▸ ht
  dsimp only
  split
  · exact .pure hsame
  · split
    · exact .pure hsame
    · split
      · exact (Runs.outside _ _ fun u _ e hu _ => ⟨⟨e, rfl⟩, hsame u hu⟩).conseq (fun _ h => h)
          (fun _ u hu => hsame u hu) fun _ _ h => h
      · exact .throw fun u hu => ⟨⟨_, rfl⟩, hsame u hu⟩

/-- A block of a record has its span; one that cannot be packed has none. -/
theorem packSpan_runs (io : List NvmeIoSpan) (offset : ℕ) (block : Span × ℕ) :
    Runs (fun t => t = s.staged i chunk required io [] []) (packSpan c o i chunk offset block)
      (fun _ t => ∃ span, t = s.staged i chunk required (io ++ [span]) [] [])
      fun f t => (∃ e, f = .packing e) ∧ t = s.staged i chunk required io [] [] := by
  unfold packSpan
  refine .get fun t w ht => ?_
  subst ht
  dsimp only
  split
  · exact .throw fun u hu => ⟨⟨_, rfl⟩, hu⟩
  · refine .bind (.outside _ _ fun u v e hu _ => ⟨⟨e, rfl⟩, hu⟩) fun allocation => ?_
    split
    · exact .throw fun u hu => ⟨⟨_, rfl⟩, hu⟩
    · refine .bind (copySegment_runs _ allocation false) fun _ => ?_
      refine .bind (copySegment_runs _ allocation true) fun _ => .modify fun p hp => ?_
      refine ⟨⟨allocation, offset + block.2 * c.slotBytes, c.slotBytes⟩, ?_⟩
      rw [hp]
      simp [State.staged, State.setSlot]

theorem packRecord_runs (offset : ℕ) (spans : List Span) (leases : List KvMemBlockHandle) :
    Runs (fun t => t = s.staged i chunk required [] [] []) (packRecord c o i chunk offset spans leases)
      (fun _ t => ∃ io : List NvmeIoSpan, io.length = spans.length ∧ t = s.staged i chunk required io spans leases)
      fun f t => (∃ e, f = .packing e) ∧ ∃ io, t = s.staged i chunk required io [] [] := by
  unfold packRecord
  refine .bind (Q := fun _ t => ∃ io : List NvmeIoSpan, io.length = spans.zipIdx.length ∧
    t = s.staged i chunk required io [] []) ?_ fun _ => .modify ?_
  · refine Runs.pre (P := fun t => ∃ io : List NvmeIoSpan, io.length = ([] : List (Span × ℕ)).length ∧
      t = s.staged i chunk required io [] []) ?_ fun t ht => ⟨[], rfl, ht⟩
    refine .forM_done (I := fun done t => ∃ io : List NvmeIoSpan, io.length = done.length ∧
      t = s.staged i chunk required io [] []) _ fun done block _ => .of_eq ?_
    rintro _ ⟨io, hlength, rfl⟩
    refine (packSpan_runs io offset block).conseq (fun _ h => h) ?_ fun f t ht => ⟨ht.1, io, ht.2⟩
    rintro _ t ⟨span, rfl⟩
    exact ⟨io ++ [span], by rw [List.length_append, List.length_append, hlength]; rfl, rfl⟩
  · rintro p ⟨io, hlength, hp⟩
    refine ⟨io, hlength.trans List.length_zipIdx, ?_⟩
    rw [hp]
    simp [State.staged, State.setSlot]

/-- The record is taken back; what is left of it is its offset. -/
theorem rollBack_runs {e : Failure} (hchunk : s.chunkSlot chunk = none) :
    Runs (fun t => ∃ io, t = s.staged i chunk required io [] [])
      (rollBack i chunk (s.slots i).usedBytes (s.slots i).spans.length (s.slots i).capture.length
        (s.slots i).leases.length e : Program (State × ω) Failure Unit)
      (fun _ _ => False)
      fun f t => f = e ∧ t = { s with chunkOffset := Function.update s.chunkOffset chunk 0 } := by
  unfold rollBack
  refine .bind (.modify (Q := fun _ t => t = { s with chunkOffset := Function.update s.chunkOffset chunk 0 }) ?_)
    fun _ => .throw fun t ht => ⟨rfl, ht⟩
  rintro p ⟨io, hp⟩
  have hslots : Function.update s.chunkSlot chunk none = s.chunkSlot := by
    rw [← hchunk, Function.update_eq_self]
  rw [hp]
  simp [State.staged, State.setSlot, hslots]

/-! ## Publishing -/

/-- What may be published of a chunk. -/
structure Publishable (c : Config) (s : State) (chunk : ℕ) (io : List NvmeIoSpan) (spans : List Span) : Prop where
  not_pending : s.writePending chunk = false
  readable : c.Readable chunk
  io_ne : io ≠ []
  current : ∀ span ∈ spans, s.storageGeneration span.handle.slot = span.handle.generation

variable {io : List NvmeIoSpan} {spans : List Span} {leases : List KvMemBlockHandle}

theorem published_self : (s.published i chunk required io spans leases).slots i =
    { s.slots i with
      chunks := (s.slots i).chunks ++ [chunk]
      usedBytes := (s.slots i).usedBytes + required
      spans := (s.slots i).spans ++ io
      capture := ((s.slots i).capture ++ spans).insertionSort fun a b => a.handle.slot ≤ b.handle.slot
      leases := (s.slots i).leases ++ leases } := by
  simp [State.published, State.staged, State.setSlot]

theorem published_ne {j : Fin 2} (h : j ≠ i) :
    (s.published i chunk required io spans leases).slots j = s.slots j := by
  simp [State.published, State.staged, State.setSlot, h]

/-- With the record the slots and the vectors agree as before. -/
theorem Ordered.published (hs : Ordered c s) (hroom : Room s i required) (h : Publishable c s chunk io spans) :
    Ordered c (s.published i chunk required io spans leases) := by
  have hnone := hs.not_pending h.not_pending
  constructor
  · intro j hj
    rcases eq_or_ne j i with rfl | hne
    · rw [published_self] at hj ⊢
      exact hs.future j hj
    · rw [published_ne hne] at hj ⊢
      exact hs.future j hj
  · intro x j
    show Function.update s.chunkSlot chunk (some i) x = some j ↔ _
    rcases eq_or_ne x chunk with rfl | hx
    · rw [Function.update_self]
      rcases eq_or_ne j i with rfl | hne
      · rw [published_self]
        simp
      · rw [published_ne hne, ← hs.staged_iff, hnone]
        simp [hne.symm]
    · rw [Function.update_of_ne hx, hs.staged_iff]
      rcases eq_or_ne j i with rfl | hne
      · rw [published_self]
        simp [hx]
      · rw [published_ne hne]
  · intro x
    show Function.update s.writePending chunk true x = true ↔ (Function.update s.chunkSlot chunk (some i) x).isSome
    rcases eq_or_ne x chunk with rfl | hx
    · rw [Function.update_self, Function.update_self]
      exact iff_of_true rfl rfl
    · rw [Function.update_of_ne hx, Function.update_of_ne hx]
      exact hs.pending_iff x
  · intro j
    rcases eq_or_ne j i with rfl | hne
    · rw [published_self]
      simp [hroom.required_ne]
    · rw [published_ne hne]
      exact hs.used_iff j
  · intro j hj
    rcases eq_or_ne j i with rfl | hne
    · rw [published_self]
      exact ⟨hroom.host, by simp [h.io_ne]⟩
    · rw [published_ne hne] at hj ⊢
      exact hs.submittable j hj
  · intro j span hspan
    show s.storageGeneration span.handle.slot = _
    rcases eq_or_ne j i with rfl | hne
    · rw [published_self] at hspan
      rcases List.mem_append.mp ((List.perm_insertionSort _ _).mem_iff.mp hspan) with hold | hnew
      · exact hs.current j span hold
      · exact h.current span hnew
    · rw [published_ne hne] at hspan
      exact hs.current j span hspan
  · intro j x hx
    rcases eq_or_ne j i with rfl | hne
    · rw [published_self] at hx
      rcases List.mem_append.mp hx with hold | hnew
      · exact hs.readable j x hold
      · exact List.mem_singleton.mp hnew ▸ h.readable
    · rw [published_ne hne] at hx
      exact hs.readable j x hx

theorem Good.published (hs : Ordered c s) (hroom : Room s i required) (h : Publishable c s chunk io spans) :
    Good c (fun x => x = chunk) s (s.published i chunk required io spans leases) := by
  refine ⟨hs.published hroom h, fun x hx => .inl ⟨?_, fun _ => ⟨rfl, rfl, fun _ _ => rfl⟩, fun _ => ?_⟩, rfl⟩
  · exact Function.update_of_ne hx ..
  · refine ⟨Function.update_of_ne hx .., Function.update_of_ne hx .., Function.update_of_ne hx .., fun j _ => ?_⟩
    rcases eq_or_ne j i with rfl | hne
    · rw [published_self]
      refine ⟨List.prefix_append .., List.prefix_append .., List.prefix_append .., ?_, id⟩
      -- The capture is sorted, so its earlier spans are somewhere in it.
      exact (List.sublist_append_left ..).subperm.trans (List.perm_insertionSort _ _).symm.subperm
    · rw [published_ne hne]
      exact .refl _

/-- Publishing, and the launch of the slot where the record fills it. -/
theorem publishRecord_runs (hs₀ : Good c (fun _ => False) s₀ s) (hroom : Room s i required)
    (h : Publishable c s chunk io spans) (hchunk : s₀.writePending chunk = false) :
    Runs (fun t => t = s.staged i chunk required io spans leases) (publishRecord o i chunk)
      (fun _ => Good c (fun x => x = chunk) s₀) (Left c (fun x => x = chunk) s₀) := by
  have hgood : Good c (fun x => x = chunk) s₀ (s.published i chunk required io spans leases) :=
    hs₀.mono.trans (.published hs₀.ordered hroom h)
  have hflags : ∀ x, x = chunk → FlagsEq c x s₀ (s.published i chunk required io spans leases) := by
    rintro _ rfl
    exact (hs₀.frame.flags_of_not_pending not_false hchunk).1
  unfold publishRecord
  refine .bind (.modify (Q := fun _ t => t = s.published i chunk required io spans leases) ?_) fun _ => ?_
  · intro p hp
    rw [hp]
    rfl
  refine .bind (.outside _ _ ?_) fun _ => .get fun t w ht => ?_
  · rintro _ _ _ rfl -
    exact ⟨hgood, hflags⟩
  dsimp only
  split
  · subst ht
    refine .bind (Q := fun _ => Good c (fun x => x = chunk) s₀) ?_ fun _ => .modify fun p hp => hp.fill _
    refine (kvmemSubmitRawKWritebackSlot_runs hgood.ordered i).conseq (fun _ h => h) ?_ ?_
    · exact fun _ t ht => hgood.trans ht.1.mono
    · rintro _ _ ⟨rfl, -, e, rfl⟩
      exact ⟨hgood, hflags⟩
  · exact .pure fun u hu => (hu.trans ht) ▸ hgood

/-! ## The call -/

/-- A chunk that can be read, with spans that have the generation that is stored. -/
theorem rawChunkRead_view (place : String → Failure) {E : Failure → State → Prop} (hE : ∀ e, E (place e) s) :
    Runs (fun t => t = s) (kvmemRepositoryRawChunkRead c o place chunk)
      (fun view t => t = s ∧ c.Readable chunk ∧
        ∀ span ∈ view.1, s.storageGeneration span.handle.slot = span.handle.generation) E := by
  unfold kvmemRepositoryRawChunkRead
  dsimp only
  split
  · exact .throw fun t ht => ht ▸ hE _
  · next hread =>
      rw [Bool.or_eq_true, not_or, decide_eq_true_iff, decide_eq_true_iff, Nat.not_le] at hread
      rintro ⟨t, w⟩ rfl
      have hcurrent := o.read_current (chunk * (c.chunkTokens / c.blockTokens))
        (min (c.chunkTokens / c.blockTokens) (c.blockCount - chunk * (c.chunkTokens / c.blockTokens))) t w
      revert hcurrent
      unfold Program.exec outside
      dsimp only
      cases (o.repositorySlotRead _ _ t w).1 with
      | ok view => exact fun hcurrent => ⟨rfl, hread, hcurrent view rfl⟩
      | error e => exact fun _ => hE e

/-- A record that is reserved is packed and published, or taken back. -/
theorem packAndPublish_runs (hchunk : s₀.writePending chunk = false) (hread : c.Readable chunk)
    {capture : List (Span × KvMemBlockHandle)} (hcapture : capture ≠ [])
    (hcurrent : ∀ span ∈ capture.map Prod.fst, s₀.storageGeneration span.handle.slot = span.handle.generation) :
    Runs (Reserved c chunk s₀) (do
        let (s, _) ← get
        let i := (s.chunkSlot chunk).getD 0
        let slot := s.slots i
        tryCatch (packRecord c o i chunk (s.chunkOffset chunk) (capture.map Prod.fst) (capture.map Prod.snd))
          (rollBack i chunk (s.chunkOffset chunk) slot.spans.length slot.capture.length slot.leases.length)
        publishRecord o i chunk
        pure true)
      (fun _ => Good c (fun x => x = chunk) s₀) (Left c (fun x => x = chunk) s₀) := by
  refine .get ?_
  rintro _ w ⟨s, i, required, hs₀, hroom, rfl⟩
  have hslot : ((s.staged i chunk required [] [] []).chunkSlot chunk).getD 0 = i := by
    simp [State.staged]
  have hoffset : (s.staged i chunk required [] [] []).chunkOffset chunk = (s.slots i).usedBytes := by
    simp [State.staged]
  have hself : (s.staged i chunk required [] [] []).slots i =
      { s.slots i with
        chunks := (s.slots i).chunks ++ [chunk]
        usedBytes := (s.slots i).usedBytes + required } := by
    simp [State.staged, State.setSlot]
  dsimp only
  rw [hslot, hoffset, hself]
  have hpending := (hs₀.frame.flags_of_not_pending not_false hchunk).2
  have hflags := (hs₀.frame.flags_of_not_pending not_false hchunk).1
  refine .bind (Q := fun _ t => ∃ io : List NvmeIoSpan, io.length = (capture.map Prod.fst).length ∧
    t = s.staged i chunk required io (capture.map Prod.fst) (capture.map Prod.snd)) ?_ fun _ => ?_
  · refine .tryCatch (packRecord_runs _ _ _) fun e => .of_eq ?_
    rintro t ⟨⟨what, rfl⟩, hio⟩
    refine (rollBack_runs (hs₀.ordered.not_pending hpending)).conseq (fun u hu => hu ▸ hio) (fun _ _ => False.elim) ?_
    rintro _ _ ⟨rfl, rfl⟩
    refine ⟨⟨hs₀.ordered.of_eq rfl rfl rfl rfl, hs₀.frame.mono.trans fun x hx => ?_, hs₀.generation_eq⟩, ?_⟩
    · exact .inl ⟨rfl, .refl, fun _ => ⟨rfl, Function.update_of_ne hx .., rfl, fun _ _ => .refl _⟩⟩
    · rintro _ rfl
      exact hflags
  · refine .bind (Q := fun _ => Good c (fun x => x = chunk) s₀) (.of_eq ?_) fun _ => .pure fun _ h => h
    rintro _ ⟨io, hlength, rfl⟩
    refine publishRecord_runs hs₀ hroom ⟨hpending, hread, ?_, ?_⟩ hchunk
    · rintro rfl
      rw [List.length_map] at hlength
      exact hcapture (List.length_eq_zero_iff.mp hlength.symm)
    · rw [hs₀.generation_eq]
      exact hcurrent

theorem kvmemCopyRawKChunkToWriteback_runs (hs : Ordered c s) (fuel chunk : ℕ) :
    Runs (fun t => t = s) (kvmemCopyRawKChunkToWriteback c o fuel chunk)
      (fun _ => Good c (fun x => x = chunk) s) (Left c (fun x => x = chunk) s) := by
  have hsame : ∀ t, t = s → Good c (fun x => x = chunk) s t := by
    rintro _ rfl
    exact .refl hs
  unfold kvmemCopyRawKChunkToWriteback
  refine .get fun t w ht => ?_
  subst ht
  dsimp only
  split
  · exact .pure hsame
  · split
    · exact .pure hsame
    · next hpending =>
        have hchunk : t.writePending chunk = false := by simpa using hpending
        refine .bind (rawChunkRead_view _ fun e => ?_) fun view => .of_eq ?_
        · exact ⟨.refl hs, fun _ _ => .refl⟩
        · rintro _ ⟨rfl, hread, hcurrent⟩
          refine .get fun u v hu => ?_
          subst hu
          dsimp only
          split
          · exact .pure hsame
          · next hcapture =>
              refine .bind (Q := fun ok w => if ok then Reserved c chunk u w else w = u) ?_ fun ok => ?_
              · refine (kvmemReserveRawKWritebackRecord_runs hs hchunk fuel _).conseq (fun _ h => h) (fun _ _ h => h) ?_
                exact fun _ _ h => h.mono fun x hx => hx ▸ hchunk
              · cases ok with
                | false => exact .pure hsame
                | true =>
                    refine packAndPublish_runs hchunk hread ?_ ?_
                    · rwa [List.isEmpty_iff] at hcapture
                    · intro span hspan
                      obtain ⟨block, hblock, rfl⟩ := List.mem_map.mp hspan
                      refine hcurrent block.1 ?_
                      exact (List.of_mem_zip (List.mem_filter.mp (List.mem_filter.mp hblock).1).1).1

end Calls

end Qw3.RawK.Writeback
