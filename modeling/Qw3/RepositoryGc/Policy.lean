import Qw3.RepositoryGc.Worker

/-!
# Policy retirement rests on current metadata

* `Evolves` — what one step does to a slot's metadata and to the log of its
  publications.  Everything the worker remembers about a slot (`Since`,
  `Snapshot.Tracks`, a reader's `Tracks`) is kept along it.
* `State.PcOk` — what the worker knows at each point of `tick`.
* `Inv` — the invariant, with the repository's own invariant for the whole.
* `policyRetirement` — a block left retired had no other reader, its last
  completed publication was retirable, no publication had stored anything since
  it was scored, and it was outside the recent band when `tick` looked.
* `not_outsideBand_at_exchange` — between the two looks `history_end_` may have
  been elsewhere.
-/

namespace Qw3.RepositoryGc

open Qw3.Repository (KvMemBlockHandle Record Control Actor)

/-! ## Metadata and the log of its publications -/

/-- One step of a slot's metadata and of its log. -/
inductive Evolves : Metadata → List Publication → Metadata → List Publication → Prop
  | same (l : Metadata) (log : List Publication) : Evolves l log l log
  | enter {l : Metadata} (h : Even l.version) (log : List Publication) : Evolves l log l.bump log
  | store {l : Metadata} (h : Odd l.version) (log : List Publication) (k : Field) (x : ℕ) :
      Evolves l log (l.store k x) log
  | leave {l : Metadata} (h : Odd l.version) (log : List Publication) :
      Evolves l log l.bump (⟨l.bump, true⟩ :: log)
  | unchanged {l : Metadata} (h : Even l.version) (log : List Publication) :
      Evolves l log l (⟨l, false⟩ :: log)

/-- The log of a slot: no record is newer than the metadata, and outside a
publication the newest record is the metadata. -/
structure Logged (l : Metadata) (log : List Publication) : Prop where
  bounded : ∀ p ∈ log, p.record.version ≤ l.version
  latest : Even l.version → ∃ p rest, log = p :: rest ∧ p.record = l

/-- `old` is the log of an instant when the version was `version`; what was
stored since has a higher version. -/
structure Since (version : ℕ) (old : List Publication) (l : Metadata) (log : List Publication) :
    Prop where
  le : version ≤ l.version
  suffix : ∃ new, log = new ++ old ∧ ∀ p ∈ new, p.stored = true → version < p.record.version

/-- A snapshot that returned true: one of the records published by then, and
the present metadata as long as the version has not moved. -/
structure Snapshot.Tracks (m : Snapshot) (l : Metadata) (log : List Publication) : Prop where
  even : Even m.record.version
  since : Since m.record.version m.log l log
  current : l.version = m.record.version → l = m.record
  published : ∃ p ∈ m.log, p.record = m.record

variable {l l' : Metadata} {log log' : List Publication}

theorem Evolves.version_le (h : Evolves l log l' log') : l.version ≤ l'.version := by
  cases h with
  | same | store | unchanged => exact le_rfl
  | enter | leave => exact Nat.le_succ _

theorem Evolves.logged (h : Evolves l log l' log') (hl : Logged l log) : Logged l' log' := by
  cases h with
  | same => exact hl
  | enter heven =>
      refine ⟨fun p hp => (hl.bounded p hp).trans (Nat.le_succ _), fun hbump => ?_⟩
      exact absurd heven (Nat.even_add_one.mp hbump)
  | store hodd => exact ⟨hl.bounded, fun heven => absurd hodd (Nat.not_odd_iff_even.mpr heven)⟩
  | leave hodd =>
      refine ⟨fun p hp => ?_, fun _ => ⟨_, _, rfl, rfl⟩⟩
      rcases List.mem_cons.mp hp with rfl | hp
      · exact le_rfl
      · exact (hl.bounded p hp).trans (Nat.le_succ _)
  | unchanged heven =>
      refine ⟨fun p hp => ?_, fun _ => ⟨_, _, rfl, rfl⟩⟩
      rcases List.mem_cons.mp hp with rfl | hp
      · exact le_rfl
      · exact hl.bounded p hp

theorem Evolves.since (h : Evolves l log l' log') {version : ℕ} {old : List Publication}
    (hs : Since version old l log) : Since version old l' log' := by
  obtain ⟨hle, new, hlog, hnew⟩ := hs
  refine ⟨hle.trans h.version_le, ?_⟩
  cases h with
  | same | enter | store => exact ⟨new, hlog, hnew⟩
  | leave =>
      refine ⟨⟨l.bump, true⟩ :: new, by rw [hlog, List.cons_append], fun p hp hstored => ?_⟩
      rcases List.mem_cons.mp hp with rfl | hp
      · exact Nat.lt_succ_of_le hle
      · exact hnew p hp hstored
  | unchanged =>
      refine ⟨⟨l, false⟩ :: new, by rw [hlog, List.cons_append], fun p hp hstored => ?_⟩
      rcases List.mem_cons.mp hp with rfl | hp
      · cases hstored
      · exact hnew p hp hstored

theorem Evolves.reader (h : Evolves l log l' log') {r : SeqLock.Reader Field ℕ}
    (hr : r.Tracks l) : r.Tracks l' := by
  cases h with
  | same | unchanged => exact hr
  | enter | leave => exact hr.bump
  | store hodd => exact hr.store hodd _ _

variable {m : Snapshot}

theorem Evolves.snapshot (h : Evolves l log l' log') (hm : m.Tracks l log) :
    m.Tracks l' log' := by
  refine ⟨hm.even, h.since hm.since, fun hversion => ?_, hm.published⟩
  have hle := hm.since.le
  cases h with
  | same | unchanged => exact hm.current hversion
  | enter | leave =>
      rw [SeqLock.bump_version] at hversion
      omega
  | store hodd =>
      rw [SeqLock.store_version] at hversion
      exact absurd (hversion ▸ hm.even) (Nat.not_even_iff_odd.mpr hodd)

/-- An accepted read is a snapshot of the present metadata. -/
theorem Snapshot.Tracks.of_accepts (hl : Logged l log) {r : SeqLock.Reader Field ℕ}
    (hr : r.Tracks l) (ha : r.Accepts l) :
    (⟨⟨r.version, r.values⟩, log⟩ : Snapshot).Tracks l log := by
  obtain ⟨hversion, hcells, heven⟩ := hr.cells_eq ha
  have hrecord : (⟨r.version, r.values⟩ : Metadata) = l := by rw [← hversion, ← hcells]
  obtain ⟨p, rest, hlog, hp⟩ := hl.latest heven
  refine ⟨hr.even, ⟨hr.le, [], rfl, fun p hp => absurd hp List.not_mem_nil⟩, fun _ => hrecord.symm,
    ⟨p, ?_, hp.trans hrecord.symm⟩⟩
  rw [hlog]
  exact List.mem_cons_self

/-! ## What the worker knows -/

/-- `Moment` facts of a retirement of `c` under the snapshot `m`. -/
structure Moment.Ok (c : Candidate) (m : Snapshot) (config : Config) (mo : Moment) : Prop where
  control : mo.control = .single .live
  others : ∀ a ∈ mo.others, a.slot ≠ some c.handle.slot
  record : mo.record.handle = c.handle
  logged : Logged mo.metadata mo.log
  candidate : Since c.version c.log mo.metadata mo.log
  snapshot : m.Tracks mo.metadata mo.log
  version : m.record.version = c.version
  checked : ¬ ProtectedNow config mo.checkedEnd mo.record m.record

namespace State

variable (s : State)

/-- A candidate remembers its slot as it was scored. -/
def CandidateOk (c : Candidate) : Prop :=
  Since c.version c.log (s.metadata c.handle.slot) (s.log c.handle.slot)

/-- What the worker looks at a slot with. -/
def PurposeOk : Purpose → Prop
  | .score _ => s.held = 0
  | .scan h => s.held = {.lease h}
  | .retire c => s.CandidateOk c ∧ s.held = {.lease c.handle}

/-- The worker retired `c` and still holds its lease. -/
structure RetiredOk (c : Candidate) (m : Snapshot) (mo : Moment) : Prop where
  moment : mo.Ok c m s.config
  held : s.held = {.lease c.handle}
  record : s.record c.handle.slot = mo.record
  version : mo.metadata.version ≤ (s.metadata c.handle.slot).version

/-- The second snapshot agrees with the first. -/
structure AfterOk (c : Candidate) (m : Snapshot) (mo : Moment) (after : Snapshot) : Prop where
  tracks : after.Tracks (s.metadata c.handle.slot) (s.log c.handle.slot)
  version : after.record.version = m.record.version
  later : mo.metadata.version ≤ after.record.version

/-- What the worker knows at each point of `tick`. -/
def PcOk : WorkerPc → Prop
  | .idle | .consuming | .scanning | .looking _ | .lookedRetired _ | .pinningSlot _ | .picking
  | .release _ _ | .reclaiming _ => s.held = 0
  | .pinning c => s.CandidateOk c ∧ s.held = 0
  | .opening p => s.PurposeOk p
  | .reading p r => s.PurposeOk p ∧ r.Tracks (s.metadata p.slot)
  | .seen p m => s.PurposeOk p ∧ m.Tracks (s.metadata p.slot) (s.log p.slot)
  | .deciding h m => s.held = {.lease h} ∧ m.Tracks (s.metadata h.slot) (s.log h.slot)
  | .retiring c m checkedEnd =>
      s.PurposeOk (.retire c) ∧ m.Tracks (s.metadata c.handle.slot) (s.log c.handle.slot) ∧
        m.record.version = c.version ∧
        ¬ ProtectedNow s.config checkedEnd (s.record c.handle.slot) m.record
  | .retired c m mo => s.RetiredOk c m mo
  | .rereading c m mo r =>
      s.RetiredOk c m mo ∧ r.Tracks (s.metadata c.handle.slot) ∧ mo.metadata.version ≤ r.version
  | .reseen c m mo after =>
      s.RetiredOk c m mo ∧ after.Tracks (s.metadata c.handle.slot) (s.log c.handle.slot) ∧
        mo.metadata.version ≤ after.record.version
  | .unchanged c m mo after | .recheck c m mo after =>
      s.RetiredOk c m mo ∧ s.AfterOk c m mo after
  | .left c m mo after endAfter =>
      s.RetiredOk c m mo ∧ s.AfterOk c m mo after ∧
        ¬ ProtectedNow s.config endAfter mo.record after.record
  | .rescue h | .dropping _ h => s.held = {.lease h}
  | .rescuing _ => True

end State

/-- The invariant. -/
structure Inv (s : State) : Prop where
  repo : Repository.Inv s.whole
  publishing : s.publisher = .idle → s.publishing = 0
  version : ∀ i, Odd (s.metadata i).version ↔
    ∃ h stores, s.publisher = .writing h stores ∧ h.slot = i
  logged : ∀ i, Logged (s.metadata i) (s.log i)
  candidates : ∀ c ∈ s.candidates, s.CandidateOk c
  pc : s.PcOk s.worker

/-! ## Steps the worker does not take -/

/-- What a step of the other parties is to the worker. -/
structure Around (s t : State) : Prop where
  config : t.config = s.config
  held : t.held = s.held
  candidates : t.candidates = s.candidates
  evolves : ∀ i, Evolves (s.metadata i) (s.log i) (t.metadata i) (t.log i)
  record : ∀ h, s.held = {.lease h} → t.record h.slot = s.record h.slot

namespace Around

variable {s t : State}

theorem candidateOk (h : Around s t) {c : Candidate} (hc : s.CandidateOk c) : t.CandidateOk c :=
  (h.evolves c.handle.slot).since hc

theorem purposeOk (h : Around s t) {p : Purpose} (hp : s.PurposeOk p) : t.PurposeOk p := by
  cases p with
  | score | scan => exact h.held.trans hp
  | retire c => exact ⟨h.candidateOk hp.1, h.held.trans hp.2⟩

theorem retiredOk (h : Around s t) {c : Candidate} {mo : Moment}
    (hr : s.RetiredOk c m mo) : t.RetiredOk c m mo where
  moment := h.config ▸ hr.moment
  held := h.held.trans hr.held
  record := (h.record _ hr.held).trans hr.record
  version := hr.version.trans (h.evolves _).version_le

theorem afterOk (h : Around s t) {c : Candidate} {mo : Moment} {after : Snapshot}
    (ha : s.AfterOk c m mo after) : t.AfterOk c m mo after :=
  { ha with tracks := (h.evolves _).snapshot ha.tracks }

variable {pc : WorkerPc}

theorem pcOk (h : Around s t) (hpc : s.PcOk pc) : t.PcOk pc := by
  cases pc with
  | idle | consuming | scanning | looking | lookedRetired | pinningSlot | picking | release
  | reclaiming | rescue | dropping => exact h.held.trans hpc
  | rescuing => trivial
  | pinning c => exact ⟨h.candidateOk hpc.1, h.held.trans hpc.2⟩
  | opening p => exact h.purposeOk hpc
  | reading p r => exact ⟨h.purposeOk hpc.1, (h.evolves _).reader hpc.2⟩
  | seen p m => exact ⟨h.purposeOk hpc.1, (h.evolves _).snapshot hpc.2⟩
  | deciding g m => exact ⟨h.held.trans hpc.1, (h.evolves _).snapshot hpc.2⟩
  | retiring c m e =>
      obtain ⟨hp, hm, hv, hprot⟩ := hpc
      refine ⟨h.purposeOk hp, (h.evolves _).snapshot hm, hv, ?_⟩
      rw [h.config, h.record _ hp.2]
      exact hprot
  | retired c m mo => exact h.retiredOk hpc
  | rereading c m mo r => exact ⟨h.retiredOk hpc.1, (h.evolves _).reader hpc.2.1, hpc.2.2⟩
  | reseen c m mo after =>
      exact ⟨h.retiredOk hpc.1, (h.evolves _).snapshot hpc.2.1, hpc.2.2⟩
  | unchanged c m mo after | recheck c m mo after => exact ⟨h.retiredOk hpc.1, h.afterOk hpc.2⟩
  | left c m mo after e =>
      refine ⟨h.retiredOk hpc.1, h.afterOk hpc.2.1, ?_⟩
      rw [h.config]
      exact hpc.2.2

/-- A step of the other parties keeps the invariant. -/
theorem inv (h : Around s t) (hs : Inv s) (hworker : t.worker = s.worker)
    (hrepo : Repository.Inv t.whole)
    (hpublishing : t.publisher = .idle → t.publishing = 0)
    (hversion : ∀ i, Odd (t.metadata i).version ↔
      ∃ g stores, t.publisher = .writing g stores ∧ g.slot = i) : Inv t where
  repo := hrepo
  publishing := hpublishing
  version := hversion
  logged i := (h.evolves i).logged (hs.logged i)
  candidates c hc := h.candidateOk (hs.candidates c (h.candidates ▸ hc))
  pc := by
    rw [hworker]
    exact h.pcOk hs.pc

end Around

section Steps

variable {s t : State}

theorem whole_held (s : State) :
    s.whole = s.repo.withActors (s.held + (s.repo.actors + s.publishing)) := by
  unfold State.whole
  congr 1
  rw [← add_assoc, add_comm s.held]

theorem whole_publishing (s : State) :
    s.whole = s.repo.withActors (s.publishing + (s.repo.actors + s.held)) := by
  unfold State.whole
  congr 1
  rw [add_left_comm]

variable {a : Repository.Action}

theorem repoStep_eq_some (h : s.repoStep a = some t) :
    ∃ r, t = { s with repo := r } ∧ s.whole.step a = some t.whole := by
  unfold State.repoStep at h
  rw [Option.map_eq_some_iff] at h
  obtain ⟨r, hr, rfl⟩ := h
  exact ⟨r, rfl, Repository.State.step_frame hr _⟩

theorem heldStep_eq_some (h : s.heldStep a pc = some t) :
    ∃ r A, s.repo.stepAs s.held a = some (r, A) ∧
      t = { s with repo := r, held := A, worker := pc } ∧ s.whole.step a = some t.whole := by
  unfold State.heldStep at h
  rw [Option.map_eq_some_iff] at h
  obtain ⟨⟨r, A⟩, hr, rfl⟩ := h
  refine ⟨r, A, hr, rfl, ?_⟩
  have hframe := Repository.State.stepAs_frame hr (s.repo.actors + s.publishing)
  rw [whole_held, hframe, whole_held, Repository.State.stepAs_actors hr]

/-- The record under the worker's lease stays. -/
theorem record_of_whole (hs : Repository.Inv s.whole)
    (h : s.whole.step a = some t.whole) {g : KvMemBlockHandle} (hheld : s.held = {.lease g}) :
    t.record g.slot = s.record g.slot := by
  refine hs.record_of_step h (b := .lease g) ?_ rfl
  rw [whole_held, hheld]
  exact Multiset.mem_add.mpr (.inl (Multiset.mem_singleton_self _))

theorem inv_repo (hs : Inv s) (ht : s.repoStep a = some t) : Inv t := by
  obtain ⟨r, rfl, hstep⟩ := repoStep_eq_some ht
  have haround : Around s { s with repo := r } :=
    ⟨rfl, rfl, rfl, fun i => .same _ _, fun g hg => record_of_whole hs.repo hstep hg⟩
  exact haround.inv hs rfl (Repository.inv_step hs.repo hstep) hs.publishing hs.version

/-- Two leases of a caller become the publisher's. -/
theorem whole_taken (hs : Inv s) (hidle : s.publisher = .idle) {A : Multiset Actor}
    (hle : A ≤ s.repo.actors) :
    (s.repo.withActors (s.repo.actors - A)).withActors ((s.repo.actors - A) + (A + s.held)) =
      s.whole := by
  unfold State.whole
  rw [hs.publishing hidle, ← add_assoc, Multiset.sub_add_cancel hle, zero_add]
  rfl

/-- One slot's metadata moves, and every other stays. -/
theorem evolves_update {j : ℕ} {l : Metadata} {log : List Publication}
    (h : Evolves (s.metadata j) (s.log j) l log) (i : ℕ) :
    Evolves (s.metadata i) (s.log i) (Function.update s.metadata j l i)
      (Function.update s.log j log i) := by
  by_cases hi : i = j
  · subst hi
    simpa using h
  · simpa [hi] using .same _ _

theorem inv_publish (hs : Inv s) {h : KvMemBlockHandle} {flags : ℕ} {used : Bool}
    (ht : s.publish h flags used = some t) : Inv t := by
  unfold State.publish at ht
  simp only [Option.ite_none_right_eq_some] at ht
  obtain ⟨⟨hidle, hcount⟩, ht⟩ := ht
  have hle : ({.lease h, .lease h} : Multiset Actor) ≤ s.repo.actors := by
    have hreplicate : ({.lease h, .lease h} : Multiset Actor) = Multiset.replicate 2 (.lease h) :=
      rfl
    rw [hreplicate]
    exact Multiset.le_count_iff_replicate_le.mp hcount
  have heven : ∀ i, Even (s.metadata i).version := by
    intro i
    rw [← Nat.not_odd_iff_even, hs.version, hidle]
    simp
  have hwhole := whole_taken hs hidle hle
  split_ifs at ht with hsame
  · obtain rfl := Option.some.inj ht
    refine Around.inv (s := s) ⟨rfl, rfl, rfl, fun i => ?_, fun g hg => rfl⟩ hs rfl ?_ (by simp) ?_
    · simpa using evolves_update (.unchanged (heven h.slot) _) i
    · show Repository.Inv ((s.repo.withActors _).withActors _)
      rw [Repository.State.withActors_actors, hwhole]
      exact hs.repo
    · simpa [hidle] using hs.version
  · obtain rfl := Option.some.inj ht
    refine Around.inv (s := s) ⟨rfl, rfl, rfl, fun i => .same _ _, fun g hg => rfl⟩ hs rfl ?_ (by simp) ?_
    · show Repository.Inv ((s.repo.withActors _).withActors _)
      rw [Repository.State.withActors_actors, hwhole]
      exact hs.repo
    · simpa [hidle] using hs.version

theorem inv_publishNext (hs : Inv s) (ht : s.publishNext = some t) : Inv t := by
  unfold State.publishNext at ht
  cases hp : s.publisher with
  | idle => simp [hp] at ht
  | entering h stores =>
      have heven : ∀ i, Even (s.metadata i).version := by
        intro i
        rw [← Nat.not_odd_iff_even, hs.version, hp]
        simp
      simp only [hp, Option.some.injEq] at ht
      subst ht
      refine Around.inv (s := s) ⟨rfl, rfl, rfl, fun i => ?_, fun g hg => rfl⟩ hs rfl hs.repo (by simp)
        fun i => ?_
      · simpa using evolves_update (.enter (heven h.slot) _) i
      · by_cases hi : i = h.slot
        · subst hi
          simpa using (heven h.slot).add_one
        · have hne : ¬ h.slot = i := fun heq => hi heq.symm
          simpa [hi, hne] using heven i
  | writing h todo =>
      have hodd : Odd (s.metadata h.slot).version := (hs.version _).mpr ⟨h, todo, hp, rfl⟩
      have heven : ∀ i, i ≠ h.slot → Even (s.metadata i).version := by
        intro i hi
        rw [← Nat.not_odd_iff_even, hs.version, hp]
        simp only [PublisherPc.writing.injEq]
        rintro ⟨g, stores, ⟨rfl, -⟩, hg⟩
        exact hi hg.symm
      cases todo with
      | nil =>
          simp only [hp, Option.some.injEq] at ht
          subst ht
          refine Around.inv (s := s) ⟨rfl, rfl, rfl, fun i => ?_, fun g hg => rfl⟩ hs rfl hs.repo
            (by simp) fun i => ?_
          · exact evolves_update (.leave hodd _) i
          · by_cases hi : i = h.slot
            · subst hi
              simpa using hodd.add_one
            · simpa [hi] using heven i hi
      | cons store stores =>
          obtain ⟨k, x⟩ := store
          simp only [hp, Option.some.injEq] at ht
          subst ht
          refine Around.inv (s := s) ⟨rfl, rfl, rfl, fun i => ?_, fun g hg => rfl⟩ hs rfl hs.repo
            (by simp) fun i => ?_
          · simpa using evolves_update (.store hodd _ k x) i
          · by_cases hi : i = h.slot
            · subst hi
              simpa using hodd
            · have hne : ¬ h.slot = i := fun heq => hi heq.symm
              simpa [hi, hne] using heven i hi
  | leaving h =>
      simp only [hp] at ht
      rw [Option.map_eq_some_iff] at ht
      obtain ⟨⟨r, A⟩, hr, rfl⟩ := ht
      have hframe := Repository.State.stepAs_frame hr (s.repo.actors + s.held)
      rw [← whole_publishing] at hframe
      have hwhole : r.withActors (A + (s.repo.actors + s.held)) =
          (r.withActors (r.actors + A)).withActors ((r.actors + A) + (0 + s.held)) := by
        rw [Repository.State.withActors_withActors, Repository.State.stepAs_actors hr, zero_add,
          ← add_assoc, add_comm A]
      rw [hwhole] at hframe
      refine Around.inv (s := s) ⟨rfl, rfl, rfl, fun i => .same _ _, fun g hg => ?_⟩ hs rfl
        (Repository.inv_step hs.repo hframe) (by simp) ?_
      · exact record_of_whole (t := { s with repo := r.withActors (r.actors + A), publishing := 0 })
          hs.repo hframe hg
      · simpa [hp] using hs.version

/-! ## Steps of the worker -/

theorem skip_pcOk {p : Purpose} (hp : s.PurposeOk p) : s.PcOk p.skip := by
  cases p with
  | score | scan => exact hp
  | retire c => exact hp.2

theorem back_pcOk {scan : Bool} (h : s.held = 0) : s.PcOk (.back scan) := by
  cases scan <;> exact h

/-- A reclaimer's call leaves the caller with what it held. -/
theorem stepAs_reclaim {r : Repository.State} {own : Multiset Actor} {p : _ × Multiset Actor}
    (ha : isReclaim a = true) (h : r.stepAs own a = some p) :
    p.2 = own := by
  unfold Repository.State.stepAs at h
  rw [Option.map_eq_some_iff] at h
  obtain ⟨u, hu, rfl⟩ := h
  cases a with
  | tryReclaim g =>
      simp only [Repository.State.step, Option.ite_none_right_eq_some, Option.some.injEq] at hu
      rw [← hu.2]
      rfl
  | reclaim outcome => exact Repository.State.reclaim_actors hu
  | _ => cases ha

/-- A lease destroyed leaves the caller with nothing. -/
theorem stepAs_reset {r : Repository.State} {h : KvMemBlockHandle} {p : _ × Multiset Actor}
    (hp : r.stepAs {.lease h} (.reset h) = some p) : p.2 = 0 := by
  unfold Repository.State.stepAs at hp
  rw [Option.map_eq_some_iff] at hp
  obtain ⟨u, hu, rfl⟩ := hp
  obtain ⟨-, rfl⟩ := Repository.State.replaceActor_eq_some.mp hu
  simp [Repository.State.setControl]

/-- A step of the worker that stores no metadata. -/
theorem inv_worker (hs : Inv s) (hmetadata : t.metadata = s.metadata) (hlog : t.log = s.log)
    (hpublisher : t.publisher = s.publisher) (hpublishing : t.publishing = s.publishing)
    (hrepo : Repository.Inv t.whole) (hcandidates : ∀ c ∈ t.candidates, s.CandidateOk c)
    (hpc : t.PcOk t.worker) : Inv t where
  repo := hrepo
  publishing := by
    rw [hpublisher, hpublishing]
    exact hs.publishing
  version := by
    rw [hmetadata, hpublisher]
    exact hs.version
  logged := by
    rw [hmetadata, hlog]
    exact hs.logged
  candidates c hc := by
    rw [State.CandidateOk, hmetadata, hlog]
    exact hcandidates c hc
  pc := hpc

theorem goto_pcOk {pc pc' : WorkerPc} (h : s.PcOk pc) : (s.goto pc').PcOk pc := by
  have haround : Around s (s.goto pc') := ⟨rfl, rfl, rfl, fun i => .same _ _, fun _ _ => rfl⟩
  exact haround.pcOk h

theorem inv_goto (hs : Inv s) (hpc : s.PcOk pc) : Inv (s.goto pc) :=
  inv_worker hs rfl rfl rfl rfl hs.repo hs.candidates (goto_pcOk hpc)

/-- A call of the worker on what it holds. -/
theorem inv_heldStep (hs : Inv s)
    (ht : s.heldStep a pc = some t) (hpc : t.PcOk pc) : Inv t := by
  obtain ⟨r, A, -, rfl, hstep⟩ := heldStep_eq_some ht
  exact inv_worker hs rfl rfl rfl rfl (Repository.inv_step hs.repo hstep) hs.candidates hpc

theorem held_reset {h : KvMemBlockHandle} (hheld : s.held = {.lease h})
    (ht : s.heldStep (.reset h) pc = some t) : t.held = 0 := by
  obtain ⟨r, A, hr, rfl, -⟩ := heldStep_eq_some ht
  rw [hheld] at hr
  exact stepAs_reset hr

theorem held_reclaim (ha : isReclaim a = true)
    (hheld : s.held = 0) (ht : s.heldStep a pc = some t) : t.held = 0 := by
  obtain ⟨r, A, hr, rfl, -⟩ := heldStep_eq_some ht
  exact (stepAs_reclaim ha hr).trans hheld

/-- A snapshot opens on an even version. -/
theorem openRead_pcOk {i : ℕ} {reading : SeqLock.Reader Field ℕ → WorkerPc} {failed : WorkerPc}
    (hreading : ∀ r : SeqLock.Reader Field ℕ, r.Tracks (s.metadata i) →
      r.version = (s.metadata i).version → s.PcOk (reading r))
    (hfailed : s.PcOk failed) : s.PcOk (s.openRead i reading failed) := by
  unfold State.openRead
  split_ifs with hodd
  · exact hfailed
  · have heven : Even (s.metadata i).version := Nat.even_iff.mpr (by omega)
    exact hreading _ (.start heven _ Field.mem_all) rfl

/-- A snapshot loads its next cell, is accepted, or fails. -/
theorem read_pcOk (hs : Inv s) {r : SeqLock.Reader Field ℕ} {i : ℕ}
    {reading : SeqLock.Reader Field ℕ → WorkerPc} {accepted : Snapshot → WorkerPc}
    {failed : WorkerPc} (hr : r.Tracks (s.metadata i))
    (hreading : ∀ r' : SeqLock.Reader Field ℕ, r'.Tracks (s.metadata i) →
      r'.version = r.version → s.PcOk (reading r'))
    (haccepted : ∀ m : Snapshot, m.Tracks (s.metadata i) (s.log i) →
      m.record.version = r.version → s.PcOk (accepted m))
    (hfailed : s.PcOk failed) : s.PcOk (s.read r i reading accepted failed) := by
  unfold State.read
  cases htodo : r.todo with
  | cons k rest => exact hreading _ (hr.load htodo) rfl
  | nil =>
      show s.PcOk (if _ then _ else _)
      split_ifs with hversion
      · exact haccepted _ (.of_accepts (hs.logged i) hr ⟨htodo, hversion⟩) rfl
      · exact hfailed

theorem checkSeen_pcOk {p : Purpose} (hp : s.PurposeOk p)
    (hm : m.Tracks (s.metadata p.slot) (s.log p.slot)) : s.PcOk (s.checkSeen p m) := by
  cases p with
  | score i => exact skip_pcOk hp
  | scan h =>
      simp only [State.checkSeen]
      split_ifs
      · exact skip_pcOk hp
      · exact ⟨hp, hm⟩
  | retire c =>
      simp only [State.checkSeen]
      split_ifs with hcheck hshadow
      · exact skip_pcOk hp
      · exact skip_pcOk hp
      · rw [not_or, not_not] at hcheck
        exact ⟨hp, hm, hcheck.1, hcheck.2⟩

/-- The retiring exchange succeeds: what holds at that moment. -/
theorem inv_retire (hs : Inv s) {c : Candidate} {checkedEnd : ℕ}
    (hpc : s.PcOk (.retiring c m checkedEnd))
    (hlive : (s.repo.slots c.handle.slot).control = .single .live)
    (ht : s.heldStep (.retireIfOnlyReader c.handle) (.retired c m (s.moment c checkedEnd)) = some t) :
    Inv t := by
  obtain ⟨⟨hcandidate, hheld⟩, hm, hversion, hchecked⟩ := hpc
  obtain ⟨r, A, hr, rfl, hstep⟩ := heldStep_eq_some ht
  have hactors : s.whole.actors = .lease c.handle ::ₘ (s.repo.actors + s.publishing) := by
    rw [whole_held, hheld]
    rfl
  have hmem : (.lease c.handle : Actor) ∈ s.whole.actors := by
    rw [hactors]
    exact Multiset.mem_cons_self _ _
  have hA : A = {.lease c.handle} := by
    rw [hheld] at hr
    unfold Repository.State.stepAs at hr
    rw [Option.map_eq_some_iff] at hr
    obtain ⟨u, hu, hr⟩ := hr
    have hstore : ((s.repo.withActors {.lease c.handle}).setControl c.handle.slot
        (.single .retired)).replaceActor (.lease c.handle) [.lease c.handle] = some u :=
      (if_pos hlive).symm.trans hu
    obtain ⟨-, rfl⟩ := Repository.State.replaceActor_eq_some.mp hstore
    have hactors := (Prod.mk.inj hr).2
    rw [← hactors]
    simp [Repository.State.setControl]
  have hmoment : (s.moment c checkedEnd).Ok c m s.config :=
    { control := hlive
      others := hs.repo.alone hactors rfl (congrArg Control.refs hlive)
      record := hs.repo.handle _ hmem _ rfl
      logged := hs.logged _
      candidate := hcandidate
      snapshot := hm
      version := hversion
      checked := hchecked }
  exact inv_heldStep hs ht
    { moment := hmoment, held := hA, record := record_of_whole hs.repo hstep hheld,
      version := le_rfl }

theorem inv_tick (hs : Inv s) (ht : s.tick = some t) : Inv t := by
  have hpc := hs.pc
  unfold State.tick at ht
  cases hw : s.worker with
  | idle =>
      rw [hw] at hpc
      simp only [hw, Option.some.injEq] at ht
      subst ht
      refine inv_worker hs rfl rfl rfl rfl hs.repo (by simp) ?_
      show State.PcOk _ (if _ then _ else _)
      split_ifs <;> exact hpc
  | looking i =>
      rw [hw] at hpc
      simp only [hw, Option.some.injEq] at ht
      subst ht
      refine inv_goto hs ?_
      split_ifs <;> exact hpc
  | lookedRetired i =>
      rw [hw] at hpc
      simp only [hw, Option.some.injEq] at ht
      subst ht
      exact inv_goto hs hpc
  | opening p =>
      rw [hw] at hpc
      simp only [hw, Option.some.injEq] at ht
      subst ht
      exact inv_goto hs (openRead_pcOk (fun r hr _ => ⟨hpc, hr⟩) (skip_pcOk hpc))
  | reading p r =>
      rw [hw] at hpc
      simp only [hw, Option.some.injEq] at ht
      subst ht
      exact inv_goto hs (read_pcOk hs hpc.2 (fun r' hr' _ => ⟨hpc.1, hr'⟩)
        (fun m hm _ => ⟨hpc.1, hm⟩) (skip_pcOk hpc.1))
  | seen p m =>
      rw [hw] at hpc
      simp only [hw, Option.some.injEq] at ht
      subst ht
      exact inv_goto hs (checkSeen_pcOk hpc.1 hpc.2)
  | retiring c m checkedEnd =>
      rw [hw] at hpc
      simp only [hw] at ht
      split_ifs at ht with hlive
      · exact inv_retire hs hpc hlive ht
      · obtain rfl := Option.some.inj ht
        exact inv_goto hs hpc.1.2
  | retired c m mo =>
      rw [hw] at hpc
      simp only [hw, Option.some.injEq] at ht
      subst ht
      exact inv_goto hs (openRead_pcOk
        (fun r hr hversion => ⟨hpc, hr, hversion ▸ hpc.version⟩) hpc.held)
  | rereading c m mo r =>
      rw [hw] at hpc
      obtain ⟨hretired, hr, hlater⟩ := hpc
      simp only [hw, Option.some.injEq] at ht
      subst ht
      exact inv_goto hs (read_pcOk hs hr
        (fun r' hr' hversion => ⟨hretired, hr', hversion ▸ hlater⟩)
        (fun after hafter hversion => ⟨hretired, hafter, hversion ▸ hlater⟩) hretired.held)
  | reseen c m mo after =>
      rw [hw] at hpc
      obtain ⟨hretired, hafter, hlater⟩ := hpc
      simp only [hw, Option.some.injEq] at ht
      subst ht
      refine inv_goto hs ?_
      split_ifs with hchanged
      · exact hretired.held
      · exact ⟨hretired, hafter, not_not.mp hchanged, hlater⟩
  | unchanged c m mo after =>
      rw [hw] at hpc
      simp only [hw, Option.some.injEq] at ht
      subst ht
      refine inv_goto hs ?_
      split_ifs
      · exact hpc.1.held
      · exact hpc
  | recheck c m mo after =>
      rw [hw] at hpc
      simp only [hw, Option.some.injEq] at ht
      subst ht
      refine inv_goto hs ?_
      split_ifs with hprotected
      · exact hpc.1.held
      · rw [hpc.1.record] at hprotected
        exact ⟨hpc.1, hpc.2, hprotected⟩
  | left c m mo after endAfter =>
      rw [hw] at hpc
      simp only [hw] at ht
      exact inv_heldStep hs ht (held_reset hpc.1.held ht)
  | rescue h =>
      simp only [hw] at ht
      exact inv_heldStep hs ht trivial
  | rescuing h =>
      simp only [hw, Option.ite_none_right_eq_some, Option.some.injEq] at ht
      obtain ⟨hheld, rfl⟩ := ht
      exact inv_goto hs hheld
  | dropping scan h =>
      rw [hw] at hpc
      simp only [hw] at ht
      exact inv_heldStep hs ht (back_pcOk (held_reset hpc ht))
  | release scan h =>
      rw [hw] at hpc
      simp only [hw] at ht
      exact inv_heldStep hs ht (held_reclaim rfl hpc ht)
  | reclaiming scan =>
      rw [hw] at hpc
      simp only [hw, Option.ite_none_right_eq_some, Option.some.injEq] at ht
      obtain ⟨-, rfl⟩ := ht
      exact inv_goto hs (back_pcOk hpc)
  | consuming | scanning | pinningSlot _ | picking | pinning _ | deciding _ _ => simp [hw] at ht

/-- A finished pin hands its lease to the worker. -/
theorem inv_takes (hs : Inv s) {h : KvMemBlockHandle} (ht : s.next (.takes h) = some t) :
    Inv t := by
  have hpc := hs.pc
  simp only [State.next, Option.ite_none_right_eq_some] at ht
  obtain ⟨hmem, ht⟩ := ht
  have hwhole : s.held = 0 → (s.repo.withActors (s.repo.actors.erase (.lease h))).withActors
      (s.repo.actors.erase (.lease h) + (s.publishing + {.lease h})) = s.whole := by
    intro hheld
    unfold State.whole
    rw [hheld, add_zero, add_comm s.publishing, ← add_assoc, add_comm _ {_},
      Multiset.singleton_add, Multiset.cons_erase hmem]
    rfl
  have hrepo : s.held = 0 → Repository.Inv ((s.repo.withActors
      (s.repo.actors.erase (.lease h))).withActors
        (s.repo.actors.erase (.lease h) + (s.publishing + {.lease h}))) := fun hheld => by
    rw [hwhole hheld]
    exact hs.repo
  split at ht
  · next i hw =>
    rw [hw] at hpc
    simp only [Option.ite_none_right_eq_some, Option.some.injEq] at ht
    obtain ⟨-, rfl⟩ := ht
    exact inv_worker hs rfl rfl rfl rfl (hrepo hpc) hs.candidates rfl
  · next c hw =>
    rw [hw] at hpc
    simp only [Option.ite_none_right_eq_some, Option.some.injEq] at ht
    obtain ⟨hc, rfl⟩ := ht
    exact inv_worker hs rfl rfl rfl rfl (hrepo hpc.2) hs.candidates ⟨hpc.1, hc ▸ rfl⟩
  · cases ht

theorem inv_step {a : Action} (hs : Inv s) (ht : s.next a = some t) : Inv t := by
  have hpc := hs.pc
  cases a with
  | repo a =>
      simp only [State.next] at ht
      split_ifs at ht
      exact inv_repo hs ht
  | beginStep =>
      simp only [State.next, Option.ite_none_right_eq_some, Option.some.injEq] at ht
      obtain ⟨-, rfl⟩ := ht
      exact Around.inv (s := s) ⟨rfl, rfl, rfl, fun i => .same _ _, fun _ _ => rfl⟩ hs rfl hs.repo
        hs.publishing hs.version
  | setHistoryEnd e =>
      obtain rfl := Option.some.inj ht
      exact Around.inv (s := s) ⟨rfl, rfl, rfl, fun i => .same _ _, fun _ _ => rfl⟩ hs rfl hs.repo
        hs.publishing hs.version
  | submitScores n =>
      simp only [State.next, Option.ite_none_right_eq_some, Option.some.injEq] at ht
      obtain ⟨-, rfl⟩ := ht
      exact Around.inv (s := s) ⟨rfl, rfl, rfl, fun i => .same _ _, fun _ _ => rfl⟩ hs rfl hs.repo
        hs.publishing hs.version
  | submitted =>
      simp only [State.next, Option.ite_none_right_eq_some, Option.some.injEq] at ht
      obtain ⟨-, rfl⟩ := ht
      exact Around.inv (s := s) ⟨rfl, rfl, rfl, fun i => .same _ _, fun _ _ => rfl⟩ hs rfl hs.repo
        hs.publishing hs.version
  | publish h flags used => exact inv_publish hs ht
  | publishNext => exact inv_publishNext hs ht
  | tick => exact inv_tick hs ht
  | consume i =>
      simp only [State.next] at ht
      split at ht
      · next hw =>
        obtain rfl := Option.some.inj ht
        rw [hw] at hpc
        exact inv_goto hs hpc
      · cases ht
  | scan i =>
      simp only [State.next] at ht
      split at ht
      · next hw =>
        simp only [Option.ite_none_right_eq_some, Option.some.injEq] at ht
        obtain ⟨-, rfl⟩ := ht
        rw [hw] at hpc
        exact inv_goto hs hpc
      · cases ht
  | pick k =>
      simp only [State.next] at ht
      split at ht
      · next c hw hc =>
        obtain rfl := Option.some.inj ht
        rw [hw] at hpc
        exact inv_worker hs rfl rfl rfl rfl hs.repo
          (fun d hd => hs.candidates d (List.mem_of_mem_eraseIdx hd))
          ⟨hs.candidates c (List.mem_of_getElem? hc), hpc⟩
      · cases ht
  | leave =>
      simp only [State.next] at ht
      split at ht
      · next hw =>
        obtain rfl := Option.some.inj ht
        rw [hw] at hpc
        exact inv_goto hs hpc
      · next hw =>
        obtain rfl := Option.some.inj ht
        rw [hw] at hpc
        exact inv_goto hs hpc
      · next hw =>
        obtain rfl := Option.some.inj ht
        rw [hw] at hpc
        exact inv_goto hs hpc
      · next hw =>
        obtain rfl := Option.some.inj ht
        rw [hw] at hpc
        exact inv_goto hs (back_pcOk hpc)
      · cases ht
  | takes h => exact inv_takes hs ht
  | refused =>
      simp only [State.next] at ht
      split at ht
      · next hw =>
        obtain rfl := Option.some.inj ht
        rw [hw] at hpc
        exact inv_goto hs hpc
      · next hw =>
        obtain rfl := Option.some.inj ht
        rw [hw] at hpc
        exact inv_goto hs hpc.2
      · cases ht
  | decide candidate =>
      simp only [State.next] at ht
      split at ht
      · next h m hw =>
        obtain rfl := Option.some.inj ht
        rw [hw] at hpc
        refine inv_worker hs rfl rfl rfl rfl hs.repo (fun c hc => ?_) hpc.1
        by_cases hcandidate : candidate = true
        · rw [if_pos hcandidate] at hc
          rcases List.mem_cons.mp hc with rfl | hc
          · exact hpc.2.since
          · exact hs.candidates c hc
        · rw [if_neg hcandidate] at hc
          exact hs.candidates c hc
      · cases ht
  | call a =>
      simp only [State.next] at ht
      split at ht
      · simp only [Option.ite_none_right_eq_some] at ht
        exact inv_heldStep hs ht.2 trivial
      · next scan hw =>
        rw [hw] at hpc
        split at ht
        · exact inv_heldStep hs ht (held_reclaim rfl hpc ht)
        · cases ht
      · cases ht

end Steps

theorem initial_inv {c : Config} {r : Repository.Config} (hr : r.Valid) :
    Inv (State.initial c r) where
  repo := Repository.inv_initial hr
  publishing _ := rfl
  version i := by simp [State.initial, Metadata.zero]
  logged i := ⟨fun p hp => by rw [List.mem_singleton.mp hp]; exact le_rfl,
    fun _ => ⟨_, _, rfl, rfl⟩⟩
  candidates c hc := absurd hc List.not_mem_nil
  pc := rfl

theorem machine_invariant : machine.Invariant Inv where
  init := by
    rintro s ⟨c, r, hr, rfl⟩
    exact initial_inv hr
  step s a t hs ht := inv_step hs ht

/-! ## Policy retirement -/

/-- The most recent completed publication for a generation. -/
def lastPublication (generation : ℕ) (log : List Publication) : Option Publication :=
  log.find? fun p => p.record.cells .generation = generation

/-- The snapshots that returned true and are still the worker's latest of their
slot. -/
def WorkerPc.snapshots : WorkerPc → List (ℕ × Snapshot)
  | .seen p m => [(p.slot, m)]
  | .deciding h m => [(h.slot, m)]
  | .retiring c m _ => [(c.handle.slot, m)]
  | .reseen c _ _ after | .unchanged c _ _ after | .recheck c _ _ after | .left c _ _ after _ =>
      [(c.handle.slot, after)]
  | _ => []

/-- A snapshot is one publication's record, whole. -/
theorem Snapshot.Tracks.mem_log {l : Metadata} {log : List Publication}
    (hm : m.Tracks l log) : ∃ p ∈ log, p.record = m.record := by
  obtain ⟨p, hp, hrecord⟩ := hm.published
  obtain ⟨new, hlog, -⟩ := hm.since.suffix
  refine ⟨p, ?_, hrecord⟩
  rw [hlog]
  exact List.mem_append_right _ hp

theorem State.PcOk.snapshots {s : State} (hpc : s.PcOk pc) {i : ℕ}
    (hm : (i, m) ∈ pc.snapshots) : m.Tracks (s.metadata i) (s.log i) := by
  cases pc with
  | seen p m' =>
      obtain ⟨rfl, rfl⟩ := Prod.mk.inj (List.mem_singleton.mp hm)
      exact hpc.2
  | deciding h m' =>
      obtain ⟨rfl, rfl⟩ := Prod.mk.inj (List.mem_singleton.mp hm)
      exact hpc.2
  | retiring c m' e =>
      obtain ⟨rfl, rfl⟩ := Prod.mk.inj (List.mem_singleton.mp hm)
      exact hpc.2.1
  | reseen c m' mo after =>
      obtain ⟨rfl, rfl⟩ := Prod.mk.inj (List.mem_singleton.mp hm)
      exact hpc.2.1
  | unchanged c m' mo after | recheck c m' mo after =>
      obtain ⟨rfl, rfl⟩ := Prod.mk.inj (List.mem_singleton.mp hm)
      exact hpc.2.tracks
  | left c m' mo after e =>
      obtain ⟨rfl, rfl⟩ := Prod.mk.inj (List.mem_singleton.mp hm)
      exact hpc.2.1.tracks
  | _ => exact absurd hm List.not_mem_nil

/-- Both snapshots and the scored one agree, so the version did not move from
the scoring to the recheck, and at the exchange the metadata was what was
seen. -/
theorem State.AfterOk.moment_eq {s : State} {c : Candidate} {m after : Snapshot} {mo : Moment}
    (hr : s.RetiredOk c m mo) (ha : s.AfterOk c m mo after) :
    mo.metadata = m.record ∧ mo.metadata.version = c.version := by
  have hle := hr.moment.snapshot.since.le
  have heq : mo.metadata.version = m.record.version :=
    le_antisymm (ha.version ▸ ha.later) hle
  exact ⟨hr.moment.snapshot.current heq, heq.trans hr.moment.version⟩

/-- **Policy retirement.**  Whenever `tick` leaves a block retired: the
exchange found the block live and counted once, by the worker; the most recent
completed publication for its generation had all required flags and no pinning
one; what was completed since the block was scored had stored nothing; and the
block was outside the recent band when `tick` looked before the exchange and
when it looked after, so at the exchange too unless `history_end_` was moved
both between and back.  And every snapshot that returns true is the record of
one completed publication. -/
theorem policyRetirement {s : State} (h : machine.Reachable s) :
    (∀ c m mo after endAfter, s.worker = .left c m mo after endAfter →
      (mo.control = .single .live ∧ mo.record.handle = c.handle ∧
        ∀ a ∈ mo.others, a.slot ≠ some c.handle.slot) ∧
      (∃ p, lastPublication c.handle.generation mo.log = some p ∧
        Retirable (p.record.cells .flags)) ∧
      (∃ new, mo.log = new ++ c.log ∧ ∀ p ∈ new, p.stored = false) ∧
      ¬ InRecentBand s.config mo.checkedEnd mo.record ∧
      ¬ InRecentBand s.config endAfter mo.record ∧
      (mo.historyEnd = mo.checkedEnd ∨ mo.historyEnd = endAfter →
        ¬ InRecentBand s.config mo.historyEnd mo.record)) ∧
    ∀ i m, (i, m) ∈ s.worker.snapshots → ∃ p ∈ s.log i, p.record = m.record := by
  have hs := machine_invariant.reachable h
  refine ⟨fun c m mo after endAfter hw => ?_, fun i m hm => (hs.pc.snapshots hm).mem_log⟩
  have hpc := hs.pc
  rw [hw] at hpc
  obtain ⟨hretired, hafter, hprotected⟩ := hpc
  have hmoment := hretired.moment
  obtain ⟨hmetadata, hversion⟩ := hafter.moment_eq hretired
  have hchecked := hmoment.checked
  unfold ProtectedNow at hchecked hprotected
  push Not at hchecked hprotected
  obtain ⟨hgeneration, hretirable, hband⟩ := hchecked
  refine ⟨⟨hmoment.control, hmoment.record, hmoment.others⟩, ?_, ?_, hband, hprotected.2.2, ?_⟩
  · obtain ⟨p, rest, hlog, hp⟩ := hmoment.logged.latest (hmetadata ▸ hmoment.snapshot.even)
    have hrecord : p.record = m.record := hp.trans hmetadata
    refine ⟨p, ?_, hrecord ▸ hretirable⟩
    rw [lastPublication, hlog, List.find?_cons_of_pos]
    rw [hrecord, decide_eq_true_eq, hgeneration, hmoment.record]
  · obtain ⟨new, hlog, hnew⟩ := hmoment.candidate.suffix
    refine ⟨new, hlog, fun p hp => ?_⟩
    by_contra hstored
    have hlt := hnew p hp (by simpa using hstored)
    have hle := hmoment.logged.bounded p (by rw [hlog]; exact List.mem_append_left _ hp)
    omega
  · rintro (hend | hend)
    · rw [hend]
      exact hband
    · rw [hend]
      exact hprotected.2.2

/-! ## The recent band between the two looks -/

/-- A pin of the block `⟨0, 1⟩` while nobody is counted on its slot. -/
def pinFirst (goal : Repository.PinGoal) (prior : Control) : List Action :=
  [.repo (.beginPin goal), .repo (.load (.pin goal)), .repo (.cas (.pin goal) prior false),
    .repo (.readHandle goal)]

/-- A block of 32 tokens is appended, published as retirable and let go of;
`history_end_` is 64. -/
def appendAndPublish : List Action :=
  ([.repo (.tryReserve 0 32), .repo .produce, .repo .produce, .repo .produce, .repo .produce,
    .repo .produce, .repo .produce, .repo (.beginCommit ⟨0, 1⟩), .repo (.load (.commit ⟨0, 1⟩)),
    .repo (.cas (.commit ⟨0, 1⟩) (.single .writing) false)] : List Action) ++
  pinFirst (.handle ⟨0, 1⟩) (.single .live) ++
  (.publish ⟨0, 1⟩ requiredFlags false :: List.replicate 8 .publishNext : List Action) ++
  ([.repo (.reset ⟨0, 1⟩), .setHistoryEnd 64] : List Action)

/-- The worker scans the block, takes it for a candidate and pins it again;
while it is retiring it, `history_end_` goes down to 40 and up again. -/
def retireUnderRewind : List Action :=
  ([.tick, .leave, .scan 0, .tick] : List Action) ++
  pinFirst (.slot 0) (Control.single .live).decr ++
  (.takes ⟨0, 1⟩ :: List.replicate 8 .tick : List Action) ++
  ([.decide true, .tick, .leave, .pick 0] : List Action) ++
  pinFirst (.handle ⟨0, 1⟩) (Control.single .live).decr ++
  (.takes ⟨0, 1⟩ :: List.replicate 8 .tick : List Action) ++
  ([.setHistoryEnd 40, .tick, .setHistoryEnd 64] : List Action) ++
  List.replicate 10 .tick

/-- The worker has left a block retired; the check is made on its moment. -/
def State.leftWith (check : Config → Moment → Bool) (s : State) : Bool :=
  match s.worker with
  | .left _ _ mo _ _ => check s.config mo
  | _ => false

theorem State.leftWith_eq_true {check : Config → Moment → Bool} {s : State}
    (h : s.leftWith check = true) :
    ∃ c m mo after endAfter, s.worker = .left c m mo after endAfter ∧
      check s.config mo = true := by
  unfold State.leftWith at h
  split at h
  · next hw => exact ⟨_, _, _, _, _, hw, h⟩
  · cases h

theorem smallRepository_valid : Repository.Config.Valid ⟨2, 32⟩ := by
  unfold Repository.Config.Valid
  decide

/-- A block may be in the recent band when the exchange that retires it
succeeds. -/
theorem retired_inRecentBand :
    ¬ ∀ s, machine.Reachable s → ∀ c m mo after endAfter,
      s.worker = .left c m mo after endAfter →
        ¬ InRecentBand s.config mo.historyEnd mo.record := by
  intro hclaim
  have hrun : (machine.run (State.initial ⟨16, .delete⟩ ⟨2, 32⟩)
      (appendAndPublish ++ retireUnderRewind)).any
        (State.leftWith fun c mo => InRecentBand c mo.historyEnd mo.record) = true := by
    decide +kernel
  obtain ⟨s, hs, hleft⟩ := machine.exists_reachable ⟨_, _, smallRepository_valid, rfl⟩ hrun
  obtain ⟨c, m, mo, after, endAfter, hw, hband⟩ := State.leftWith_eq_true hleft
  exact hclaim s hs c m mo after endAfter hw (of_decide_eq_true hband)

/-- The same block at the end of that run: retired on its only publication. -/
theorem policyRetirement_underRewind :
    ∃ (s : State) (mo : Moment), machine.Reachable s ∧ mo.control = .single .live ∧ mo.record.handle = ⟨0, 1⟩ ∧
      ¬ InRecentBand s.config mo.checkedEnd mo.record := by
  have hrun : (machine.run (State.initial ⟨16, .delete⟩ ⟨2, 32⟩)
      (appendAndPublish ++ retireUnderRewind)).any
        (State.leftWith fun _ mo => mo.record.handle = ⟨0, 1⟩) = true := by
    decide +kernel
  obtain ⟨s, hs, hleft⟩ := machine.exists_reachable ⟨_, _, smallRepository_valid, rfl⟩ hrun
  obtain ⟨c, m, mo, after, endAfter, hw, hhandle⟩ := State.leftWith_eq_true hleft
  obtain ⟨⟨hcontrol, -⟩, -, -, hband, -⟩ := (policyRetirement hs).1 c m mo after endAfter hw
  exact ⟨s, mo, hs, hcontrol, of_decide_eq_true hhandle, hband⟩

end Qw3.RepositoryGc
