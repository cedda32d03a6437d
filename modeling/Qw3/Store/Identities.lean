import Qw3.Store.Backing
import Qw3.Store.Recorded

/-!
# The identities of blocks

A generation is given out once.  So no two slots ever hold the same block, and a
slot whose generation changes holds a new one, with its drift counters at zero.

* `DistinctRecords` — no generation is in two records.
* `KvMemBlock.SameBlock`, `KvMemBlock.Fresh` — what a call does to a block;
  `identity_step` says that it is one of the two.
* `State.Identified`, `identified_step`.
-/

namespace Qw3.Store

open Qw3.Repository (KvMemBlockHandle Record Repo)

variable {s t u : State} {r r' : Repo}

/-! ## The records -/

/-- Generations were given out up to the sequence, each for one slot. -/
structure DistinctRecords (r : Repo) : Prop where
  le : ∀ i, (r.record i).handle.generation ≤ r.sequence
  inj : ∀ i j, (r.record i).handle.generation ≠ 0 →
    (r.record i).handle.generation = (r.record j).handle.generation → i = j

theorem DistinctRecords.reserved {b pos : ℕ} {h : KvMemBlockHandle} (hr : DistinctRecords r)
    (hreserve : r.tryReserve pos b = some (h, r')) : DistinctRecords r' := by
  obtain ⟨-, hgeneration, hsequence, -, -, -, hcells⟩ := Repo.tryReserve_eq_some hreserve
  have hnew : (r'.record h.slot).handle.generation = r.sequence + 1 := by
    rw [Repo.record, hcells, Function.update_self, hgeneration]
  have hold : ∀ i, i ≠ h.slot → r'.record i = r.record i := by
    intro i hi
    rw [Repo.record, hcells, Function.update_of_ne hi]
    rfl
  constructor
  · intro i
    rw [hsequence]
    by_cases hi : i = h.slot
    · rw [hi, hnew]
    · rw [hold i hi]
      exact Nat.le_succ_of_le (hr.le i)
  · intro i j hne heq
    -- Every old generation is below the new one.
    have hi := hr.le i
    have hj := hr.le j
    by_cases his : i = h.slot
    · by_cases hjs : j = h.slot
      · rw [his, hjs]
      · rw [his, hnew, hold j hjs] at heq
        omega
    · by_cases hjs : j = h.slot
      · rw [hjs, hnew, hold i his] at heq
        omega
      · rw [hold i his] at hne heq
        rw [hold j hjs] at heq
        exact hr.inj i j hne heq

theorem Booked.distinct {b : ℕ} (h : Booked b r r') (hr : DistinctRecords r) :
    DistinctRecords r' := by
  induction h with
  | kept config sequence record =>
      constructor
      · intro i
        rw [record, sequence]
        exact hr.le i
      · intro i j
        rw [record, record]
        exact hr.inj i j
  | reserved reserve => exact hr.reserved reserve
  | trans first rest hfirst hrest => exact hrest (hfirst hr)

/-! ## The blocks -/

namespace KvMemBlock

/-- The block is the one it was; its drift counters too where `exact` holds. -/
structure SameBlock (exact : Prop) (b b' : KvMemBlock) : Prop where
  generation : b'.repositoryGeneration = b.repositoryGeneration
  logicalId : b'.logicalId = b.logicalId
  remapCount : exact → b'.remapCount = b.remapCount
  remapAbsDelta : exact → b'.remapAbsDelta = b.remapAbsDelta

/-- A new block is in the place of an old one. -/
structure Fresh (b b' : KvMemBlock) : Prop where
  generation : b.repositoryGeneration < b'.repositoryGeneration
  logicalId : b'.logicalId = b'.repositoryGeneration
  remapCount : b'.remapCount = 0
  remapAbsDelta : b'.remapAbsDelta = 0

variable {exact : Prop} {b b' b'' : KvMemBlock}

theorem SameBlock.refl (exact : Prop) (b : KvMemBlock) : b.SameBlock exact b :=
  ⟨rfl, rfl, fun _ => rfl, fun _ => rfl⟩

theorem SameBlock.of_eq (h : b' = b) : b.SameBlock exact b' := by
  rw [h]
  exact .refl exact b

theorem SameBlock.trans (h : b.SameBlock exact b') (h' : b'.SameBlock exact b'') :
    b.SameBlock exact b'' where
  generation := h'.generation.trans h.generation
  logicalId := h'.logicalId.trans h.logicalId
  remapCount hexact := (h'.remapCount hexact).trans (h.remapCount hexact)
  remapAbsDelta hexact := (h'.remapAbsDelta hexact).trans (h.remapAbsDelta hexact)

theorem SameBlock.setTier (optimize : Bool) (tier : KvTier) (cpuSlot nvmeSlot : ℤ) :
    b.SameBlock exact (b.setTier optimize tier cpuSlot nvmeSlot) := by
  unfold KvMemBlock.setTier
  split_ifs <;> exact ⟨rfl, rfl, fun _ => rfl, fun _ => rfl⟩

theorem SameBlock.rewound (position : ℕ) : b.SameBlock exact (b.rewound position) := by
  unfold KvMemBlock.rewound
  split_ifs <;> exact ⟨rfl, rfl, fun _ => rfl, fun _ => rfl⟩

theorem SameBlock.rerope (bakedPos : ℤ) : b.SameBlock False (b.rerope bakedPos) := by
  unfold KvMemBlock.rerope
  split_ifs
  · exact .refl False b
  · exact ⟨rfl, rfl, fun h => h.elim, fun h => h.elim⟩

end KvMemBlock

/-! ## Setters -/

/-- The calls that count a re-RoPE. -/
def Action.Reropes : Action → Prop
  | .recordBlockRerope _ _ _ => True
  | _ => False

instance (a : Action) : Decidable a.Reropes := by
  unfold Action.Reropes
  split <;> infer_instance

variable {exact : Prop}

theorem setBlock_same {id : ℕ} {b : KvMemBlock} (hb : (s.blocks id).SameBlock exact b) (i : ℕ) :
    (s.blocks i).SameBlock exact ((s.setBlock id b).blocks i) := by
  unfold State.setBlock
  dsimp only
  by_cases hi : i = id
  · rw [hi, Function.update_self]
    exact hb
  · rw [Function.update_of_ne hi]
    exact .refl exact _

/-- A setter behind a valid handle does what it says. -/
theorem setter_eq_ok {id generation : ℕ} {f : Unit → State}
    (h : (s.validateMutation id generation).map f = .ok t) : t = f () := by
  cases hvalid : s.validateMutation id generation with
  | error e => simp [hvalid, Except.map] at h
  | ok x =>
      simp only [hvalid, Except.map, Except.ok.injEq] at h
      exact h.symm

theorem syncValueBacked_blocks (s : State) (id : ℕ) : (s.syncValueBacked id).blocks = s.blocks := rfl

/-- The calls on checkpoints leave the blocks alone. -/
theorem checkpoint_blocks {position : ℕ} {pin : Bool}
    (h : s.repositoryCheckpoint position pin = .ok t) : t.blocks = s.blocks := by
  unfold State.repositoryCheckpoint at h
  rw [ite_eq_iff, or_iff_right (by simp)] at h
  obtain ⟨-, h⟩ := h
  split at h
  · cases h
  · dsimp only at h
    generalize (if pin = true then s.protectLeases _ else pure ([], s.repo)) = leases at h
    cases leases with
    | error e => simp [Except.map] at h
    | ok p =>
        simp only [Except.map, Except.ok.injEq] at h
        rw [← h]

theorem protect_blocks {id : ℕ} (h : s.protectRepositoryCheckpoint id = .ok t) :
    t.blocks = s.blocks := by
  unfold State.protectRepositoryCheckpoint at h
  split at h
  · cases h
  · split_ifs at h
    rename_i c hc _
    cases hleases : s.protectLeases c with
    | error e => simp [hleases, Except.map] at h
    | ok p =>
        simp only [hleases, Except.map, Except.ok.injEq] at h
        rw [← h]

theorem dropCheckpoint_blocks {id : ℕ} (h : s.dropCheckpoint id = some t) :
    t.blocks = s.blocks := by
  unfold State.dropCheckpoint at h
  split at h
  · cases h
  · split_ifs at h
    rw [← Option.some.inj h]

theorem setBlockTier_same {id : ℕ} {tier : KvTier} {cpuSlot nvmeSlot : ℤ} {generation : ℕ}
    (h : s.setBlockTier id tier cpuSlot nvmeSlot generation = .ok t) (i : ℕ) :
    (s.blocks i).SameBlock exact (t.blocks i) := by
  unfold State.setBlockTier at h
  split at h
  · cases h
  · cases hmove : s.moveResident id tier with
    | error e => simp [hmove, Except.map] at h
    | ok u =>
        simp only [hmove, Except.map, Except.ok.injEq] at h
        have hblocks : u.blocks = s.blocks := by
          unfold State.moveResident State.resetResident at hmove
          split_ifs at hmove
          · rw [← Except.ok.inj hmove]
          · split at hmove
            · cases hmove
            · rw [← Except.ok.inj hmove]
          · rw [← Except.ok.inj hmove]
          · rw [← Except.ok.inj hmove]
            split <;> rfl
        rw [← h, ← hblocks]
        unfold State.tierSet
        dsimp only
        by_cases hi : i = id
        · rw [hi, Function.update_self]
          exact (KvMemBlock.SameBlock.setTier _ _ _ _).trans ⟨rfl, rfl, fun _ => rfl, fun _ => rfl⟩
        · rw [Function.update_of_ne hi]
          exact .refl exact _

/-! ## The two commits -/

theorem commitTail_same (s : State) (accepted : ℕ) (tail : Option Span) (i : ℕ) :
    (s.blocks i).SameBlock exact ((s.commitTail accepted tail).blocks i) := by
  cases tail with
  | none => exact .refl exact _
  | some sp =>
      unfold State.commitTail
      dsimp only
      by_cases hi : i = sp.handle.slot
      · rw [hi, Function.update_self]
        exact ⟨rfl, rfl, fun _ => rfl, fun _ => rfl⟩
      · rw [Function.update_of_ne hi]
        exact .refl exact _

/-- The installation loop puts new blocks into the slots that were reserved. -/
theorem commitReserved_identity {a : Append} {stop : ℕ} {l : List Span}
    (hrecord : ∀ sp ∈ l, (s.repo.record sp.handle.slot).logicalId = sp.handle.generation)
    (hgeneration : ∀ sp ∈ l,
      (s.blocks sp.handle.slot).repositoryGeneration < sp.handle.generation)
    (hnodup : (l.map fun sp => sp.handle.slot).Nodup)
    (h : State.commitReserved a stop l s = .ok t) (i : ℕ) :
    t.blocks i = s.blocks i ∨
      i ∈ l.map (fun sp => sp.handle.slot) ∧ (s.blocks i).Fresh (t.blocks i) := by
  induction l generalizing s with
  | nil =>
      obtain rfl := Except.ok.inj h
      exact .inl rfl
  | cons sp rest ih =>
      obtain ⟨hnot, hnodup⟩ := List.nodup_cons.mp hnodup
      rw [List.map_cons, List.mem_cons]
      rcases commitReserved_cons_eq_ok h with ⟨-, h⟩ | ⟨-, r, u, hcommit, hinstall, h⟩
      · refine (ih (fun q hq => ?_) (fun q hq => ?_) hnodup h).imp_right (And.imp_left .inr)
        · exact hrecord q (List.mem_cons_of_mem _ hq)
        · exact hgeneration q (List.mem_cons_of_mem _ hq)
      · obtain ⟨history, -, -, rfl⟩ := install_eq_ok hinstall
        obtain ⟨-, rfl⟩ := Repo.commit_eq_some hcommit
        have hother : ∀ q ∈ rest, q.handle.slot ≠ sp.handle.slot := by
          intro q hq heq
          exact hnot (List.mem_map.mpr ⟨q, hq, heq⟩)
        have hrest := ih (fun q hq => ?_) (fun q hq => ?_) hnodup h
        · unfold State.installed at hrest
          dsimp only at hrest
          by_cases hi : i = sp.handle.slot
          · right
            refine ⟨.inl hi, ?_⟩
            subst hi
            rw [hrest.resolve_right fun hmem => hnot hmem.1, Function.update_self]
            exact ⟨hgeneration sp List.mem_cons_self,
              (congrArg Record.logicalId (Repo.setControl_record _ _ _)).trans
                (hrecord sp List.mem_cons_self), rfl, rfl⟩
          · rw [Function.update_of_ne hi] at hrest
            exact hrest.imp_right (And.imp_left .inr)
        · exact (congrArg Record.logicalId (Repo.setControl_record _ _ _)).trans
            (hrecord q (List.mem_cons_of_mem _ hq))
        · unfold State.installed
          dsimp only
          rw [Function.update_of_ne (hother q hq)]
          exact hgeneration q (List.mem_cons_of_mem _ hq)

theorem commitAppend_identity (hs : s.Inv) {accepted : ℕ} (h : s.commitAppend accepted = .ok t)
    (i : ℕ) : (s.blocks i).SameBlock exact (t.blocks i) ∨ (s.blocks i).Fresh (t.blocks i) := by
  obtain ⟨a, u, happend, -, -, hcommit, rfl⟩ := commitAppend_eq_ok.mp h
  have ha := hs.append a happend
  obtain ⟨hframe, hgeneration⟩ := commitTail_frame s accepted a.tail
  have htail : (s.blocks i).SameBlock exact ((s.commitTail accepted a.tail).blocks i) :=
    commitTail_same s accepted a.tail i
  have hinstalled := commitReserved_identity (fun sp hsp => ?_) (fun sp hsp => ?_) ha.nodup
    hcommit i
  · show (s.blocks i).SameBlock exact (u.blocks i) ∨ (s.blocks i).Fresh (u.blocks i)
    rcases hinstalled with heq | ⟨-, hfresh⟩
    · rw [heq]
      exact .inl htail
    · refine .inr ⟨?_, hfresh.logicalId, hfresh.remapCount, hfresh.remapAbsDelta⟩
      rw [← htail.generation]
      exact hfresh.generation
  · rw [hframe]
    exact congrArg Record.logicalId (ha.reserved sp hsp).record
  · rw [hgeneration]
    exact (ha.reserved sp hsp).generation

/-! ## Each call -/

/-- **What a call does to a block**: it stays the same one, or a new one takes
its slot. -/
theorem identity_step {a : Action} (hs : s.Inv) (h : s.step a = some t) (i : ℕ) :
    (s.blocks i).SameBlock (¬ a.Reropes) (t.blocks i) ∨ (s.blocks i).Fresh (t.blocks i) := by
  by_cases htransactional : a.Transactional
  · rcases htransactional.cases with hopening | ⟨accepted, rfl⟩ | rfl
    · left
      rw [opening_frame hopening h]
      exact .refl _ _
    · exact commitAppend_identity hs (toOption_eq_some h) i
    · left
      rcases State.commitRewind_blocks hs (toOption_eq_some h) i with hsame | ⟨w, -, -, hrewound, -⟩
      · exact .of_eq hsame
      · rw [hrewound]
        exact .rewound _
  · left
    cases a with
    | other a =>
        rw [opening_frame (a := .other a) trivial h]
        exact .refl _ _
    | ioLease g =>
        rw [opening_frame (a := .ioLease g) trivial h]
        exact .refl _ _
    | storageRead start count =>
        rw [opening_frame (a := .storageRead start count) trivial h]
        exact .refl _ _
    | setBlockTier id tier cpuSlot nvmeSlot generation =>
        exact setBlockTier_same (toOption_eq_some h) i
    | setBlockCpuCopy id cpuSlot generation =>
        rw [setter_eq_ok (toOption_eq_some h), syncValueBacked_blocks]
        refine setBlock_same ?_ i
        exact ⟨rfl, rfl, fun _ => rfl, fun _ => rfl⟩
    | setBlockSsdBacking id nvmeSlot clean generation =>
        rw [setter_eq_ok (toOption_eq_some h), syncValueBacked_blocks]
        refine setBlock_same ?_ i
        exact ⟨rfl, rfl, fun _ => rfl, fun _ => rfl⟩
    | setBlockIoInFlight id inFlight generation =>
        rw [setter_eq_ok (toOption_eq_some h)]
        refine setBlock_same ?_ i
        exact ⟨rfl, rfl, fun _ => rfl, fun _ => rfl⟩
    | setBlockBakedPos id bakedPos generation =>
        rw [setter_eq_ok (toOption_eq_some h)]
        refine setBlock_same ?_ i
        exact ⟨rfl, rfl, fun _ => rfl, fun _ => rfl⟩
    | recordBlockRerope id bakedPos generation =>
        rw [setter_eq_ok (toOption_eq_some h)]
        obtain ⟨hgeneration, hlogical, -, -⟩ :=
          setBlock_same (KvMemBlock.SameBlock.rerope (b := s.blocks id) bakedPos) i
        exact ⟨hgeneration, hlogical, fun hnot => absurd trivial hnot,
          fun hnot => absurd trivial hnot⟩
    | setRepositoryGcFlags g mask values =>
        have h := toOption_eq_some h
        unfold State.setRepositoryGcFlags at h
        split at h
        · cases h
        · split_ifs at h
          rw [← Except.ok.inj h]
          exact .refl _ _
    | checkpoint position pin =>
        rw [checkpoint_blocks (toOption_eq_some h)]
        exact .refl _ _
    | protect id =>
        rw [protect_blocks (toOption_eq_some h)]
        exact .refl _ _
    | dropCheckpoint id =>
        rw [dropCheckpoint_blocks h]
        exact .refl _ _
    | _ => exact absurd trivial htransactional

/-! ## Every run -/

/-- What identifies the blocks of a store. -/
structure State.Identified (s : State) : Prop where
  records : DistinctRecords s.repo
  logicalId : ∀ i, (s.blocks i).logicalId = (s.blocks i).repositoryGeneration

theorem State.Identified.initial (c : StoreConfig) (r : Repository.Config) :
    (State.initial c r).Identified where
  records := ⟨fun _ => Nat.zero_le _, fun _ _ hne => absurd rfl hne⟩
  logicalId _ := rfl

/-- **A call of the store.** -/
theorem State.Identified.step {a : Action} (hs : s.Inv) (h : s.Identified)
    (hstep : s.step a = some t) : t.Identified where
  records := (booked_step hs hstep).2.distinct h.records
  logicalId i := by
    rcases identity_step hs hstep i with hsame | hfresh
    · rw [hsame.logicalId, hsame.generation]
      exact h.logicalId i
    · exact hfresh.logicalId

theorem State.repositoryHandle_of_lt {i : ℕ} (hi : i < s.blockCount) :
    s.repositoryHandle i = ⟨i, (s.blocks i).repositoryGeneration⟩ := if_pos hi

/-- Two blocks that the repository has a record of are told apart by their
identities. -/
theorem State.Identified.eq_of_logicalId (h : s.Identified) {i j : ℕ} (hi : i < s.blockCount)
    (hj : j < s.blockCount) (hrecord : (s.repo.record i).handle = s.repositoryHandle i)
    (hrecord' : (s.repo.record j).handle = s.repositoryHandle j)
    (hne : (s.blocks i).repositoryGeneration ≠ 0)
    (heq : (s.blocks i).logicalId = (s.blocks j).logicalId) : i = j := by
  rw [repositoryHandle_of_lt hi] at hrecord
  rw [repositoryHandle_of_lt hj] at hrecord'
  apply h.records.inj i j
  · rw [hrecord]
    exact hne
  · rw [hrecord, hrecord']
    exact (h.logicalId i).symm.trans (heq.trans (h.logicalId j))

end Qw3.Store
