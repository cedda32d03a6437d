import Qw3.Store.Rewinding

/-!
# The bounded directory

The invariant holds in every reachable state, and with it what the directory
promises its readers.

* `Mild.of_step`, `inv_step` — one case for each call.
* `BoundedDirectory`, `boundedDirectory` — node ownership, installations that
  cannot fail on the directory, disjoint extents, exact reads.
-/

namespace Qw3.Store

open Qw3.Repository (KvMemBlockHandle Record Repo Control refMask)

variable {s t : State}

/-! ## The invariant of every run -/

/-- The calls of a transaction. -/
def Action.Transactional : Action → Prop
  | .prepareAppend _ _ | .extend _ | .commitAppend _ | .cancelAppend
  | .prepareRewind _ | .commitRewind | .abandonRewind => True
  | _ => False

theorem toOption_eq_some {ε α : Type} {x : Except ε α} {a : α} (h : x.toOption = some a) :
    x = .ok a := by
  cases x with
  | error e => simp [Except.toOption] at h
  | ok b => exact congrArg Except.ok (Option.some.inj h)

/-- **Every other call is mild.** -/
theorem Mild.of_step (hs : s.Inv) {a : Action} (ha : ¬ a.Transactional)
    (h : s.step a = some t) : Mild s t := by
  have hok := hs.ok
  cases a with
  | other a =>
      obtain ⟨r, hr, rfl⟩ := Option.map_eq_some_iff.mp h
      exact .repo (.step hok hr) (hok.step hr).1 rfl
  | ioLease g =>
      dsimp only [State.step] at h
      split at h
      · cases h
      · rename_i a happend
        split_ifs at h with hmem
        obtain ⟨r, hr, rfl⟩ := Option.map_eq_some_iff.mp h
        obtain ⟨sp, hsp, rfl⟩ := List.mem_map.mp hmem
        refine .ioLease hok ?_ hr
        have hopen := hs.append a happend
        unfold Append.spans at hsp
        rcases List.mem_append.mp hsp with hsp | hsp
        · exact (hopen.tail_some sp (by simpa using hsp)).record
        · rw [(hopen.reserved sp hsp).record]
  | storageRead start count =>
      obtain ⟨p, hp, rfl⟩ := Option.map_eq_some_iff.mp h
      exact .storageRead hok (toOption_eq_some hp)
  | setBlockTier id tier cpuSlot nvmeSlot generation => exact .setBlockTier hok (toOption_eq_some h)
  | setBlockCpuCopy id cpuSlot generation =>
      have hset : Mild s (s.setBlock id { s.blocks id with
          cpuSlot := cpuSlot
          dirtyGpu := (s.blocks id).dirtyGpu && !decide (0 ≤ cpuSlot) }) :=
        .setBlock hok ⟨rfl, rfl, rfl, rfl⟩
      exact .setter (hset.trans (.syncValueBacked hset.ok id)) (toOption_eq_some h)
  | setBlockSsdBacking id nvmeSlot clean generation =>
      have hset : Mild s (s.setBlock id ((s.blocks id).setSsdBacking nvmeSlot clean)) :=
        .setBlock hok (.setSsdBacking _ _ _)
      exact .setter (hset.trans (.syncValueBacked hset.ok id)) (toOption_eq_some h)
  | setBlockIoInFlight id inFlight generation =>
      have hset : Mild s (s.setBlock id { s.blocks id with inFlight := inFlight }) :=
        .setBlock hok ⟨rfl, rfl, rfl, rfl⟩
      exact .setter hset (toOption_eq_some h)
  | setBlockBakedPos id bakedPos generation =>
      have hset : Mild s (s.setBlock id { s.blocks id with bakedPos := bakedPos }) :=
        .setBlock hok ⟨rfl, rfl, rfl, rfl⟩
      exact .setter hset (toOption_eq_some h)
  | recordBlockRerope id bakedPos generation =>
      exact .setter (.setBlock hok (.rerope _ _)) (toOption_eq_some h)
  | setRepositoryGcFlags g mask values => exact .setRepositoryGcFlags hok (toOption_eq_some h)
  | checkpoint position pin => exact .repositoryCheckpoint hok (toOption_eq_some h)
  | protect id => exact .protect hok (toOption_eq_some h)
  | dropCheckpoint id => exact .dropCheckpoint hok h
  | _ => exact absurd trivial ha

theorem join_eq_some {ε α : Type} {x : Except ε (Option α)} {a : α}
    (h : x.toOption.join = some a) : x = .ok (some a) :=
  toOption_eq_some (Option.join_eq_some_iff.mp h)

/-- **One call keeps the invariant.** -/
theorem inv_step {a : Action} (hs : s.Inv) (h : s.step a = some t) : t.Inv := by
  by_cases htransactional : a.Transactional
  · cases a with
    | prepareAppend count bakedBegin => exact hs.prepareAppend (join_eq_some h)
    | extend count => exact hs.extend (join_eq_some h)
    | commitAppend accepted =>
        have hcommit := toOption_eq_some h
        obtain ⟨a, -, happend, hle, -⟩ := commitAppend_eq_ok.mp hcommit
        rcases hs.commitAppend_or happend hle with ⟨u, hu, hinv⟩ | ⟨herror, -⟩
        · rw [hu] at hcommit
          exact Except.ok.inj hcommit ▸ hinv
        · rw [herror] at hcommit
          cases hcommit
    | cancelAppend => exact hs.cancelAppend (toOption_eq_some h)
    | prepareRewind position => exact hs.prepareRewind (toOption_eq_some h)
    | commitRewind => exact hs.commitRewind (toOption_eq_some h)
    | abandonRewind => exact hs.abandonRewind (toOption_eq_some h)
    | _ => exact absurd htransactional id
  · exact hs.mild (.of_step hs htransactional h)

theorem inv_initial {c : StoreConfig} {r : Repository.Config} (hvalid : ValidConfig c r) :
    (State.initial c r).Inv where
  block_pos := Nat.pos_of_ne_zero hvalid.2.1
  ok := Repo.Ok.initial
  directory :=
    { parked := fun i hi => by
        have hlt : i < r.capacity := hi
        simp [State.initial, hlt, OrdMap.empty]
      entry := fun p hp => absurd hp List.not_mem_nil }
  generation _ := le_rfl
  append a ha := by cases ha
  rewind w hw := by cases hw
  exclusive := .inl rfl

theorem machine_invariant : machine.Invariant State.Inv where
  init s hs := by
    obtain ⟨c, r, hvalid, rfl⟩ := hs
    exact inv_initial hvalid
  step _ _ _ hs h := inv_step hs h

/-! ## What the directory promises -/

/-- What the directory promises in every state. -/
structure State.BoundedDirectory (s : State) : Prop where
  /-- each slot owns one node, parked or in the map under its block's position -/
  node : ∀ i < s.blockCount,
    ((s.nodes i).isSome ∧ ∀ p ∈ s.history.entries, p.2.slot ≠ i) ∨
    (s.nodes i = none ∧ ∃ p ∈ s.history.entries, p.2.slot = i ∧
      p.1 = (s.blocks i).historyPosStart ∧ ∀ q ∈ s.history.entries, q.2.slot = i → q = p)
  mapped : ∀ p ∈ s.history.entries, p.2.slot < s.blockCount
  /-- a commit of an accepted prefix goes through, but for a slot with `2^60 - 1` leases -/
  installs : ∀ a accepted, s.append = some a → accepted ≤ a.count →
    (∃ t, s.commitAppend accepted = .ok t) ∨ s.commitAppend accepted = .error .staleLease ∧
      ∃ sp ∈ a.reserved, s.repo.refs sp.handle.slot = refMask
  /-- neither of the directory's exceptions is ever thrown -/
  throws : ∀ accepted, s.commitAppend accepted ≠ .error .positionInstalled ∧
    s.commitAppend accepted ≠ .error .nodeMissing
  disjoint : ∀ p ∈ s.history.entries, ∀ q ∈ s.history.entries,
    s.repo.Pinnable p.2 → s.repo.Pinnable q.2 → p ≠ q →
      p.1 + (s.blocks p.2.slot).nTokens ≤ q.1 ∨ q.1 + (s.blocks q.2.slot).nTokens ≤ p.1
  within : ∀ p ∈ s.history.entries, s.repo.Pinnable p.2 →
    p.1 + (s.blocks p.2.slot).nTokens ≤ s.totalTokens
  /-- a read that returns cuts the interval into pieces, each at its committed tokens -/
  read : ∀ start count spans r, s.repositoryStorageRead start count = .ok (spans, r) →
    Partition start (start + count) spans ∧ ∀ sp ∈ spans, sp.PlacedBy s.committed

theorem State.Inv.bounded (hs : s.Inv) : s.BoundedDirectory where
  node i hi := by
    cases hnode : s.nodes i with
    | some n => exact .inl ⟨rfl, (hs.directory.parked i hi).mp (by rw [hnode]; rfl)⟩
    | none =>
        refine .inr ⟨rfl, ?_⟩
        by_contra hnone
        push Not at hnone
        have hall : ∀ p ∈ s.history.entries, p.2.slot ≠ i := by
          intro p hp hslot
          obtain ⟨q, hq, hqslot, hne⟩ := hnone p hp hslot
            (by rw [← hslot, (hs.directory.entry p hp).key])
          exact hne (hs.directory.eq_of_slot hq hp (hqslot.trans hslot.symm))
        have hsome := (hs.directory.parked i hi).mpr hall
        rw [hnode] at hsome
        cases hsome
  mapped p hp := (hs.directory.entry p hp).slot_lt
  installs a accepted happend hle :=
    (hs.commitAppend_or happend hle).imp_left fun ⟨t, ht, _⟩ => ⟨t, ht⟩
  throws accepted := by
    cases happend : s.append with
    | none =>
        have herror : s.commitAppend accepted = .error .invalidCommit := by
          rw [State.commitAppend, happend]
          rfl
        simp [herror]
    | some a =>
        by_cases hle : accepted ≤ a.count
        · rcases hs.commitAppend_or happend hle with ⟨t, ht, -⟩ | ⟨herror, -⟩
          · simp [ht]
          · simp [herror]
        · have herror : s.commitAppend accepted = .error .invalidCommit := by
            rw [State.commitAppend, happend]
            exact if_pos (not_le.mp hle)
          simp [herror]
  disjoint p hp q hq _ _ hne := by
    rcases lt_trichotomy p.1 q.1 with hlt | heq | hlt
    · exact .inl (hs.directory.disjoint hp hq hlt)
    · exact absurd (OrdMap.eq_of_mem hp hq heq) hne
    · exact .inr (hs.directory.disjoint hq hp hlt)
  within p hp _ := (hs.directory.entry p hp).limit
  read start count spans r hread := repositoryStorageRead_spec hs.directory hread

/-- **The bounded history directory.** -/
theorem boundedDirectory (hs : machine.Reachable s) : s.BoundedDirectory :=
  (machine_invariant.reachable hs).bounded

/-- Ten tokens in three blocks, of which a part of the second is rewound and
written again while the first is retired and freed. -/
def appendRewindReclaim : List Action :=
  [.prepareAppend 10 0, .extend 12, .commitAppend 10, .prepareRewind 6, .commitRewind,
    .other (.reset ⟨2, 3⟩), .other (.reset ⟨1, 2⟩), .other (.releasing ⟨2, 3⟩),
    .other (.free ⟨2, 3⟩), .setBlockTier 0 .cpu 0 (-1) 1, .other (.retire ⟨0, 1⟩),
    .other (.releasing ⟨0, 1⟩), .other (.free ⟨0, 1⟩), .prepareAppend 7 6, .commitAppend 7]

theorem validConfig_small : ValidConfig ⟨4, true⟩ ⟨4, 4⟩ := by
  unfold ValidConfig Repository.Config.Valid
  decide

theorem boundedDirectory_afterReclaim :
    ∃ s, machine.Reachable s ∧ s.totalTokens = 13 ∧
      s.history.entries = [(0, ⟨0, 1⟩), (4, ⟨1, 2⟩), (8, ⟨3, 4⟩), (12, ⟨2, 5⟩)] ∧
      s.BoundedDirectory := by
  have hrun : (machine.run (State.initial ⟨4, true⟩ ⟨4, 4⟩) appendRewindReclaim).any
      (fun s => decide (s.totalTokens = 13 ∧
        s.history.entries = [(0, ⟨0, 1⟩), (4, ⟨1, 2⟩), (8, ⟨3, 4⟩), (12, ⟨2, 5⟩)])) = true := by
    decide +kernel
  obtain ⟨s, hs, hstate⟩ := machine.exists_reachable ⟨_, _, validConfig_small, rfl⟩ hrun
  obtain ⟨htotal, hentries⟩ := of_decide_eq_true hstate
  exact ⟨s, hs, htotal, hentries, boundedDirectory hs⟩

end Qw3.Store
