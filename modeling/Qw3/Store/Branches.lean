import Qw3.Store.Bounded

/-!
# Checkpoints and branches

A checkpoint that is still valid has below its position the very writes that
were there when it was made: a rewind below the position ends it, and nothing
makes it valid again.

* `Branches` — owned checkpoints are registered, and valid ones agree with the
  writes they saw.
* `Continues s t` — from `s` to `t` every checkpoint keeps its position and what
  it saw, and one that has ended stays so.
* `checkpointBranch`.
-/

namespace Qw3.Store

open Qw3.Repository (KvMemBlockHandle Record Repo Control)

variable {s t u : State}

/-- Owned checkpoints are in the table of weak references; a valid one has below
its position the writes it saw. -/
structure State.Branches (s : State) : Prop where
  registered : ∀ (id : ℕ) (c : Checkpoint), s.checkpoints[id]? = some c → c.alive = true → some id ∈ s.table
  written : ∀ (id : ℕ) (c : Checkpoint), s.checkpoints[id]? = some c → c.alive = true → c.valid = true →
    c.position ≤ s.totalTokens ∧ ∀ p < c.position, s.written p = c.created p

/-- Every checkpoint stays what it was, except that it may end. -/
def Continues (s t : State) : Prop :=
  ∀ (id : ℕ) (c : Checkpoint), s.checkpoints[id]? = some c → ∃ c' : Checkpoint, t.checkpoints[id]? = some c' ∧
    c'.position = c.position ∧ c'.created = c.created ∧ (c.valid = false → c'.valid = false)

theorem Continues.refl (s : State) : Continues s s :=
  fun _ c hc => ⟨c, hc, rfl, rfl, id⟩

theorem Continues.trans (h : Continues s t) (h' : Continues t u) : Continues s u := by
  intro id c hc
  obtain ⟨c', hc', hposition, hcreated, hvalid⟩ := h id c hc
  obtain ⟨c'', hc'', hposition', hcreated', hvalid'⟩ := h' id c' hc'
  exact ⟨c'', hc'', hposition'.trans hposition, hcreated'.trans hcreated,
    fun hf => hvalid' (hvalid hf)⟩

/-! ## Calls that touch neither checkpoints nor history -/

/-- Checkpoints, their table and the written history are the same. -/
structure Apart (s t : State) : Prop where
  checkpoints : t.checkpoints = s.checkpoints
  table : t.table = s.table
  written : t.written = s.written
  totalTokens : t.totalTokens = s.totalTokens

theorem Apart.branches (h : Apart s t) (hs : s.Branches) : t.Branches where
  registered := by
    rw [h.checkpoints, h.table]
    exact hs.registered
  written := by
    rw [h.checkpoints, h.totalTokens, h.written]
    exact hs.written

theorem Apart.continues (h : Apart s t) : Continues s t := by
  intro id c hc
  exact ⟨c, by rw [h.checkpoints, hc], rfl, rfl, fun hf => hf⟩

/-- The result of a call that can fail. -/
theorem Apart.map {α ε : Type} {x : Except ε α} {f : α → State} (h : x.map f = .ok t)
    (hf : ∀ a, Apart s (f a)) : Apart s t := by
  cases x with
  | error e => simp [Except.map] at h
  | ok a =>
      obtain rfl := Except.ok.inj h
      exact hf a

theorem Apart.resetResident (s : State) (i : ℕ) : Apart s (s.resetResident i) := by
  unfold State.resetResident
  split <;> exact ⟨rfl, rfl, rfl, rfl⟩

theorem Apart.moveResident {id : ℕ} {tier : KvTier} (h : s.moveResident id tier = .ok t) :
    Apart s t := by
  unfold State.moveResident at h
  split_ifs at h
  · obtain rfl := Except.ok.inj h
    exact ⟨rfl, rfl, rfl, rfl⟩
  · split at h
    · cases h
    · obtain rfl := Except.ok.inj h
      exact ⟨rfl, rfl, rfl, rfl⟩
  · obtain rfl := Except.ok.inj h
    exact ⟨rfl, rfl, rfl, rfl⟩
  · obtain rfl := Except.ok.inj h
    exact .resetResident s id

/-- The calls that only move leases, or open or give up a transaction. -/
def Action.Opening : Action → Prop
  | .other _ | .ioLease _ | .storageRead _ _ | .prepareAppend _ _ | .extend _ | .cancelAppend
  | .prepareRewind _ | .abandonRewind => True
  | _ => False

instance (a : Action) : Decidable a.Opening := by
  unfold Action.Opening
  split <;> infer_instance

theorem extend_frame {count : ℕ} (h : s.extend count = .ok (some t)) :
    t = { s with repo := t.repo, append := t.append, rewind := t.rewind } := by
  obtain ⟨a, -, ⟨-, rfl⟩ | ⟨needed, more, r, -, rfl⟩⟩ := extend_eq_ok h
  · rfl
  · rfl

/-- **What these calls leave alone.** -/
theorem opening_frame {a : Action} (ha : a.Opening) (h : s.step a = some t) :
    t = { s with repo := t.repo, append := t.append, rewind := t.rewind } := by
  cases a with
  | other a =>
      obtain ⟨r, -, rfl⟩ := Option.map_eq_some_iff.mp h
      rfl
  | ioLease g =>
      dsimp only [State.step] at h
      split at h
      · cases h
      · split_ifs at h
        obtain ⟨r, -, rfl⟩ := Option.map_eq_some_iff.mp h
        rfl
  | storageRead start count =>
      obtain ⟨p, -, rfl⟩ := Option.map_eq_some_iff.mp h
      rfl
  | prepareAppend count bakedBegin =>
      obtain ⟨tail, reserved, r, r', -, rfl⟩ := prepare_eq_ok.mp (join_eq_some h)
      rfl
  | extend count => exact extend_frame (join_eq_some h)
  | cancelAppend =>
      obtain ⟨a, -, rfl⟩ := cancelAppend_eq_ok (toOption_eq_some h)
      rfl
  | prepareRewind position =>
      obtain ⟨-, -, -, ⟨-, rfl⟩ | ⟨-, p, -, rfl⟩⟩ := prepareRewind_eq_ok (toOption_eq_some h)
      · rfl
      · rfl
  | abandonRewind =>
      obtain ⟨w, -, rfl⟩ := abandonRewind_eq_ok (toOption_eq_some h)
      rfl
  | _ => exact absurd ha id

/-- The transactional calls are these and the two commits. -/
theorem Action.Transactional.cases {a : Action} (ha : a.Transactional) :
    a.Opening ∨ (∃ accepted, a = .commitAppend accepted) ∨ a = .commitRewind := by
  cases a with
  | commitAppend accepted => exact .inr (.inl ⟨accepted, rfl⟩)
  | commitRewind => exact .inr (.inr rfl)
  | prepareAppend count bakedBegin => exact .inl trivial
  | extend count => exact .inl trivial
  | cancelAppend => exact .inl trivial
  | prepareRewind position => exact .inl trivial
  | abandonRewind => exact .inl trivial
  | _ => exact absurd ha id

/-- The calls that make, end or overrun checkpoints. -/
def Action.Branching : Action → Prop
  | .commitAppend _ | .commitRewind | .checkpoint _ _ | .protect _ | .dropCheckpoint _ => True
  | _ => False

theorem Apart.of_step {a : Action} (ha : ¬ a.Branching) (h : s.step a = some t) : Apart s t := by
  by_cases hopening : a.Opening
  · rw [opening_frame hopening h]
    exact ⟨rfl, rfl, rfl, rfl⟩
  · cases a with
    | setBlockTier id tier cpuSlot nvmeSlot generation =>
        have h := toOption_eq_some h
        unfold State.setBlockTier at h
        split at h
        · cases h
        · cases hmove : s.moveResident id tier with
          | error e => simp [hmove, Except.map] at h
          | ok u =>
              simp only [hmove, Except.map, Except.ok.injEq] at h
              obtain ⟨hcheckpoints, htable, hwritten, htotal⟩ := Apart.moveResident hmove
              rw [← h]
              exact ⟨hcheckpoints, htable, hwritten, htotal⟩
    | setRepositoryGcFlags g mask values =>
        have h := toOption_eq_some h
        unfold State.setRepositoryGcFlags at h
        split at h
        · cases h
        · split_ifs at h
          obtain rfl := Except.ok.inj h
          exact ⟨rfl, rfl, rfl, rfl⟩
    | setBlockCpuCopy id cpuSlot generation =>
        exact .map (toOption_eq_some h) fun _ => ⟨rfl, rfl, rfl, rfl⟩
    | setBlockSsdBacking id nvmeSlot clean generation =>
        exact .map (toOption_eq_some h) fun _ => ⟨rfl, rfl, rfl, rfl⟩
    | setBlockIoInFlight id inFlight generation =>
        exact .map (toOption_eq_some h) fun _ => ⟨rfl, rfl, rfl, rfl⟩
    | setBlockBakedPos id bakedPos generation =>
        exact .map (toOption_eq_some h) fun _ => ⟨rfl, rfl, rfl, rfl⟩
    | recordBlockRerope id bakedPos generation =>
        exact .map (toOption_eq_some h) fun _ => ⟨rfl, rfl, rfl, rfl⟩
    | other _ => exact absurd trivial hopening
    | ioLease _ => exact absurd trivial hopening
    | storageRead _ _ => exact absurd trivial hopening
    | prepareAppend _ _ => exact absurd trivial hopening
    | extend _ => exact absurd trivial hopening
    | cancelAppend => exact absurd trivial hopening
    | prepareRewind _ => exact absurd trivial hopening
    | abandonRewind => exact absurd trivial hopening
    | _ => exact absurd trivial ha

/-! ## Appending and rewinding -/

/-- **A commit writes only from the old end on.** -/
theorem branches_commitAppend (hs : s.Inv) (hbranches : s.Branches) {accepted : ℕ}
    (h : s.commitAppend accepted = .ok t) : t.Branches ∧ Continues s t := by
  obtain ⟨a, -, happend, -, hbegin, -⟩ := commitAppend_eq_ok.mp h
  obtain ⟨u, hframe, rfl⟩ := hs.commitAppend_eq happend h
  have hcheckpoints : u.checkpoints = s.checkpoints := by rw [hframe]
  have htable : u.table = s.table := by rw [hframe]
  have hwritten : u.written = s.written := by rw [hframe]
  refine ⟨⟨fun id c hc => ?_, fun id c hc halive hvalid => ?_⟩, fun id c hc => ?_⟩
  · show c.alive = true → some id ∈ u.table
    rw [htable]
    exact hbranches.registered id c (hcheckpoints ▸ hc)
  · obtain ⟨hposition, hsame⟩ := hbranches.written id c (hcheckpoints ▸ hc) halive hvalid
    refine ⟨?_, fun p hp => ?_⟩
    · show c.position ≤ a.begin + accepted
      omega
    · show (if a.begin ≤ p ∧ p < a.begin + accepted then u.writes + 1 else u.written p) = c.created p
      rw [if_neg (by omega), hwritten]
      exact hsame p hp
  · exact ⟨c, (congrArg (fun l => l[id]?) hcheckpoints).trans hc, rfl, rfl, fun hf => hf⟩

theorem invalidateAbove_getElem? (s : State) (position id : ℕ) :
    (s.invalidateAbove position).checkpoints[id]? =
      s.checkpoints[id]?.map fun c =>
        if s.ends position (c, id) then c.invalidated else c := by
  show (s.checkpoints.zipIdx.map _)[id]? = _
  rw [List.getElem?_map, List.getElem?_zipIdx, Option.map_map, Nat.zero_add]
  rfl

/-- **A rewind ends every owned checkpoint above its position.** -/
theorem branches_commitRewind (hs : s.Inv) (hbranches : s.Branches) (h : s.commitRewind = .ok t) :
    t.Branches ∧ Continues s t := by
  obtain ⟨w, u, -, -, hfold, rfl⟩ := hs.commitRewind_eq h
  have hframe := hfold.frame
  have hcheckpoints : u.checkpoints = (s.invalidateAbove w.position).checkpoints := by
    rw [hframe]
  have htable : u.table = s.table := by
    rw [hframe]
    rfl
  have hwritten : u.written = s.written := by
    rw [hframe]
    rfl
  have hget : ∀ id, u.checkpoints[id]? = s.checkpoints[id]?.map fun c =>
      if s.ends w.position (c, id) then c.invalidated else c := fun id => by
    rw [hcheckpoints, invalidateAbove_getElem?]
  refine ⟨⟨fun id c hc halive => ?_, fun id c hc halive hvalid => ?_⟩, fun id c hc => ?_⟩
  · show some id ∈ u.table
    obtain ⟨c', hc', rfl⟩ := Option.map_eq_some_iff.mp ((hget id).symm.trans hc)
    rw [htable]
    refine hbranches.registered id c' hc' ?_
    split_ifs at halive <;> exact halive
  · obtain ⟨c', hc', rfl⟩ := Option.map_eq_some_iff.mp ((hget id).symm.trans hc)
    split_ifs at halive hvalid ⊢ with hends
    · cases hvalid
    · obtain ⟨-, hsame⟩ := hbranches.written id c' hc' halive hvalid
      refine ⟨?_, fun p hp => (congrFun hwritten p).trans (hsame p hp)⟩
      show c'.position ≤ w.position
      by_contra hlt
      refine hends ?_
      have hmem := hbranches.registered id c' hc' halive
      simp [State.ends, hmem, halive, not_le.mp hlt]
  · refine ⟨if s.ends w.position (c, id) then c.invalidated else c,
      (hget id).trans (congrArg _ hc), ?_, ?_, fun hf => ?_⟩
    all_goals split_ifs
    all_goals first | rfl | exact hf

/-! ## Making and dropping checkpoints -/

/-- A weak reference is replaced where it names nobody any more. -/
theorem mem_set_of_alive {free id n : ℕ} {c : Checkpoint}
    (hfree : s.table.findIdx? s.expired = some free) (hc : s.checkpoints[id]? = some c)
    (halive : c.alive = true) (hmem : some id ∈ s.table) :
    some id ∈ s.table.set free (some n) := by
  obtain ⟨hlt, hexpired, -⟩ := List.findIdx?_eq_some_iff_getElem.mp hfree
  obtain ⟨j, hj, hid⟩ := List.mem_iff_getElem.mp hmem
  have hne : free ≠ j := by
    rintro rfl
    rw [hid] at hexpired
    simp [State.expired, hc, halive] at hexpired
  exact List.mem_iff_getElem.mpr ⟨j, by rwa [List.length_set], by
    rw [List.getElem_set_ne hne, hid]⟩

theorem branches_checkpoint (hbranches : s.Branches) {position : ℕ} {pin : Bool}
    (h : s.repositoryCheckpoint position pin = .ok t) :
    t.Branches ∧ Continues s t ∧ ∃ c, t.checkpoints[s.checkpoints.length]? = some c ∧
      c.position = position ∧ c.created = s.written ∧ c.alive = true ∧ c.valid = true := by
  unfold State.repositoryCheckpoint at h
  rw [ite_eq_iff, or_iff_right (by simp)] at h
  obtain ⟨hexceeds, h⟩ := h
  split at h
  · cases h
  · rename_i free hfree
    dsimp only at h
    obtain ⟨p, rfl⟩ : ∃ p : List KvMemBlockHandle × Repo, t = { s with
        repo := p.2
        checkpoints := s.checkpoints ++ [⟨position, true, p.1, true, s.written⟩]
        table := s.table.set free (some s.checkpoints.length) } := by
      revert h
      generalize (if pin then _ else _ : Except StoreError (List KvMemBlockHandle × Repo)) = x
      intro h
      cases x with
      | error e => simp [Except.map] at h
      | ok p => exact ⟨p, (Except.ok.inj h).symm⟩
    have hnew : (s.checkpoints ++ [(⟨position, true, p.1, true, s.written⟩ : Checkpoint)])[
        s.checkpoints.length]? = some ⟨position, true, p.1, true, s.written⟩ :=
      List.getElem?_concat_length
    have hcase : ∀ id (c : Checkpoint), (s.checkpoints ++
        [(⟨position, true, p.1, true, s.written⟩ : Checkpoint)])[id]? = some c →
        s.checkpoints[id]? = some c ∨
          id = s.checkpoints.length ∧ c = ⟨position, true, p.1, true, s.written⟩ := by
      intro id c hc
      rcases lt_trichotomy id s.checkpoints.length with hlt | rfl | hlt
      · rw [List.getElem?_append_left hlt] at hc
        exact .inl hc
      · rw [hnew] at hc
        exact .inr ⟨rfl, (Option.some.inj hc).symm⟩
      · rw [List.getElem?_eq_none (by rw [List.length_append, List.length_singleton]; omega)] at hc
        cases hc
    refine ⟨⟨fun id c hc halive => ?_, fun id c hc halive hvalid => ?_⟩, fun id c hc => ?_,
      _, hnew, rfl, rfl, rfl, rfl⟩
    · rcases hcase id c hc with hold | ⟨rfl, rfl⟩
      · exact mem_set_of_alive hfree hold halive (hbranches.registered id c hold halive)
      · obtain ⟨hlt, -, -⟩ := List.findIdx?_eq_some_iff_getElem.mp hfree
        exact List.mem_set hlt _
    · rcases hcase id c hc with hold | ⟨rfl, rfl⟩
      · exact hbranches.written id c hold halive hvalid
      · exact ⟨not_lt.mp hexceeds, fun _ _ => rfl⟩
    · refine ⟨c, ?_, rfl, rfl, fun hf => hf⟩
      show (s.checkpoints ++ _)[id]? = some c
      rw [List.getElem?_append_left (List.getElem?_eq_some_iff.mp hc).1, hc]

/-- One checkpoint is changed, but neither its position nor what it saw, and it
does not come back. -/
theorem branches_set (hbranches : s.Branches) {id : ℕ} {c c' : Checkpoint} {r : Repo}
    (hc : s.checkpoints[id]? = some c) (hposition : c'.position = c.position)
    (hcreated : c'.created = c.created) (hvalid : c'.valid = c.valid)
    (halive : c'.alive = true → c.alive = true) :
    ({ s with repo := r, checkpoints := s.checkpoints.set id c' } : State).Branches ∧
      Continues s { s with repo := r, checkpoints := s.checkpoints.set id c' } := by
  have hlt := (List.getElem?_eq_some_iff.mp hc).1
  have hcase : ∀ i (d : Checkpoint), (s.checkpoints.set id c')[i]? = some d →
      (i ≠ id ∧ s.checkpoints[i]? = some d) ∨ (i = id ∧ d = c') := by
    intro i d hd
    by_cases hi : i = id
    · rw [hi, List.getElem?_set_self hlt] at hd
      exact .inr ⟨hi, (Option.some.inj hd).symm⟩
    · rw [List.getElem?_set_ne (Ne.symm hi)] at hd
      exact .inl ⟨hi, hd⟩
  refine ⟨⟨fun i d hd hd' => ?_, fun i d hd hd' hd'' => ?_⟩, fun i d hd => ?_⟩
  · rcases hcase i d hd with ⟨-, hold⟩ | ⟨rfl, rfl⟩
    · exact hbranches.registered i d hold hd'
    · exact hbranches.registered i c hc (halive hd')
  · rcases hcase i d hd with ⟨-, hold⟩ | ⟨rfl, rfl⟩
    · exact hbranches.written i d hold hd' hd''
    · rw [hposition, hcreated]
      exact hbranches.written i c hc (halive hd') (hvalid ▸ hd'')
  · by_cases hi : i = id
    · subst hi
      obtain rfl := Option.some.inj (hc.symm.trans hd)
      exact ⟨c', List.getElem?_set_self hlt, hposition, hcreated, fun hf => hvalid.trans hf⟩
    · exact ⟨d, (List.getElem?_set_ne (Ne.symm hi)).trans hd, rfl, rfl, fun hf => hf⟩

/-- **One call.** -/
theorem branches_step {a : Action} (hs : s.Inv) (hbranches : s.Branches) (h : s.step a = some t) :
    t.Branches ∧ Continues s t := by
  by_cases hbranching : a.Branching
  · cases a with
    | commitAppend accepted => exact branches_commitAppend hs hbranches (toOption_eq_some h)
    | commitRewind => exact branches_commitRewind hs hbranches (toOption_eq_some h)
    | checkpoint position pin =>
        obtain ⟨ht, hcontinues, -⟩ := branches_checkpoint hbranches (toOption_eq_some h)
        exact ⟨ht, hcontinues⟩
    | protect id =>
        have h := toOption_eq_some h
        unfold State.protectRepositoryCheckpoint at h
        split at h
        · cases h
        · rename_i c hc
          split_ifs at h with halive
          cases hleases : s.protectLeases c with
          | error e => simp [hleases, Except.map] at h
          | ok p =>
              simp only [hleases, Except.map, Except.ok.injEq] at h
              rw [← h]
              exact branches_set hbranches hc rfl rfl rfl fun _ => halive
    | dropCheckpoint id =>
        dsimp only [State.step] at h
        unfold State.dropCheckpoint at h
        split at h
        · cases h
        · rename_i c hc
          split_ifs at h with halive
          obtain rfl := Option.some.inj h
          exact branches_set hbranches hc rfl rfl rfl fun _ => halive
    | _ => exact absurd hbranching id
  · have hapart := Apart.of_step hbranching h
    exact ⟨hapart.branches hbranches, hapart.continues⟩

theorem branches_initial (c : StoreConfig) (r : Repository.Config) :
    (State.initial c r).Branches where
  registered id c hc := by simp [State.initial] at hc
  written id c hc := by simp [State.initial] at hc

theorem branches_invariant : machine.Invariant fun s => s.Inv ∧ s.Branches where
  init s hs := by
    obtain ⟨c, r, hvalid, rfl⟩ := hs
    exact ⟨inv_initial hvalid, branches_initial c r⟩
  step _ _ _ hs h := ⟨inv_step hs.1 h, (branches_step hs.1 hs.2 h).1⟩

/-- From any state of a run to a later one. -/
theorem continues_run {as : List Action} (hs : machine.Reachable s)
    (h : machine.run s as = some t) : Continues s t :=
  (Machine.run_rel Continues.refl Continues.trans branches_invariant.step
    (fun _ _ _ hs h => (branches_step hs.1 hs.2 h).2) (branches_invariant.reachable hs) h).2

/-- **The branch of a checkpoint.**  In every later state in which a checkpoint
made at `s₀` is still owned and valid, each history position below its own holds
the write that `s₀` had there, and its leases name the installed generations;
once it is invalid, it stays so. -/
theorem checkpointBranch {s₀ s₁ : State} {position : ℕ} {pin : Bool} {as : List Action}
    (hs : machine.Reachable s₀) (hmake : s₀.step (.checkpoint position pin) = some s₁)
    (hrun : machine.run s₁ as = some t) :
    ∃ c : Checkpoint, t.checkpoints[s₀.checkpoints.length]? = some c ∧ c.position = position ∧
      (c.alive = true → t.CheckpointValid c →
        position ≤ t.totalTokens ∧ (∀ p < position, t.written p = s₀.written p) ∧
        ∀ h ∈ c.leases, (t.blocks h.slot).repositoryGeneration = h.generation ∧
          t.repo.Pinnable h) ∧
      (c.valid = false → ∀ bs u c', machine.run t bs = some u →
        u.checkpoints[s₀.checkpoints.length]? = some c' → ¬ u.CheckpointValid c') := by
  have hs₁ : machine.Reachable s₁ :=
    hs.run (show machine.run s₀ [.checkpoint position pin] = some s₁ by
      rw [Machine.run_cons, show machine.step s₀ (.checkpoint position pin) = some s₁ from hmake]
      rfl)
  have ht := hs₁.run hrun
  obtain ⟨-, hbranches₀⟩ := branches_invariant.reachable hs
  obtain ⟨-, -, c₁, hc₁, hposition₁, hcreated₁, -⟩ :=
    branches_checkpoint hbranches₀ (toOption_eq_some hmake)
  obtain ⟨c, hc, hposition, hcreated, -⟩ := continues_run hs₁ hrun _ _ hc₁
  refine ⟨c, hc, hposition.trans hposition₁, fun halive hvalid => ?_, fun hinvalid bs u c' hbs hc' => ?_⟩
  · obtain ⟨-, hbranches⟩ := branches_invariant.reachable ht
    obtain ⟨hle, hsame⟩ := hbranches.written _ c hc halive hvalid.1
    rw [hposition, hposition₁] at hle hsame
    rw [hcreated, hcreated₁] at hsame
    refine ⟨hle, hsame, fun h hh => ?_⟩
    obtain ⟨hhandle, hpin⟩ := hvalid.2.2 h hh
    refine ⟨?_, hpin⟩
    rw [State.repositoryHandle, if_pos (show h.slot < t.blockCount from hpin.1)] at hhandle
    exact congrArg KvMemBlockHandle.generation hhandle
  · obtain ⟨c'', hc'', -, -, hstays⟩ := continues_run ht hbs _ _ hc
    obtain rfl := Option.some.inj (hc'.symm.trans hc'')
    rintro ⟨hvalid, -⟩
    rw [hstays hinvalid] at hvalid
    cases hvalid

/-- A checkpoint at five of six tokens survives a rewind to five and the growth
of another branch from there. -/
theorem checkpointBranch_afterRegrowth :
    ∃ s₀ s₁ t, machine.Reachable s₀ ∧ s₀.step (.checkpoint 5 true) = some s₁ ∧
      machine.run s₁ [.prepareRewind 5, .commitRewind, .prepareAppend 4 5, .commitAppend 4] =
        some t ∧ t.totalTokens = 9 ∧ ∀ p < 5, t.written p = s₀.written p := by
  have hrun : (machine.run (State.initial ⟨4, true⟩ ⟨4, 4⟩)
      ([.prepareAppend 6 0, .commitAppend 6] ++ .checkpoint 5 true ::
        [.prepareRewind 5, .commitRewind, .prepareAppend 4 5, .commitAppend 4])).any (fun t =>
          decide (t.totalTokens = 9) && t.checkpoints.all fun c => c.alive &&
            decide (t.CheckpointValid c)) = true := by
    decide +kernel
  obtain ⟨s₀, s₁, t, hs, hmake, hlater, hstate⟩ :=
    machine.exists_reachable_step ⟨_, _, validConfig_small, rfl⟩ hrun
  obtain ⟨c, hc, -, hvalid, -⟩ := checkpointBranch hs hmake hlater
  rw [Bool.and_eq_true, decide_eq_true_eq, List.all_eq_true] at hstate
  obtain ⟨htotal, hall⟩ := hstate
  have hlast := hall c (List.mem_of_getElem? hc)
  rw [Bool.and_eq_true, decide_eq_true_eq] at hlast
  exact ⟨s₀, s₁, t, hs, hmake, hlater, htotal, (hvalid hlast.1 hlast.2).2.1⟩

end Qw3.Store
