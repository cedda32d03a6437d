import Qw3.Store.Layout

/-!
# The invariant of a repository-backed store

* `AppendOk`, `RewindOk` — what an open transaction has taken hold of.
* `Inv` — the directory, the open transaction and the lease accounts fit
  together; it holds between any two calls.
* `Mild s t` — a call that leaves the directory, the extents of the blocks and
  the transactions alone; `Inv.mild` says that it keeps the invariant.
-/

namespace Qw3.Store

open Qw3.Repository (KvMemBlockHandle Record Repo Control)

/-- The first block boundary that is not below `start`. -/
def firstBlock (b start : ℕ) : ℕ := if start % b = 0 then start else start - start % b + b

namespace State

variable (s : State)

/-- A new block that an open append has reserved. -/
structure Reserved (sp : Span) : Prop where
  slot_lt : sp.handle.slot < s.blockCount
  writing : s.repo.phase sp.handle.slot = .writing
  record : s.repo.record sp.handle.slot =
    ⟨sp.handle, sp.handle.generation, sp.historyBegin, s.config.blockTokens⟩
  resident : s.resident sp.handle.slot = none
  generation : (s.blocks sp.handle.slot).repositoryGeneration < sp.handle.generation

/-- The block that the history ends in, under the lease of an open append. -/
structure Tail (start count : ℕ) (sp : Span) : Prop where
  offset : start % s.config.blockTokens ≠ 0
  historyBegin : sp.historyBegin = start
  storageBegin : sp.storageBegin =
    sp.handle.slot * s.config.blockTokens + start % s.config.blockTokens
  tokenCount : sp.tokenCount = tailTake s.config.blockTokens start count
  entry : (start - start % s.config.blockTokens, sp.handle) ∈ s.history.entries
  nTokens : (s.blocks sp.handle.slot).nTokens = start % s.config.blockTokens
  record : (s.repo.record sp.handle.slot).handle = sp.handle

/-- An open append. -/
structure AppendOk (a : Append) : Prop where
  begin_eq : a.begin = s.totalTokens
  count_pos : 0 < a.count
  baked : a.bakedBegin + a.count ≤ int32Max
  tail_none : a.tail = none → a.begin % s.config.blockTokens = 0
  tail_some : ∀ sp, a.tail = some sp → s.Tail a.begin a.count sp
  laid : Laid s.config.blockTokens (a.begin + a.count) (firstBlock s.config.blockTokens a.begin)
    a.reserved
  reserved : ∀ sp ∈ a.reserved, s.Reserved sp
  nodup : (a.reserved.map fun sp => sp.handle.slot).Nodup

/-- An open rewind: what it captured are blocks it cuts or drops, and every
block that reaches beyond the position from below is among them. -/
structure RewindOk (w : Rewind) : Prop where
  position_le : w.position ≤ s.totalTokens
  captured : ∀ sp ∈ w.captured, (sp.historyBegin, sp.handle) ∈ s.history.entries ∧
    w.position ≤ sp.historyBegin + (s.blocks sp.handle.slot).nTokens ∧
    (s.repo.record sp.handle.slot).handle = sp.handle
  cut : ∀ p ∈ s.history.entries, p.1 < w.position →
    p.1 + (s.blocks p.2.slot).nTokens ≤ w.position ∨
      ∃ sp ∈ w.captured, sp.handle.slot = p.2.slot

/-- What holds between any two calls. -/
structure Inv : Prop where
  block_pos : 0 < s.config.blockTokens
  ok : s.repo.Ok s.held
  directory : s.Directory s.committed s.totalTokens
  generation : ∀ i, (s.blocks i).repositoryGeneration ≤ s.repo.sequence
  append : ∀ a, s.append = some a → s.AppendOk a
  rewind : ∀ w, s.rewind = some w → s.RewindOk w
  exclusive : s.append = none ∨ s.rewind = none

end State

/-! ## Calls that change no extent -/

/-- The two blocks have one identity and extent. -/
structure KvMemBlock.SameExtent (b b' : KvMemBlock) : Prop where
  historyPosStart : b'.historyPosStart = b.historyPosStart
  repositoryGeneration : b'.repositoryGeneration = b.repositoryGeneration
  origPosStart : b'.origPosStart = b.origPosStart
  nTokens : b'.nTokens = b.nTokens

namespace KvMemBlock.SameExtent

theorem refl (b : KvMemBlock) : b.SameExtent b := ⟨rfl, rfl, rfl, rfl⟩

theorem trans {b b' b'' : KvMemBlock} (h : b.SameExtent b') (h' : b'.SameExtent b'') :
    b.SameExtent b'' where
  historyPosStart := h'.historyPosStart.trans h.historyPosStart
  repositoryGeneration := h'.repositoryGeneration.trans h.repositoryGeneration
  origPosStart := h'.origPosStart.trans h.origPosStart
  nTokens := h'.nTokens.trans h.nTokens

theorem setTier (b : KvMemBlock) (optimize : Bool) (tier : KvTier) (cpuSlot nvmeSlot : ℤ) :
    b.SameExtent (b.setTier optimize tier cpuSlot nvmeSlot) := by
  unfold KvMemBlock.setTier
  split_ifs <;> exact ⟨rfl, rfl, rfl, rfl⟩

theorem setSsdBacking (b : KvMemBlock) (nvmeSlot : ℤ) (clean : Bool) :
    b.SameExtent (b.setSsdBacking nvmeSlot clean) := ⟨rfl, rfl, rfl, rfl⟩

theorem rerope (b : KvMemBlock) (bakedPos : ℤ) : b.SameExtent (b.rerope bakedPos) := by
  unfold KvMemBlock.rerope
  split_ifs <;> exact ⟨rfl, rfl, rfl, rfl⟩

end KvMemBlock.SameExtent

/-- From `s` to `t` neither the directory nor a block's extent nor the open
transaction changed, and the leases are accounted for. -/
structure Mild (s t : State) : Prop where
  config : t.config = s.config
  history : t.history = s.history
  nodes : t.nodes = s.nodes
  totalTokens : t.totalTokens = s.totalTokens
  committed : t.committed = s.committed
  append : t.append = s.append
  rewind : t.rewind = s.rewind
  quiet : Quiet s.repo t.repo
  extent : ∀ i, (s.blocks i).SameExtent (t.blocks i)
  resident : ∀ i, s.repo.phase i = .writing → s.resident i = none → t.resident i = none
  ok : t.repo.Ok t.held

variable {s t u : State}

theorem Mild.trans (h : Mild s t) (h' : Mild t u) : Mild s u where
  config := h'.config.trans h.config
  history := h'.history.trans h.history
  nodes := h'.nodes.trans h.nodes
  totalTokens := h'.totalTokens.trans h.totalTokens
  committed := h'.committed.trans h.committed
  append := h'.append.trans h.append
  rewind := h'.rewind.trans h.rewind
  quiet := h.quiet.trans h'.quiet
  extent i := (h.extent i).trans (h'.extent i)
  resident i hi hnone := h'.resident i (h.quiet.writing i hi) (h.resident i hi hnone)
  ok := h'.ok

/-- A mild change leaves the reserved blocks of an append. -/
theorem State.Reserved.mild {sp : Span} (h : s.Reserved sp) (hmild : Mild s t) : t.Reserved sp where
  slot_lt := by
    rw [State.blockCount, hmild.quiet.config]
    exact h.slot_lt
  writing := hmild.quiet.writing _ h.writing
  record := by rw [hmild.quiet.record, hmild.config, h.record]
  resident := hmild.resident _ h.writing h.resident
  generation := by
    rw [(hmild.extent _).repositoryGeneration]
    exact h.generation

theorem State.AppendOk.mild {a : Append} (h : s.AppendOk a) (hmild : Mild s t) : t.AppendOk a where
  begin_eq := h.begin_eq.trans hmild.totalTokens.symm
  count_pos := h.count_pos
  baked := h.baked
  tail_none := by
    rw [hmild.config]
    exact h.tail_none
  tail_some sp hsp := by
    obtain ⟨hoffset, hbegin, hstorage, hcount, hentry, htokens, hrecord⟩ := h.tail_some sp hsp
    constructor
    case historyBegin => exact hbegin
    case record => rw [hmild.quiet.record, hrecord]
    case nTokens => rw [(hmild.extent _).nTokens, hmild.config, htokens]
    case entry =>
      rw [hmild.history, hmild.config]
      exact hentry
    all_goals rw [hmild.config]
    case offset => exact hoffset
    case storageBegin => exact hstorage
    case tokenCount => exact hcount
  laid := by
    rw [hmild.config]
    exact h.laid
  reserved sp hsp := (h.reserved sp hsp).mild hmild
  nodup := h.nodup

/-- A mild change leaves what a rewind has captured. -/
theorem State.RewindOk.mild {w : Rewind} (h : s.RewindOk w) (hmild : Mild s t) : t.RewindOk w where
  position_le := hmild.totalTokens ▸ h.position_le
  captured sp hsp := by
    rw [hmild.history, (hmild.extent _).nTokens, hmild.quiet.record]
    exact h.captured sp hsp
  cut p hp := by
    rw [hmild.history] at hp
    rw [(hmild.extent _).nTokens]
    exact h.cut p hp

/-- **A mild call keeps the invariant.** -/
theorem State.Inv.mild (hs : s.Inv) (h : Mild s t) : t.Inv where
  block_pos := h.config ▸ hs.block_pos
  ok := h.ok
  directory := by
    rw [h.committed, h.totalTokens]
    refine hs.directory.congr h.config ?_ h.history h.nodes fun p _ => ?_
    · rw [State.blockCount, h.quiet.config]
      rfl
    · have hextent := h.extent p.2.slot
      exact ⟨hextent.historyPosStart, hextent.repositoryGeneration, hextent.origPosStart,
        hextent.nTokens⟩
  generation i := by
    rw [(h.extent i).repositoryGeneration, h.quiet.sequence]
    exact hs.generation i
  append a ha := (hs.append a (h.append ▸ ha)).mild h
  rewind w hw := (hs.rewind w (h.rewind ▸ hw)).mild h
  exclusive := by
    rw [h.append, h.rewind]
    exact hs.exclusive

namespace Mild

theorem refl (hs : s.repo.Ok s.held) : Mild s s :=
  ⟨rfl, rfl, rfl, rfl, rfl, rfl, rfl, .refl _, fun _ => .refl _, fun _ _ h => h, hs⟩

/-- Only the repository and the leases outside change. -/
theorem repo (hquiet : Quiet s.repo t.repo) (hok : t.repo.Ok s.held)
    (ht : t = { s with repo := t.repo }) : Mild s t := by
  rw [ht]
  exact ⟨rfl, rfl, rfl, rfl, rfl, rfl, rfl, hquiet, fun _ => .refl _, fun _ _ h => h, hok⟩

theorem gcFlags (hs : s.repo.Ok s.held) (flags : ℕ → ℕ) : Mild s { s with gcFlags := flags } :=
  ⟨rfl, rfl, rfl, rfl, rfl, rfl, rfl, .refl _, fun _ => .refl _, fun _ _ h => h, hs⟩

theorem setBlock (hs : s.repo.Ok s.held) {i : ℕ} {b : KvMemBlock}
    (hb : (s.blocks i).SameExtent b) : Mild s (s.setBlock i b) := by
  refine ⟨rfl, rfl, rfl, rfl, rfl, rfl, rfl, .refl _, fun j => ?_, fun _ _ h => h, hs⟩
  show (s.blocks j).SameExtent (Function.update s.blocks i b j)
  by_cases hj : j = i
  · rw [hj, Function.update_self]
    exact hb
  · rw [Function.update_of_ne hj]
    exact .refl _

theorem syncValueBacked (hs : s.repo.Ok s.held) (id : ℕ) : Mild s (s.syncValueBacked id) :=
  gcFlags hs _

end Mild

/-! ## The residency table -/

theorem State.held_resident_update {i : ℕ} {o : Option KvMemBlockHandle} {r : Repo} (j : ℕ) :
    ({ s with repo := r, resident := Function.update s.resident i o } : State).held j +
        (if j = i then s.residentOn i else 0) =
      s.held j + if j = i then (if o.isSome then 1 else 0) else 0 := by
  unfold State.held State.residentOn State.transactionHandles State.checkpointHandles
  by_cases hj : j = i
  · subst hj
    simp only [Function.update_self, if_true]
    omega
  · simp only [Function.update_of_ne hj, if_neg hj]

/-- A lease is taken for a slot that had none. -/
theorem Mild.takeResident (hs : s.repo.Ok s.held) {h : KvMemBlockHandle} {r : Repo}
    (hnone : s.resident h.slot = none) (hpin : s.repo.tryPin h = some r) :
    Mild s { s with repo := r, resident := Function.update s.resident h.slot (some h) } := by
  have hlive := (Repo.tryPin_eq_some hpin).1.2.2.1
  refine ⟨rfl, rfl, rfl, rfl, rfl, rfl, rfl, .tryPin hpin, fun _ => .refl _, fun i hi hi' => ?_, ?_⟩
  · have hne : i ≠ h.slot := by
      rintro rfl
      rw [hlive] at hi
      exact absurd hi (by decide)
    show Function.update s.resident h.slot (some h) i = none
    rw [Function.update_of_ne hne, hi']
  · refine hs.tryPin hpin fun j => ?_
    have heq := s.held_resident_update (i := h.slot) (o := some h) (r := r) j
    rw [State.residentOn, hnone] at heq
    simpa using heq

theorem State.resetResident_resident (s : State) (i : ℕ) :
    (s.resetResident i).resident = Function.update s.resident i none := by
  unfold State.resetResident
  split
  · rfl
  · rename_i hnone
    exact (Function.update_eq_self_iff.mpr hnone.symm).symm

/-- The resident lease of a slot ends. -/
theorem Mild.resetResident (hs : s.repo.Ok s.held) (i : ℕ) : Mild s (s.resetResident i) := by
  have hresident : ∀ j, s.resident j = none → (s.resetResident i).resident j = none := by
    intro j hj
    rw [State.resetResident_resident]
    by_cases hji : j = i
    · rw [hji, Function.update_self]
    · rw [Function.update_of_ne hji, hj]
  unfold State.resetResident at hresident ⊢
  cases hold : s.resident i with
  | none => exact .refl hs
  | some h =>
      refine ⟨rfl, rfl, rfl, rfl, rfl, rfl, rfl, .unpin _ _, fun _ => .refl _, fun j _ hj => ?_, ?_⟩
      · have hkept := hresident j hj
        rw [hold] at hkept
        exact hkept
      · refine hs.unpin (i := i) fun j => ?_
        have heq := s.held_resident_update (i := i) (o := none) (r := s.repo.unpin i) j
        rw [State.residentOn, hold] at heq
        simp only [Option.isSome_some, if_true, Option.isSome_none, Bool.false_eq_true, if_false,
          ite_self, add_zero] at heq
        exact heq.symm

/-! ## Tiers and flags -/

theorem State.validateMutation_eq_ok {id generation : ℕ} {x : Unit}
    (h : s.validateMutation id generation = .ok x) :
    s.repositoryHandle id = ⟨id, generation⟩ ∧ s.repo.Pinnable ⟨id, generation⟩ := by
  unfold State.validateMutation at h
  split_ifs at h with hstale hretired
  · rw [not_or, not_ne_iff] at hstale
    exact ⟨hstale.2.symm, hretired⟩

namespace Mild

theorem moveResident (hs : s.repo.Ok s.held) {id generation : ℕ} {x : Unit}
    (hvalid : s.validateMutation id generation = .ok x) {tier : KvTier}
    (hmove : s.moveResident id tier = .ok t) : Mild s t := by
  unfold State.moveResident at hmove
  split_ifs at hmove with hgpu hsome hworking
  · obtain rfl := Except.ok.inj hmove
    exact .refl hs
  · cases hpin : s.repo.tryPin (s.repositoryHandle id) with
    | none => simp [hpin] at hmove
    | some r =>
        rw [hpin] at hmove
        obtain rfl := Except.ok.inj hmove
        rw [(s.validateMutation_eq_ok hvalid).1] at hpin ⊢
        refine takeResident hs (h := ⟨id, generation⟩) ?_ hpin
        simpa using hsome
  · obtain rfl := Except.ok.inj hmove
    exact .refl hs
  · obtain rfl := Except.ok.inj hmove
    exact resetResident hs id

theorem tierSet (hs : s.repo.Ok s.held) (id : ℕ) (tier : KvTier) (cpuSlot nvmeSlot : ℤ) :
    Mild s (s.tierSet id tier cpuSlot nvmeSlot) := by
  have hextent := KvMemBlock.SameExtent.setTier (s.blocks id) s.config.optimizeStageOut tier
    cpuSlot nvmeSlot
  let b := (s.blocks id).setTier s.config.optimizeStageOut tier cpuSlot nvmeSlot
  let staged := s.config.optimizeStageOut && decide (tier = .cpu ∧ 0 ≤ cpuSlot) && !b.inFlight
  have hset : Mild s (s.setBlock id { b with dirtyGpu := b.dirtyGpu && !staged }) :=
    setBlock hs (hextent.trans ⟨rfl, rfl, rfl, rfl⟩)
  exact hset.trans (gcFlags hset.ok _)

theorem setBlockTier (hs : s.repo.Ok s.held) {id : ℕ} {tier : KvTier} {cpuSlot nvmeSlot : ℤ}
    {generation : ℕ} (h : s.setBlockTier id tier cpuSlot nvmeSlot generation = .ok t) :
    Mild s t := by
  unfold State.setBlockTier at h
  cases hvalid : s.validateMutation id generation with
  | error e => simp [hvalid] at h
  | ok x =>
      rw [hvalid] at h
      cases hmove : s.moveResident id tier with
      | error e => simp [hmove, Except.map] at h
      | ok u =>
          simp only [hmove, Except.map, Except.ok.injEq] at h
          have hmild := moveResident hs hvalid hmove
          rw [← h]
          exact hmild.trans (tierSet hmild.ok id tier cpuSlot nvmeSlot)

/-- A setter that only rewrites the block behind a valid handle. -/
theorem setter {id generation : ℕ} {f : Unit → State}
    (hf : Mild s (f ())) (h : (s.validateMutation id generation).map f = .ok t) : Mild s t := by
  cases hvalid : s.validateMutation id generation with
  | error e => simp [hvalid, Except.map] at h
  | ok x =>
      simp only [hvalid, Except.map, Except.ok.injEq] at h
      rw [← h]
      exact hf

theorem setRepositoryGcFlags (hs : s.repo.Ok s.held) {h : KvMemBlockHandle} {mask values : ℕ}
    (hset : s.setRepositoryGcFlags h mask values = .ok t) : Mild s t := by
  unfold State.setRepositoryGcFlags at hset
  cases hvalid : s.validateMutation h.slot h.generation with
  | error e => simp [hvalid] at hset
  | ok x =>
      simp only [hvalid] at hset
      split_ifs at hset
      obtain rfl := Except.ok.inj hset
      exact gcFlags hs _

end Mild

end Qw3.Store
