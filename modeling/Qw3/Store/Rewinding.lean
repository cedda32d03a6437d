import Qw3.Store.Committing

/-!
# Rewinds

`prepare_repository_rewind` captures every block that can still be pinned and
reaches beyond the position; `RepositoryRewind::commit` cuts or drops what was
captured and unlinks the directory from the position on.

* `captureSpans_spec`, `State.Inv.prepareRewind` — what is captured.
* `Rewinding` — the effect of the commit's loop over the captured spans.
* `unlink_directory` — the directory that remains.
* `State.Inv.commitRewind`, `State.Inv.abandonRewind`.
-/

namespace Qw3.Store

open Qw3.Repository (KvMemBlockHandle Record Repo Control)

variable {s t u : State} {w : Rewind} {position : ℕ}

/-! ## Capturing -/

/-- What the capturing loop has found. -/
theorem captureSpans_spec (hs : s.Inv) {l : List (ℕ × KvMemBlockHandle)}
    (hl : ∀ p ∈ l, p ∈ s.history.entries) {r : Repo} {held : ℕ → ℕ} (hr : r.Ok held)
    {p : List Span × Repo} (h : s.captureSpans position l r = .ok p) :
    Quiet r p.2 ∧ (p.2.Ok fun i => held i + countOn (p.1.map Span.handle) i) ∧
      ∀ sp ∈ p.1, (sp.historyBegin, sp.handle) ∈ s.history.entries ∧
        position ≤ sp.historyBegin + (s.blocks sp.handle.slot).nTokens ∧
        (r.record sp.handle.slot).handle = sp.handle := by
  induction l generalizing r held p with
  | nil =>
      rw [← Except.ok.inj h]
      exact ⟨.refl r, hr, fun sp hsp => absurd hsp List.not_mem_nil⟩
  | cons q rest ih =>
      obtain ⟨first, g⟩ := q
      have hrest : ∀ p ∈ rest, p ∈ s.history.entries := fun p hp => hl p (List.mem_cons_of_mem _ hp)
      have hentry := hl _ List.mem_cons_self
      have hkey : (s.blocks g.slot).historyPosStart = first := (hs.directory.entry _ hentry).key
      unfold State.captureSpans at h
      cases hpin : r.tryPin g with
      | none =>
          simp only [hpin] at h
          exact ih hrest hr h
      | some r' =>
          simp only [hpin] at h
          split_ifs at h with hflight hshort hwhole
          · exact ih hrest hr h
          · cases hmore : s.captureSpans position rest r' with
            | error e => simp [hmore, Except.map] at h
            | ok p' =>
                simp only [hmore, Except.map, Except.ok.injEq] at h
                have hquiet := Quiet.tryPin hpin
                obtain ⟨hquiet', hok, hcaptured⟩ := ih hrest (hr.tryPin hpin fun _ => rfl) hmore
                rw [← h]
                refine ⟨hquiet.trans hquiet', hok.congr fun i => ?_, fun sp hsp => ?_⟩
                · rw [List.map_cons, countOn_cons]
                  dsimp only
                  omega
                · rcases List.mem_cons.mp hsp with rfl | hsp
                  · refine ⟨by rw [hkey]; exact hentry, ?_, (Repo.tryPin_eq_some hpin).1.2.1⟩
                    dsimp only
                    omega
                  · obtain ⟨hmem, hreach, hrecord⟩ := hcaptured sp hsp
                    exact ⟨hmem, hreach, by rw [← hquiet.record, hrecord]⟩

/-- The first entry, if it can be pinned and reaches beyond the position, is
captured. -/
theorem captureSpans_head {first : ℕ} {g : KvMemBlockHandle}
    {rest : List (ℕ × KvMemBlockHandle)} {r : Repo} {p : List Span × Repo}
    (h : s.captureSpans position ((first, g) :: rest) r = .ok p) (hpin : r.Pinnable g) :
    position - (s.blocks g.slot).historyPosStart = (s.blocks g.slot).nTokens ∨
      ∃ sp ∈ p.1, sp.handle = g := by
  obtain ⟨r', hr'⟩ := Option.isSome_iff_exists.mp (Repo.tryPin_isSome.mpr hpin)
  unfold State.captureSpans at h
  simp only [hr'] at h
  split_ifs at h with hflight hshort hwhole
  · exact .inl hwhole
  · cases hmore : s.captureSpans position rest r' with
    | error e => simp [hmore, Except.map] at h
    | ok p' =>
        simp only [hmore, Except.map, Except.ok.injEq] at h
        rw [← h]
        exact .inr ⟨_, List.mem_cons_self, rfl⟩

/-- A position inside a block has this block at its boundary, and every other
entry lies on one side of it. -/
theorem State.Inv.cut_of_capture (hs : s.Inv) {p : List Span × Repo}
    (hcut : position % s.config.blockTokens ≠ 0 → s.PartialTail position)
    (h : s.captureSpans position
      (s.history.lowerBound (position - position % s.config.blockTokens)) s.repo = .ok p)
    {q : ℕ × KvMemBlockHandle} (hq : q ∈ s.history.entries) (hlt : q.1 < position) :
    q.1 + (s.blocks q.2.slot).nTokens ≤ position ∨ ∃ sp ∈ p.1, sp.handle.slot = q.2.slot := by
  have hentry := hs.directory.entry q hq
  have hn := hentry.nTokens_le
  have hb := hs.block_pos
  have hmodle := Nat.mod_le position s.config.blockTokens
  have hmod := Nat.mod_lt position hb
  have hdvd := Nat.dvd_of_mod_eq_zero hentry.aligned
  have hboundary : s.config.blockTokens ∣ position - position % s.config.blockTokens :=
    Nat.dvd_sub_mod position
  by_cases hbelow : q.1 < position - position % s.config.blockTokens
  · have hstep := Nat.le_of_dvd (Nat.sub_pos_of_lt hbelow) (Nat.dvd_sub hboundary hdvd)
    exact .inl (by omega)
  · have hkey : q.1 = position - position % s.config.blockTokens := by
      by_contra hne
      have hstep := Nat.le_of_dvd (Nat.sub_pos_of_lt (by omega : position -
        position % s.config.blockTokens < q.1)) (Nat.dvd_sub hdvd hboundary)
      omega
    have hinside := hcut (by omega)
    unfold State.PartialTail at hinside
    cases hlist : s.history.lowerBound (position - position % s.config.blockTokens) with
    | nil => simp [hlist] at hinside
    | cons e rest =>
        obtain ⟨first, g⟩ := e
        simp only [hlist] at hinside
        have hmem : (first, g) ∈ s.history.entries :=
          (OrdMap.mem_lowerBound.mp (hlist ▸ List.mem_cons_self)).1
        have heq : q = (first, g) := OrdMap.eq_of_mem hq hmem (hkey.trans hinside.1.symm)
        rw [hlist] at h
        rcases captureSpans_head h hinside.2 with hwhole | ⟨sp, hsp, hhandle⟩
        · left
          have hg := hentry.key
          rw [heq] at hg ⊢
          dsimp only at hg ⊢
          omega
        · exact .inr ⟨sp, hsp, by rw [hhandle, heq]⟩

/-- What the store holds while a rewind is open. -/
theorem State.held_rewind {r : Repo} (happend : s.append = none) (i : ℕ) :
    ({ s with repo := r, rewind := some w } : State).held i =
      s.residentOn i + countOn w.handles i + countOn s.checkpointHandles i := by
  unfold State.held State.residentOn State.transactionHandles State.checkpointHandles
  simp [happend]

theorem State.held_of_rewind (happend : s.append = none) (hrewind : s.rewind = some w) (i : ℕ) :
    s.held i = s.residentOn i + countOn w.handles i + countOn s.checkpointHandles i := by
  have hsame : ({ s with repo := s.repo, rewind := some w } : State) = s := by rw [← hrewind]
  rw [← State.held_rewind (r := s.repo) happend, hsame]

/-- A rewind that was prepared: to the end, or with what the loop has captured. -/
theorem prepareRewind_eq_ok (h : s.prepareRepositoryRewind position = .ok t) :
    s.append = none ∧ s.rewind = none ∧ position ≤ s.totalTokens ∧
      (position = s.totalTokens ∧ t = { s with rewind := some ⟨position, []⟩ } ∨
        (position % s.config.blockTokens ≠ 0 → s.PartialTail position) ∧
          ∃ p, s.captureSpans position
              (s.history.lowerBound (position - position % s.config.blockTokens)) s.repo = .ok p ∧
            t = { s with repo := p.2, rewind := some ⟨position, p.1⟩ }) := by
  unfold State.prepareRepositoryRewind at h
  dsimp only at h
  split_ifs at h with hpending hexceeds hall hcut
  · obtain ⟨happend, hrewind⟩ := s.appendPending_eq_false (by simpa using hpending)
    exact ⟨happend, hrewind, hall.le, .inl ⟨hall, (Except.ok.inj h).symm⟩⟩
  · obtain ⟨happend, hrewind⟩ := s.appendPending_eq_false (by simpa using hpending)
    obtain ⟨p, hcapture, heq⟩ := Except.map_eq_ok.mp h
    rw [not_and, not_not] at hcut
    exact ⟨happend, hrewind, not_lt.mp hexceeds, .inr ⟨hcut, p, hcapture, heq.symm⟩⟩

/-- **A prepared rewind.** -/
theorem State.Inv.prepareRewind (hs : s.Inv) (h : s.prepareRepositoryRewind position = .ok t) :
    t.Inv := by
  obtain ⟨happend, hrewind, hle, ⟨hall, rfl⟩ | ⟨hcut, p, hcapture, rfl⟩⟩ := prepareRewind_eq_ok h
  · constructor
    case block_pos => exact hs.block_pos
    case exclusive => exact .inl happend
    case generation => exact hs.generation
    case append => exact fun a ha => absurd (happend.symm.trans ha) (by simp)
    case directory => exact hs.directory.congr rfl rfl rfl rfl fun _ _ => ⟨rfl, rfl, rfl, rfl⟩
    case ok =>
      refine hs.ok.congr fun i => ?_
      have hopen := State.held_rewind (r := s.repo) (w := ⟨position, []⟩) happend i
      rw [State.held_idle happend hrewind, hopen]
      rfl
    case rewind =>
      intro w hw
      obtain rfl := Option.some.inj hw
      refine ⟨hall.le, fun sp hsp => absurd hsp List.not_mem_nil, fun q hq _ => .inl ?_⟩
      rw [hall]
      exact (hs.directory.entry q hq).limit
  · obtain ⟨hquiet, hok, hcaptured⟩ := captureSpans_spec hs
      (fun q hq => (OrdMap.mem_lowerBound.mp hq).1) hs.ok hcapture
    constructor
    case block_pos => exact hs.block_pos
    case exclusive => exact .inl happend
    case append => exact fun a ha => absurd (happend.symm.trans ha) (by simp)
    case generation =>
      intro i
      show (s.blocks i).repositoryGeneration ≤ p.2.sequence
      rw [hquiet.sequence]
      exact hs.generation i
    case directory =>
      refine hs.directory.congr rfl ?_ rfl rfl fun _ _ => ⟨rfl, rfl, rfl, rfl⟩
      show p.2.config.capacity = s.repo.config.capacity
      rw [hquiet.config]
    case ok =>
      refine hok.congr fun i => ?_
      have hopen := State.held_rewind (r := p.2) (w := ⟨position, p.1⟩) happend i
      rw [State.held_idle happend hrewind, hopen]
      show _ = s.residentOn i + countOn (p.1.map Span.handle) i + countOn s.checkpointHandles i
      omega
    case rewind =>
      intro w hw
      obtain rfl := Option.some.inj hw
      refine ⟨hle, fun sp hsp => ?_, fun q hq hlt => ?_⟩
      · obtain ⟨hmem, hreach, hrecord⟩ := hcaptured sp hsp
        exact ⟨hmem, hreach, (congrArg Record.handle (hquiet.record _)).trans hrecord⟩
      · refine hs.cut_of_capture (fun hne => ?_) hcapture hq hlt
        exact hcut hne

/-! ## Cutting and dropping -/

/-- The captured blocks at `slots` have been cut or dropped. -/
structure Rewinding (position : ℕ) (slots : List ℕ) (s t : State) : Prop where
  frame : t = { s with
    repo := t.repo, blocks := t.blocks, resident := t.resident, gcFlags := t.gcFlags }
  quiet : Quiet s.repo t.repo
  blocks : ∀ i, t.blocks i = if i ∈ slots then (s.blocks i).rewound position else s.blocks i
  ok : t.repo.Ok t.held

theorem KvMemBlock.rewound_historyPosStart (b : KvMemBlock) :
    (b.rewound position).historyPosStart = b.historyPosStart := by
  unfold KvMemBlock.rewound
  split_ifs <;> rfl

theorem KvMemBlock.rewound_repositoryGeneration (b : KvMemBlock) :
    (b.rewound position).repositoryGeneration = b.repositoryGeneration := by
  unfold KvMemBlock.rewound
  split_ifs <;> rfl

theorem KvMemBlock.rewound_origPosStart (b : KvMemBlock) :
    (b.rewound position).origPosStart = b.origPosStart := by
  unfold KvMemBlock.rewound
  split_ifs <;> rfl

theorem KvMemBlock.rewound_nTokens (b : KvMemBlock) :
    (b.rewound position).nTokens = position - b.historyPosStart := by
  unfold KvMemBlock.rewound
  split_ifs with hlt
  · rfl
  · exact (Nat.sub_eq_zero_of_le (not_lt.mp hlt)).symm

/-- Cutting a block twice is cutting it once. -/
theorem KvMemBlock.rewound_rewound (b : KvMemBlock) :
    (b.rewound position).rewound position = b.rewound position := by
  by_cases hlt : b.historyPosStart < position
  · simp [KvMemBlock.rewound, hlt]
  · simp [KvMemBlock.rewound, hlt]

theorem Rewinding.nil (hs : s.repo.Ok s.held) : Rewinding position [] s s :=
  ⟨rfl, .refl _, fun _ => (if_neg List.not_mem_nil).symm, hs⟩

theorem Rewinding.cons {i : ℕ} {rest : List ℕ} (h : Rewinding position [i] s t)
    (h' : Rewinding position rest t u) : Rewinding position (i :: rest) s u where
  frame := by rw [h'.frame, h.frame]
  quiet := h.quiet.trans h'.quiet
  ok := h'.ok
  blocks j := by
    rw [h'.blocks, h.blocks]
    by_cases hj : j = i
    · simp [hj, KvMemBlock.rewound_rewound]
    · simp [hj]

/-- One captured span. -/
theorem rewinding_commitSpan (position : ℕ) (hs : s.repo.Ok s.held) (sp : Span) :
    Rewinding position [sp.handle.slot] s (s.commitSpan position sp) := by
  have hblocks : ∀ (blocks : ℕ → KvMemBlock), blocks = s.blocks → ∀ i,
      Function.update blocks sp.handle.slot ((s.blocks sp.handle.slot).rewound position) i =
        if i ∈ [sp.handle.slot] then (s.blocks i).rewound position else s.blocks i := by
    rintro _ rfl i
    by_cases hi : i = sp.handle.slot
    · simp [hi]
    · simp [hi]
  unfold State.commitSpan
  dsimp only
  split_ifs with hlt
  · exact ⟨rfl, .refl _, hblocks _ rfl, hs⟩
  · have hretired : ({ s with repo := s.repo.retire sp.handle } : State).repo.Ok
        ({ s with repo := s.repo.retire sp.handle } : State).held := hs.retire sp.handle
    have hmild := Mild.resetResident hretired sp.handle.slot
    refine ⟨?_, (Quiet.retire s.repo sp.handle).trans hmild.quiet, hblocks _ ?_, hmild.ok⟩
    · unfold State.resetResident
      cases s.resident sp.handle.slot <;> rfl
    · unfold State.resetResident
      cases s.resident sp.handle.slot <;> rfl

/-- The loop over the captured spans. -/
theorem rewinding_fold (position : ℕ) (hs : s.repo.Ok s.held) (captured : List Span) :
    Rewinding position (captured.map fun sp => sp.handle.slot) s
      (captured.foldl (fun s sp => s.commitSpan position sp) s) := by
  induction captured generalizing s with
  | nil => exact .nil hs
  | cons sp rest ih =>
      have hone := rewinding_commitSpan position hs sp
      exact hone.cons (ih hone.ok)

/-! ## Unlinking -/

theorem unlink_nodes (l : List (ℕ × KvMemBlockHandle)) (nodes : ℕ → Option (ℕ × KvMemBlockHandle))
    (i : ℕ) :
    ((l.foldl (fun (nodes : ℕ → Option (ℕ × KvMemBlockHandle)) e =>
        Function.update nodes e.2.slot (some e)) nodes) i).isSome ↔
      (nodes i).isSome ∨ ∃ e ∈ l, e.2.slot = i := by
  induction l generalizing nodes with
  | nil => simp
  | cons e rest ih =>
      rw [List.foldl_cons, ih]
      by_cases hi : i = e.2.slot
      · simp [hi]
      · simp [Function.update_of_ne hi, Ne.symm hi]

/-- **The directory after a rewind.** -/
theorem unlink_directory (hs : s.Inv) (hw : s.RewindOk w)
    (h : Rewinding w.position (w.captured.map fun sp => sp.handle.slot) s t) :
    (t.unlinkFrom w.position).Directory
      (fun p => if p < w.position then s.committed p else none) w.position := by
  have hhistory : t.history = s.history := by rw [h.frame]
  have hnodes : t.nodes = s.nodes := by rw [h.frame]
  have hconfig : t.config = s.config := by rw [h.frame]
  have hcount : t.blockCount = s.blockCount := by
    rw [State.blockCount, h.quiet.config]
    rfl
  unfold State.unlinkFrom
  refine ⟨fun i hi => ?_, fun p hp => ?_⟩
  · show ((List.foldl _ t.nodes _) i).isSome ↔ _
    rw [unlink_nodes, hnodes, hhistory]
    constructor
    · rintro (hsome | ⟨e, he, rfl⟩) p hp
      · obtain ⟨hp, -⟩ := OrdMap.mem_below.mp hp
        exact (hs.directory.parked i (hcount ▸ hi)).mp hsome p hp
      · obtain ⟨hp, hlt⟩ := OrdMap.mem_below.mp hp
        obtain ⟨he, hle⟩ := OrdMap.mem_lowerBound.mp he
        intro hslot
        rw [hs.directory.eq_of_slot hp he hslot] at hlt
        omega
    · intro hall
      by_contra hnone
      rw [not_or] at hnone
      refine hnone.1 ((hs.directory.parked i (hcount ▸ hi)).mpr fun p hp hslot => ?_)
      rcases lt_or_ge p.1 w.position with hlt | hge
      · exact hall p (OrdMap.mem_below.mpr ⟨hp, hlt⟩) hslot
      · exact hnone.2 ⟨p, OrdMap.mem_lowerBound.mpr ⟨hp, hge⟩, hslot⟩
  · rw [show (t.history.below w.position) = s.history.below w.position by rw [hhistory]] at hp
    obtain ⟨hp, hlt⟩ := OrdMap.mem_below.mp hp
    have hentry := hs.directory.entry p hp
    have hblock : (t.blocks p.2.slot).historyPosStart = p.1 ∧
        (t.blocks p.2.slot).repositoryGeneration = p.2.generation ∧
        (t.blocks p.2.slot).origPosStart = p.2.slot * s.config.blockTokens ∧
        0 < (t.blocks p.2.slot).nTokens ∧
        (t.blocks p.2.slot).nTokens ≤ (s.blocks p.2.slot).nTokens ∧
        p.1 + (t.blocks p.2.slot).nTokens ≤ w.position := by
      rw [h.blocks]
      have hn := hentry.nTokens_pos
      split_ifs with hcaptured
      · obtain ⟨sp, hsp, hslot⟩ := List.mem_map.mp hcaptured
        obtain ⟨hmem, hreach, -⟩ := hw.captured sp hsp
        have heq := hs.directory.eq_of_slot hmem hp hslot
        rw [hslot, show sp.historyBegin = p.1 by rw [← heq]] at hreach
        rw [KvMemBlock.rewound_historyPosStart, KvMemBlock.rewound_repositoryGeneration,
          KvMemBlock.rewound_origPosStart, KvMemBlock.rewound_nTokens, hentry.key]
        exact ⟨rfl, hentry.generation, hentry.origin, by omega, by omega, by omega⟩
      · refine ⟨hentry.key, hentry.generation, hentry.origin, hn, le_rfl, ?_⟩
        refine (hw.cut p hp hlt).resolve_right ?_
        rintro ⟨sp, hsp, hslot⟩
        exact hcaptured (List.mem_map.mpr ⟨sp, hsp, hslot⟩)
    obtain ⟨hkey, hgeneration, horigin, hpos, hle, hlimit⟩ := hblock
    refine
      { slot_lt := hcount ▸ hentry.slot_lt
        key := hkey
        generation := hgeneration
        origin := horigin.trans (congrArg (fun c => p.2.slot * StoreConfig.blockTokens c) hconfig.symm)
        aligned := hconfig ▸ hentry.aligned
        nTokens_pos := hpos
        nTokens_le := hconfig ▸ (hle.trans hentry.nTokens_le)
        limit := hlimit
        placed := fun o ho => ?_ }
    show (if p.1 + o < w.position then s.committed (p.1 + o) else none) =
      some (p.2, p.2.slot * t.config.blockTokens + o)
    have ho' : o < (t.blocks p.2.slot).nTokens := ho
    rw [if_pos (by omega), hconfig]
    exact hentry.placed o (by omega)

/-! ## Ending checkpoints -/

/-- The leases of the checkpoints that end are those that are no longer held. -/
theorem countOn_invalidated (hit : Checkpoint × ℕ → Bool) (l : List Checkpoint) (n i : ℕ) :
    countOn (l.flatMap Checkpoint.leases) i =
      countOn (((l.zipIdx n).map fun c => if hit c then c.1.invalidated else c.1).flatMap
        Checkpoint.leases) i +
      countOn (((l.zipIdx n).filter hit).flatMap fun c => c.1.leases) i := by
  induction l generalizing n with
  | nil => rfl
  | cons c rest ih =>
      rw [List.zipIdx_cons, List.map_cons, List.flatMap_cons, List.flatMap_cons, countOn_append,
        countOn_append, ih (n + 1), List.filter_cons]
      cases hit (c, n)
      · simp only [Bool.false_eq_true, if_false]
        omega
      · simp only [if_true, List.flatMap_cons, countOn_append, Checkpoint.invalidated, countOn_nil]
        omega

theorem Mild.invalidateAbove (hs : s.repo.Ok s.held) (position : ℕ) :
    Mild s (s.invalidateAbove position) := by
  refine .checkpoints s.table (.unpinAll _ _) (hs.unpinAll _ fun i => ?_)
  have hsplit := countOn_invalidated (s.ends position) s.checkpoints 0 i
  have hheld := held_checkpoints (s := s) (s.checkpoints.zipIdx.map fun c =>
    if s.ends position c then c.1.invalidated else c.1) i
  omega

/-! ## The commit -/

/-- A rewind that was committed: what its loop leaves is unlinked, and its leases are still the
object's. -/
theorem State.Inv.commitRewind_eq (hs : s.Inv) (h : s.commitRewind = .ok t) :
    ∃ w u, s.rewind = some w ∧
      u = w.captured.foldl (fun s sp => s.commitSpan w.position sp) (s.invalidateAbove w.position) ∧
      Rewinding w.position (w.captured.map fun sp => sp.handle.slot)
        (s.invalidateAbove w.position) u ∧
      t = { u.unlinkFrom w.position with
        repo := { (u.unlinkFrom w.position).repo with
          leases := (w.captured.map Span.handle : Multiset KvMemBlockHandle) +
            (u.unlinkFrom w.position).repo.leases }
        totalTokens := w.position
        rewind := none
        committed := fun p => if p < w.position then (u.unlinkFrom w.position).committed p else none } := by
  unfold State.commitRewind at h
  split at h
  · cases h
  · rename_i w hrewind
    exact ⟨w, _, hrewind, rfl, rewinding_fold w.position (Mild.invalidateAbove hs.ok w.position).ok _,
      (Except.ok.inj h).symm⟩

/-- **A committed rewind.** -/
theorem State.Inv.commitRewind (hs : s.Inv) (h : s.commitRewind = .ok t) : t.Inv := by
  obtain ⟨w, u, hrewind, -, hfold, rfl⟩ := hs.commitRewind_eq h
  have happend := hs.exclusive.resolve_right (by simp [hrewind])
  have hmild := Mild.invalidateAbove hs.ok w.position
  have hs' := hs.mild hmild
  have hw := hs'.rewind w (hmild.rewind.trans hrewind)
  have hdirectory := unlink_directory hs' hw hfold
  have happend' : u.append = none := by
    rw [hfold.frame]
    exact hmild.append.trans happend
  have hrewind' : u.rewind = some w := by
    rw [hfold.frame]
    exact hmild.rewind.trans hrewind
  have hcommitted : u.committed = s.committed := by
    rw [hfold.frame]
    exact hmild.committed
  constructor
  case block_pos =>
    show 0 < u.config.blockTokens
    rw [hfold.frame]
    exact hs'.block_pos
  case exclusive => exact .inr rfl
  case rewind => exact fun w' hw' => absurd hw' (by simp)
  case append => exact fun a ha => absurd (happend'.symm.trans ha) (by simp)
  case generation =>
    intro i
    show (u.blocks i).repositoryGeneration ≤ u.repo.sequence
    rw [hfold.blocks, hfold.quiet.sequence]
    split_ifs
    · rw [KvMemBlock.rewound_repositoryGeneration]
      exact hs'.generation i
    · exact hs'.generation i
  case directory =>
    rw [hmild.committed, ← hcommitted] at hdirectory
    exact hdirectory.congr rfl rfl rfl rfl fun _ _ => ⟨rfl, rfl, rfl, rfl⟩
  case ok =>
    refine hfold.ok.giveAll w.handles (fun h hh => ?_) fun i => ?_
    · obtain ⟨sp, hsp, rfl⟩ := List.mem_map.mp hh
      show (u.repo.record sp.handle.slot).handle = sp.handle
      rw [hfold.quiet.record]
      exact (hw.captured sp hsp).2.2
    · rw [State.held_of_rewind happend' hrewind']
      unfold State.held State.transactionHandles
      simp [happend', State.residentOn, State.checkpointHandles, State.unlinkFrom]
      omega

theorem abandonRewind_eq_ok (h : s.abandonRewind = .ok t) :
    ∃ w, s.rewind = some w ∧
      t = { s with repo := State.unpinAll (w.captured.map Span.handle) s.repo, rewind := none } := by
  unfold State.abandonRewind at h
  split at h
  · cases h
  · rename_i w hrewind
    exact ⟨w, hrewind, (Except.ok.inj h).symm⟩

/-- **A rewind destroyed before its commit.** -/
theorem State.Inv.abandonRewind (hs : s.Inv) (h : s.abandonRewind = .ok t) : t.Inv := by
  obtain ⟨w, hrewind, rfl⟩ := abandonRewind_eq_ok h
  have happend := hs.exclusive.resolve_right (by simp [hrewind])
  have hquiet := Quiet.unpinAll w.handles s.repo
  constructor
  case block_pos => exact hs.block_pos
  case exclusive => exact .inl happend
  case rewind => exact fun w' hw' => absurd hw' (by simp)
  case append => exact fun a ha => absurd (happend.symm.trans ha) (by simp)
  case generation => exact fun i => (hs.generation i).trans hquiet.sequence.ge
  case directory =>
    refine hs.directory.congr rfl ?_ rfl rfl fun _ _ => ⟨rfl, rfl, rfl, rfl⟩
    exact congrArg Repository.Config.capacity hquiet.config
  case ok =>
    refine hs.ok.unpinAll w.handles fun i => ?_
    rw [State.held_of_rewind happend hrewind]
    unfold State.held State.transactionHandles
    simp [happend, State.residentOn, State.checkpointHandles]
    omega

end Qw3.Store
