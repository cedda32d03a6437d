import Qw3.Store.Invariant

/-!
# Calls outside the transactions

Every call of the store that is not part of a transaction is mild, and so is
every call of the repository's other callers.

* `pinWorkingSet_spec`, `protectLeases_spec` — the leases of a checkpoint.
* `Mild.of_step` — the step lemma, one case for each call.
-/

namespace Qw3.Store

open Qw3.Repository (KvMemBlockHandle Record Repo Control)

variable {s t : State}

/-! ## Reads -/

/-- The read loop only takes leases, and hands them out. -/
theorem readSpans_quiet (s : State) (stop : ℕ) (l : List (ℕ × KvMemBlockHandle)) (covered : ℕ)
    {r : Repo} {held : ℕ → ℕ} (hr : r.Ok held) :
    Quiet r (s.readSpans stop l covered r).2.2 ∧ (s.readSpans stop l covered r).2.2.Ok held := by
  induction l generalizing covered r with
  | nil => exact ⟨.refl r, hr⟩
  | cons p rest ih =>
      obtain ⟨first, h⟩ := p
      unfold State.readSpans
      split_ifs
      · cases hpin : r.tryPin h with
        | none => exact ⟨.refl r, hr⟩
        | some r' =>
            simp only
            split_ifs
            · exact ⟨.refl r, hr⟩
            · have hquiet : Quiet r { r' with leases := h ::ₘ r'.leases } := by
                obtain ⟨hconfig, hsequence, hrecord, hwriting⟩ := Quiet.tryPin hpin
                exact ⟨hconfig, hsequence, hrecord, hwriting⟩
              have hok : ({ r' with leases := h ::ₘ r'.leases } : Repo).Ok held := by
                refine (hr.tryPin hpin fun _ => rfl).give ?_ fun _ => rfl
                rw [(Quiet.tryPin hpin).record]
                exact (Repo.tryPin_eq_some hpin).1.2.1
              exact ⟨hquiet.trans (ih _ hok).1, (ih _ hok).2⟩
      · exact ⟨.refl r, hr⟩

theorem Mild.storageRead (hs : s.repo.Ok s.held) {start count : ℕ} {p : List Span × Repo}
    (h : s.repositoryStorageRead start count = .ok p) : Mild s { s with repo := p.2 } := by
  unfold State.repositoryStorageRead at h
  dsimp only at h
  split_ifs at h
  · rw [← Except.ok.inj h]
    exact .refl hs
  · rw [← Except.ok.inj h]
    obtain ⟨hquiet, hok⟩ := readSpans_quiet s (start + count) (s.history.floor start) start hs
    exact .repo hquiet hok rfl

/-- A clone of a lease of the open append is handed out. -/
theorem Mild.ioLease (hs : s.repo.Ok s.held) {h : KvMemBlockHandle} {r : Repo}
    (hrecord : (s.repo.record h.slot).handle = h) (hclone : s.repo.clone h.slot = some r) :
    Mild s { s with repo := { r with leases := h ::ₘ r.leases } } := by
  obtain ⟨hconfig, hsequence, hrecords, hwriting⟩ := Quiet.clone hclone
  obtain ⟨c, rfl, hphase, hrefs, hne⟩ := Repo.clone_eq_some hclone
  have hkeep := hs.phase_of_refs _ hne
  have hclosed : (s.repo.setControl h.slot c).Ok fun j =>
      s.held j + if j = h.slot then 1 else 0 := by
    refine hs.setControl' ?_ (fun j hj => by rw [if_neg hj, add_zero]) (fun _ => ?_) ?_
    · rw [if_pos rfl, hrefs]
      omega
    · rw [hphase]
      exact hkeep
    · rw [hphase]
  refine .repo ⟨hconfig, hsequence, hrecords, hwriting⟩ (hclosed.give ?_ fun _ => rfl) rfl
  rw [Repo.setControl_record]
  exact hrecord

/-! ## Checkpoints -/

/-- The leases of the working set. -/
theorem pinWorkingSet_spec {l : List ℕ} {r : Repo} {held : ℕ → ℕ} (hr : r.Ok held)
    {p : List KvMemBlockHandle × Repo} (h : s.pinWorkingSet l r = .ok p) :
    Quiet r p.2 ∧ p.2.Ok fun i => held i + countOn p.1 i := by
  induction l generalizing r held p with
  | nil =>
      rw [← Except.ok.inj h]
      exact ⟨.refl r, hr⟩
  | cons i rest ih =>
      unfold State.pinWorkingSet at h
      dsimp only at h
      split_ifs at h
      · exact ih hr h
      · cases hpin : r.tryPin (s.repositoryHandle i) with
        | none => simp [hpin] at h
        | some r' =>
            cases hrest : s.pinWorkingSet rest r' with
            | error e => simp [hpin, hrest, Except.map] at h
            | ok q =>
                simp only [hpin, hrest, Except.map, Except.ok.injEq] at h
                obtain ⟨hquiet, hok⟩ := ih (hr.tryPin hpin fun _ => rfl) hrest
                rw [← h]
                refine ⟨(Quiet.tryPin hpin).trans hquiet, hok.congr fun j => ?_⟩
                rw [countOn_cons]
                omega

/-- Leases are exchanged for those of the working set below a position. -/
theorem protectLeases_spec (held : ℕ → ℕ) (hs : s.repo.Ok s.held) {c : Checkpoint}
    {p : List KvMemBlockHandle × Repo} (h : s.protectLeases c = .ok p)
    (hheld : ∀ i, s.held i + countOn p.1 i = held i + countOn c.leases i) :
    Quiet s.repo p.2 ∧ p.2.Ok held := by
  unfold State.protectLeases at h
  dsimp only at h
  split_ifs at h
  · cases hpinned : s.pinWorkingSet (List.range s.blockCount) s.repo with
    | error e => simp [hpinned, Except.map] at h
    | ok q =>
        simp only [hpinned, Except.map, Except.ok.injEq] at h
        obtain ⟨hquiet, hok⟩ := pinWorkingSet_spec hs hpinned
        rw [← h] at hheld ⊢
        refine ⟨hquiet.trans (.unpinAll _ _), hok.unpinAll _ fun i => ?_⟩
        have hsplit := countOn_filter
          (fun h => decide ((s.repo.record h.slot).tokenBegin < c.position)) q.1 i
        have hcount := hheld i
        rw [countOn_append]
        dsimp only at hcount ⊢
        omega

theorem countOn_flatMap_set {l : List Checkpoint} {id : ℕ} {c : Checkpoint}
    (h : l[id]? = some c) (c' : Checkpoint) (i : ℕ) :
    countOn ((l.set id c').flatMap Checkpoint.leases) i + countOn c.leases i =
      countOn (l.flatMap Checkpoint.leases) i + countOn c'.leases i := by
  induction l generalizing id with
  | nil => simp at h
  | cons d rest ih =>
      cases id with
      | zero =>
          obtain rfl := Option.some.inj h
          rw [List.set_cons_zero, List.flatMap_cons, List.flatMap_cons, countOn_append,
            countOn_append]
          omega
      | succ id =>
          have hrest := ih (show rest[id]? = some c by simpa using h)
          rw [List.set_cons_succ, List.flatMap_cons, List.flatMap_cons, countOn_append,
            countOn_append]
          omega

/-- Only the checkpoints and their leases change. -/
theorem Mild.checkpoints {r : Repo} (table : List (Option ℕ)) {checkpoints : List Checkpoint}
    (hquiet : Quiet s.repo r)
    (hok : r.Ok ({ s with checkpoints := checkpoints } : State).held) :
    Mild s { s with repo := r, table := table, checkpoints := checkpoints } :=
  ⟨rfl, rfl, rfl, rfl, rfl, rfl, rfl, hquiet, fun _ => .refl _, fun _ _ h => h, hok⟩

/-- What the store holds with other checkpoints. -/
theorem held_checkpoints (l : List Checkpoint) (i : ℕ) :
    ({ s with checkpoints := l } : State).held i + countOn (s.checkpoints.flatMap Checkpoint.leases) i =
      s.held i + countOn (l.flatMap Checkpoint.leases) i := by
  unfold State.held State.residentOn State.transactionHandles State.checkpointHandles
  dsimp only
  omega

theorem Mild.repositoryCheckpoint (hs : s.repo.Ok s.held) {position : ℕ} {pin : Bool}
    (h : s.repositoryCheckpoint position pin = .ok t) : Mild s t := by
  unfold State.repositoryCheckpoint at h
  rw [ite_eq_iff, or_iff_right (by simp)] at h
  obtain ⟨-, h⟩ := h
  cases hfree : s.table.findIdx? s.expired with
  | none => simp [hfree] at h
  | some free =>
      have hone : ∀ (c : Checkpoint) (i : ℕ),
          ({ s with checkpoints := s.checkpoints ++ [c] } : State).held i =
            s.held i + countOn c.leases i := by
        intro c i
        have heq := held_checkpoints (s := s) (s.checkpoints ++ [c]) i
        rw [List.flatMap_append, countOn_append, List.flatMap_singleton] at heq
        omega
      simp only [hfree] at h
      cases pin with
      | false =>
          rw [← Except.ok.inj h]
          exact .checkpoints _ (.refl _) (hs.congr fun i => (hone ⟨position, true, [], true, s.written⟩ i).symm)
      | true =>
          simp only [if_true] at h
          cases hleases : s.protectLeases ⟨position, true, [], true, s.written⟩ with
          | error e => simp [hleases, Except.map] at h
          | ok p =>
              simp only [hleases, Except.map, Except.ok.injEq] at h
              rw [← h]
              obtain ⟨hquiet, hok⟩ := protectLeases_spec
                (fun i => s.held i + countOn p.1 i) hs hleases fun i => rfl
              exact .checkpoints _ hquiet (hok.congr fun i =>
                (hone ⟨position, true, p.1, true, s.written⟩ i).symm)

theorem Mild.protect (hs : s.repo.Ok s.held) {id : ℕ}
    (h : s.protectRepositoryCheckpoint id = .ok t) : Mild s t := by
  unfold State.protectRepositoryCheckpoint at h
  cases hc : s.checkpoints[id]? with
  | none => simp [hc] at h
  | some c =>
      simp only [hc] at h
      split_ifs at h
      cases hleases : s.protectLeases c with
      | error e => simp [hleases, Except.map] at h
      | ok p =>
          simp only [hleases, Except.map, Except.ok.injEq] at h
          rw [← h]
          obtain ⟨hquiet, hok⟩ := protectLeases_spec
            ({ s with checkpoints := s.checkpoints.set id { c with leases := p.1 } } : State).held
            hs hleases fun i => by
              have hset := countOn_flatMap_set hc { c with leases := p.1 } i
              have hheld := held_checkpoints (s := s)
                (s.checkpoints.set id { c with leases := p.1 }) i
              dsimp only at hset
              omega
          exact .checkpoints _ hquiet hok

theorem Mild.dropCheckpoint (hs : s.repo.Ok s.held) {id : ℕ} (h : s.dropCheckpoint id = some t) :
    Mild s t := by
  unfold State.dropCheckpoint at h
  cases hc : s.checkpoints[id]? with
  | none => simp [hc] at h
  | some c =>
      simp only [hc] at h
      split_ifs at h
      rw [← Option.some.inj h]
      refine .checkpoints _ (.unpinAll _ _) (hs.unpinAll _ fun i => ?_)
      have hset := countOn_flatMap_set hc { c with alive := false, leases := [] } i
      have hheld := held_checkpoints (s := s)
        (s.checkpoints.set id { c with alive := false, leases := [] }) i
      dsimp only [countOn_nil] at hset
      omega

end Qw3.Store
