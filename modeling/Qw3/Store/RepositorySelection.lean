import Qw3.Store.Identities
import Qw3.Store.Window

/-!
# Selections of a bounded store

`set_repository_selection` and `clear_working_set` with a repository: the
selected blocks are pinned before the plan is made, and the residency table takes
over their leases afterwards.

* `State.setRepositorySelection`, `State.clearRepositoryWorkingSet`.
* `windowMachine` — the bounded store with its selections.
* `window_invariant` — a selection is mild, so the invariant is kept.
-/

namespace Qw3.Store

open Qw3.Repository (KvMemBlockHandle Record Repo)

/-- What a selection throws. -/
inductive SelectionError
  | store (e : StoreError)
  | staleGeneration | retiredBlock
  deriving DecidableEq, Repr

namespace State

variable (s : State)

/-- `earlier(a, b)` with a repository. -/
def earlier (a b : ℕ) : Bool :=
  if (s.blocks a).historyPosStart ≠ (s.blocks b).historyPosStart then
    decide ((s.blocks a).historyPosStart < (s.blocks b).historyPosStart)
  else decide ((s.blocks a).logicalId < (s.blocks b).logicalId)

/-- The loop over the handles: each is the current one of its slot and is
pinned. -/
def pinSelected : List KvMemBlockHandle → Repo → Except SelectionError Repo
  | [], r => pure r
  | h :: rest, r =>
      if h ≠ s.repositoryHandle h.slot ∨ h.generation = 0 then throw .staleGeneration
      else
        match r.tryPin h with
        | none => throw .retiredBlock
        | some r => pinSelected rest r

/-- The leases of a selection: on the selected blocks, and on the window before.
The handles of the latter, and the repository with both. -/
def selectionLeases (handles : List KvMemBlockHandle) :
    Except SelectionError (List KvMemBlockHandle × Repo) :=
  if s.appendPending then throw (.store .unfinishedAppend)
  else
    match s.pinSelected handles s.repo with
    | .error e => throw e
    | .ok r => (s.pinWorkingSet (List.range s.blockCount) r).mapError .store

/-- What the selection is given, with the repository at that moment. -/
def windowInput (r : Repo) (handles : List KvMemBlockHandle) : WindowInput where
  n := s.blockCount
  present i := decide (r.Pinnable (s.repositoryHandle i))
  selected i := decide (i ∈ handles.map KvMemBlockHandle.slot)
  earlier := s.earlier
  blocks := s.blocks

/-- `repository_resident_leases_[slot] = std::move(lease)`. -/
def seat (h : KvMemBlockHandle) : State :=
  let t := s.resetResident h.slot
  { t with resident := Function.update t.resident h.slot (some h) }

/-- The resident leases of the given blocks end. -/
def resetWhere (leaves : ℕ → Bool) (l : List ℕ) : State :=
  l.foldl (fun t i => if leaves i then t.resetResident i else t) s

/-- The store with the packed blocks; the leases of the window before have gone
with the plan. -/
def repacked (old : List KvMemBlockHandle) (r : Repo) (blocks : ℕ → KvMemBlock) : State :=
  { s with
    repo := { r with leases := (old : Multiset KvMemBlockHandle) + r.leases }
    blocks := blocks }

/-- `set_repository_selection(handles, force_raw_refresh)`. -/
def setRepositorySelection (c : SelectionConfig) (handles : List KvMemBlockHandle) (force : Bool) :
    Except SelectionError (KvMemPlan × State) :=
  (s.selectionLeases handles).map fun p =>
    let w := s.windowInput p.2 handles
    let ids := sortUnique s.earlier (handles.map KvMemBlockHandle.slot)
    let packed := selectionImpl c force true w.present w.n w.selected ids s.blocks
    let leaves := fun i => !(packed.2 i).inWorkingSet && decide ((packed.2 i).tier ≠ .gpu)
    (packed.1, handles.foldl seat
      ((s.repacked p.1 p.2 packed.2).resetWhere leaves (List.range s.blockCount)))

/-- No block is in the working set. -/
def emptied : State := { s with blocks := fun i => { s.blocks i with inWorkingSet := false } }

/-- `clear_working_set()` with a repository. -/
def clearRepositoryWorkingSet : Except SelectionError State :=
  if s.appendPending then throw (.store .unfinishedAppend)
  else
    let leaves := fun i => decide ((s.blocks i).tier ≠ .gpu)
    pure (s.emptied.resetWhere leaves (List.range s.blockCount))

end State

/-! ## The machine -/

/-- A call of a bounded store, selections included. -/
inductive WindowAction
  | call (a : Action)
  | setRepositorySelection (handles : List KvMemBlockHandle) (force : Bool)
  | clearWorkingSet
  deriving DecidableEq, Repr

/-- A call takes effect; `none` where it throws or returns without effect. -/
def State.windowStep (c : SelectionConfig) (s : State) : WindowAction → Option State
  | .call a => s.step a
  | .setRepositorySelection handles force =>
      ((s.setRepositorySelection c handles force).map Prod.snd).toOption
  | .clearWorkingSet => s.clearRepositoryWorkingSet.toOption

/-- The machine of a bounded store with its selections. -/
def windowMachine (c : SelectionConfig) : Machine State WindowAction where
  init := machine.init
  step := State.windowStep c

variable {s t u : State}

/-! ## The residency table -/

/-- Only the residency table and its leases change, at most on the given slots
where there was none. -/
structure Reseated (slots : List ℕ) (s t : State) : Prop where
  frame : t = { s with repo := t.repo, resident := t.resident }
  quiet : Quiet s.repo t.repo
  resident : ∀ i ∉ slots, s.resident i = none → t.resident i = none

namespace Reseated

theorem blocks {l : List ℕ} (h : Reseated l s t) : t.blocks = s.blocks := by rw [h.frame]

theorem refl (s : State) : Reseated [] s s := ⟨rfl, .refl _, fun _ _ h => h⟩

theorem trans {l l' : List ℕ} (h : Reseated l s t) (h' : Reseated l' t u) :
    Reseated (l ++ l') s u where
  frame := by
    rw [h'.frame, h.frame]
  quiet := h.quiet.trans h'.quiet
  resident i hi hnone := by
    rw [List.mem_append, not_or] at hi
    exact h'.resident i hi.2 (h.resident i hi.1 hnone)

theorem resetResident (s : State) (i : ℕ) : Reseated [] s (s.resetResident i) := by
  have hresident : ∀ j, s.resident j = none → (s.resetResident i).resident j = none := by
    intro j hj
    rw [State.resetResident_resident]
    by_cases hji : j = i
    · rw [hji, Function.update_self]
    · rw [Function.update_of_ne hji, hj]
  refine ⟨?_, ?_, fun j _ => hresident j⟩
  · unfold State.resetResident
    split <;> rfl
  · unfold State.resetResident
    split
    · exact .unpin _ _
    · exact .refl _

theorem seat (s : State) (h : KvMemBlockHandle) : Reseated [h.slot] s (s.seat h) := by
  obtain ⟨hframe, hquiet, hresident⟩ := resetResident s h.slot
  refine ⟨?_, hquiet, ?_⟩
  · unfold State.seat
    dsimp only
    rw [hframe]
  · intro i hi hnone
    rw [List.mem_singleton] at hi
    unfold State.seat
    dsimp only
    rw [Function.update_of_ne hi]
    exact hresident i List.not_mem_nil hnone

theorem resetWhere (s : State) (leaves : ℕ → Bool) (l : List ℕ) :
    Reseated [] s (s.resetWhere leaves l) := by
  unfold State.resetWhere
  induction l generalizing s with
  | nil => exact refl s
  | cons i rest ih =>
      rw [List.foldl_cons]
      split_ifs
      · exact (resetResident s i).trans (ih _)
      · exact ih s

theorem seats (s : State) (handles : List KvMemBlockHandle) :
    Reseated (handles.map KvMemBlockHandle.slot) s (handles.foldl State.seat s) := by
  induction handles generalizing s with
  | nil => exact refl s
  | cons h rest ih => exact (seat s h).trans (ih _)

end Reseated

/-! ## The leases -/

/-- The leases of the store and of a list of handles that is on its way into
the table are accounted for. -/
def State.Seating (s : State) (handles : List KvMemBlockHandle) : Prop :=
  s.repo.Ok fun i => s.held i + countOn handles i

variable {handles : List KvMemBlockHandle}

theorem State.Seating.resetResident (hs : s.Seating handles)
    (i : ℕ) : (s.resetResident i).Seating handles := by
  unfold State.resetResident
  cases hold : s.resident i with
  | none => exact hs
  | some h =>
      dsimp only
      refine Repo.Ok.unpin (i := i) hs ?_
      intro j
      have heq := s.held_resident_update (i := i) (o := none) (r := s.repo.unpin i) j
      rw [State.residentOn, hold] at heq
      simp only [Option.isSome_some, if_true, Option.isSome_none, Bool.false_eq_true, if_false,
        ite_self, add_zero] at heq
      omega

theorem State.Seating.resetWhere (hs : s.Seating handles)
    (leaves : ℕ → Bool) (l : List ℕ) : (s.resetWhere leaves l).Seating handles := by
  unfold State.resetWhere
  induction l generalizing s with
  | nil => exact hs
  | cons i rest ih =>
      rw [List.foldl_cons]
      split_ifs
      · exact ih (hs.resetResident i)
      · exact ih hs

/-- The first lease moves into the table. -/
theorem State.Seating.seat {h : KvMemBlockHandle} {rest : List KvMemBlockHandle}
    (hs : s.Seating (h :: rest)) : (s.seat h).Seating rest := by
  have hreset := hs.resetResident h.slot
  refine hreset.congr ?_
  intro j
  have heq := (s.resetResident h.slot).held_resident_update (i := h.slot) (o := some h)
    (r := (s.resetResident h.slot).repo) j
  rw [State.residentOn, State.resetResident_resident, Function.update_self] at heq
  simp only [Option.isSome_some, if_true, Option.isSome_none, Bool.false_eq_true, if_false,
    ite_self, add_zero] at heq
  unfold State.seat
  dsimp only
  rw [countOn_cons, State.resetResident_resident, heq]
  omega

theorem State.Seating.seats (hs : s.Seating handles) :
    (handles.foldl State.seat s).Seating [] := by
  induction handles generalizing s with
  | nil => exact hs
  | cons h rest ih => exact ih hs.seat

theorem tryPin_phase {r r' : Repo} {h : KvMemBlockHandle} (hpin : r.tryPin h = some r')
    (i : ℕ) : r'.phase i = r.phase i := by
  obtain ⟨hpinnable, c, rfl, hphase, -⟩ := Repo.tryPin_eq_some hpin
  rw [Repo.setControl_phase]
  split_ifs with hi
  · rw [hphase, hi, hpinnable.2.2.1]
  · rfl

/-- The selected blocks are the current ones of their slots, and they are pinned. -/
theorem pinSelected_spec {r r' : Repo} {held : ℕ → ℕ}
    (hr : r.Ok held) (h : s.pinSelected handles r = .ok r') :
    Quiet r r' ∧ (r'.Ok fun i => held i + countOn handles i) ∧
      ∀ g ∈ handles, g = s.repositoryHandle g.slot ∧ g.generation ≠ 0 ∧
        r.phase g.slot = .live ∧ (r.record g.slot).handle = g := by
  induction handles generalizing r held with
  | nil =>
      rw [← Except.ok.inj h]
      exact ⟨.refl r, hr, fun g hg => by cases hg⟩
  | cons g rest ih =>
      unfold State.pinSelected at h
      split_ifs at h with hstale
      rw [not_or, not_ne_iff] at hstale
      cases hpin : r.tryPin g with
      | none => simp [hpin] at h
      | some r₁ =>
          rw [hpin] at h
          have hquiet := Quiet.tryPin hpin
          obtain ⟨hrest, hok, hmem⟩ := ih (hr.tryPin hpin fun _ => rfl) h
          refine ⟨hquiet.trans hrest, hok.congr fun j => ?_, ?_⟩
          · rw [countOn_cons]
            omega
          · intro f hf
            rcases List.mem_cons.mp hf with rfl | hf
            · have hpinnable := (Repo.tryPin_eq_some hpin).1
              exact ⟨hstale.1, hstale.2, hpinnable.2.2.1, hpinnable.2.1⟩
            · obtain ⟨hcurrent, hne, hphase, hrecord⟩ := hmem f hf
              rw [tryPin_phase hpin] at hphase
              rw [hquiet.record] at hrecord
              exact ⟨hcurrent, hne, hphase, hrecord⟩

/-- The leases on the window before are on blocks of the repository. -/
theorem pinWorkingSet_record {l : List ℕ} {r : Repo} {p : List KvMemBlockHandle × Repo}
    (h : s.pinWorkingSet l r = .ok p) : ∀ g ∈ p.1, (r.record g.slot).handle = g := by
  induction l generalizing r p with
  | nil =>
      obtain rfl := Except.ok.inj h
      exact fun g hg => by cases hg
  | cons i rest ih =>
      unfold State.pinWorkingSet at h
      dsimp only at h
      split_ifs at h
      · exact ih h
      · cases hpin : r.tryPin (s.repositoryHandle i) with
        | none => simp [hpin] at h
        | some r' =>
            cases hrest : s.pinWorkingSet rest r' with
            | error e => simp [hpin, hrest, Except.map] at h
            | ok q =>
                simp only [hpin, hrest, Except.map, Except.ok.injEq] at h
                rw [← h]
                intro g hg
                rcases List.mem_cons.mp hg with rfl | hg
                · exact (Repo.tryPin_eq_some hpin).1.2.1
                · rw [← (Quiet.tryPin hpin).record]
                  exact ih hrest g hg

/-- What the leases of a selection are. -/
structure SelectionLeases (s : State) (handles old : List KvMemBlockHandle) (r : Repo) : Prop where
  idle : s.appendPending = false
  quiet : Quiet s.repo r
  ok : r.Ok fun i => s.held i + countOn handles i + countOn old i
  handles : ∀ g ∈ handles, g = s.repositoryHandle g.slot ∧ g.generation ≠ 0 ∧
    s.repo.phase g.slot = .live ∧ (s.repo.record g.slot).handle = g
  old : ∀ g ∈ old, (r.record g.slot).handle = g

theorem selectionLeases_spec (hs : s.repo.Ok s.held)
    {p : List KvMemBlockHandle × Repo} (h : s.selectionLeases handles = .ok p) :
    SelectionLeases s handles p.1 p.2 := by
  unfold State.selectionLeases at h
  split_ifs at h with hpending
  cases hselected : s.pinSelected handles s.repo with
  | error e => simp [hselected] at h
  | ok r =>
      rw [hselected] at h
      cases hwindow : s.pinWorkingSet (List.range s.blockCount) r with
      | error e => simp [hwindow, Except.mapError] at h
      | ok q =>
          simp only [hwindow, Except.mapError, Except.ok.injEq] at h
          obtain rfl := h
          obtain ⟨hquiet, hok, hhandles⟩ := pinSelected_spec hs hselected
          obtain ⟨hquiet', hok'⟩ := pinWorkingSet_spec hok hwindow
          refine ⟨by simpa using hpending, hquiet.trans hquiet', hok', hhandles, ?_⟩
          intro g hg
          rw [hquiet'.record]
          exact pinWorkingSet_record hwindow g hg

/-! ## The blocks -/

/-- The block is the same but for its place in the window. -/
def KvMemBlock.Moved (b b' : KvMemBlock) : Prop :=
  ∃ w p n d, b' = { b with inWorkingSet := w, bakedPos := p, remapCount := n, remapAbsDelta := d }

theorem KvMemBlock.Moved.sameExtent {b b' : KvMemBlock} (h : b.Moved b') : b.SameExtent b' := by
  obtain ⟨w, p, n, d, rfl⟩ := h
  exact ⟨rfl, rfl, rfl, rfl⟩

theorem selectLoop_moved (c : SelectionConfig) (force : Bool) (ids : List ℕ) (window : ℕ)
    (blocks : ℕ → KvMemBlock) (i : ℕ) :
    (blocks i).Moved ((selectLoop c force ids window blocks).2 i) := by
  induction ids generalizing window blocks with
  | nil => exact ⟨_, _, _, _, rfl⟩
  | cons id rest ih =>
      unfold selectLoop
      dsimp only
      obtain ⟨w, p, n, d, heq⟩ := ih (window + (blocks id).nTokens) (Function.update blocks id
        ((blocks id).remapped (remapOf c force id window (blocks id)) window))
      rw [heq]
      by_cases hi : i = id
      · rw [hi, Function.update_self]
        exact ⟨_, _, _, _, rfl⟩
      · rw [Function.update_of_ne hi]
        exact ⟨_, _, _, _, rfl⟩

theorem selectionImpl_moved (c : SelectionConfig) (force repository : Bool) (live : ℕ → Bool)
    (n : ℕ) (selected : ℕ → Bool) (ids : List ℕ) (blocks : ℕ → KvMemBlock) (i : ℕ) :
    (blocks i).Moved ((selectionImpl c force repository live n selected ids blocks).2 i) := by
  unfold selectionImpl
  dsimp only
  obtain ⟨w, p, m, d, heq⟩ := selectLoop_moved c force ids 0
    (fun i => (blocks i).passed c repository (live i) (selected i)) i
  obtain ⟨v, hv⟩ := KvMemBlock.passed_eq c repository (live i) (selected i) (blocks i)
  rw [heq, hv]
  exact ⟨_, _, _, _, rfl⟩

/-! ## The calls -/

/-- The plan of a selection and the packed blocks. -/
def State.packed (s : State) (c : SelectionConfig) (force : Bool) (r : Repo)
    (handles : List KvMemBlockHandle) : KvMemPlan × (ℕ → KvMemBlock) :=
  selectionImpl c force true (s.windowInput r handles).present (s.windowInput r handles).n
    (s.windowInput r handles).selected
    (sortUnique s.earlier (handles.map KvMemBlockHandle.slot)) (s.windowInput r handles).blocks

theorem packed_moved (s : State) (c : SelectionConfig) (force : Bool) (r : Repo)
    (handles : List KvMemBlockHandle) (i : ℕ) :
    (s.blocks i).Moved ((s.packed c force r handles).2 i) :=
  selectionImpl_moved c force true _ _ _ _ s.blocks i

variable {c : SelectionConfig}

/-- What a selection does. -/
theorem setRepositorySelection_eq_ok
    {force : Bool} {plan : KvMemPlan}
    (h : s.setRepositorySelection c handles force = .ok (plan, t)) :
    ∃ old r, s.selectionLeases handles = .ok (old, r) ∧ plan = (s.packed c force r handles).1 ∧
      Reseated (handles.map KvMemBlockHandle.slot)
        (s.repacked old r (s.packed c force r handles).2) t ∧
      (s.repo.Ok s.held → t.repo.Ok t.held) := by
  unfold State.setRepositorySelection at h
  cases hleases : s.selectionLeases handles with
  | error e => simp [hleases, Except.map] at h
  | ok p =>
      obtain ⟨old, r⟩ := p
      simp only [hleases, Except.map, Except.ok.injEq, Prod.mk.injEq] at h
      obtain ⟨rfl, rfl⟩ := h
      refine ⟨old, r, rfl, rfl, ?_, ?_⟩
      · exact (Reseated.resetWhere _ _ _).trans (.seats _ _)
      · intro hs
        obtain ⟨-, -, hok, -, hold⟩ := selectionLeases_spec hs hleases
        have hgiven : (s.repacked old r (s.packed c force r handles).2).Seating handles :=
          hok.giveAll old hold fun i => rfl
        exact (hgiven.resetWhere _ _).seats

theorem Mild.setRepositorySelection (hs : s.repo.Ok s.held)
    {force : Bool} {plan : KvMemPlan}
    (h : s.setRepositorySelection c handles force = .ok (plan, t)) : Mild s t := by
  obtain ⟨old, r, hleases, -, ⟨hframe, hquiet, hresident⟩, hok⟩ := setRepositorySelection_eq_ok h
  obtain ⟨-, hpins, -, hhandles, -⟩ := selectionLeases_spec hs hleases
  have hgiven : Quiet s.repo (s.repacked old r (s.packed c force r handles).2).repo :=
    ⟨hpins.config, hpins.sequence, hpins.record, hpins.writing⟩
  constructor
  case quiet => exact hgiven.trans hquiet
  case extent =>
    intro i
    rw [hframe]
    exact (packed_moved s c force r handles i).sameExtent
  case resident =>
    intro i hwriting hnone
    refine hresident i ?_ hnone
    intro hmem
    obtain ⟨g, hg, rfl⟩ := List.mem_map.mp hmem
    rw [(hhandles g hg).2.2.1] at hwriting
    cases hwriting
  case ok => exact hok hs
  all_goals
    rw [hframe]
    rfl

/-- What the end of the working set does. -/
theorem clearRepositoryWorkingSet_eq_ok (h : s.clearRepositoryWorkingSet = .ok t) :
    Reseated [] s.emptied t ∧
      (s.repo.Ok s.held → t.repo.Ok t.held) := by
  unfold State.clearRepositoryWorkingSet at h
  split_ifs at h
  obtain rfl := Except.ok.inj h
  refine ⟨.resetWhere _ _ _, ?_⟩
  intro hs
  have hempty : s.emptied.Seating [] := hs
  exact hempty.resetWhere _ _

theorem Mild.clearRepositoryWorkingSet (hs : s.repo.Ok s.held)
    (h : s.clearRepositoryWorkingSet = .ok t) : Mild s t := by
  obtain ⟨⟨hframe, hquiet, hresident⟩, hok⟩ := clearRepositoryWorkingSet_eq_ok h
  constructor
  case quiet => exact hquiet
  case extent =>
    intro i
    rw [hframe]
    exact ⟨rfl, rfl, rfl, rfl⟩
  case resident => exact fun i _ hnone => hresident i List.not_mem_nil hnone
  case ok => exact hok hs
  all_goals
    rw [hframe]
    rfl

/-! ## Every run -/

/-- A selection that takes effect. -/
theorem windowStep_select {force : Bool}
    (h : s.windowStep c (.setRepositorySelection handles force) = some t) :
    ∃ plan, s.setRepositorySelection c handles force = .ok (plan, t) := by
  have h := toOption_eq_some h
  cases hselect : s.setRepositorySelection c handles force with
  | error e => simp [hselect, Except.map] at h
  | ok p =>
      simp only [hselect, Except.map, Except.ok.injEq] at h
      exact ⟨p.1, by rw [← h]⟩

theorem inv_windowStep {a : WindowAction} (hs : s.Inv)
    (h : s.windowStep c a = some t) : t.Inv := by
  cases a with
  | call a => exact inv_step hs h
  | setRepositorySelection handles force =>
      obtain ⟨plan, hselect⟩ := windowStep_select h
      exact hs.mild (.setRepositorySelection hs.ok hselect)
  | clearWorkingSet => exact hs.mild (.clearRepositoryWorkingSet hs.ok (toOption_eq_some h))

theorem State.Identified.mild (h : s.Identified) (hmild : Mild s t)
    (hlogical : ∀ i, (t.blocks i).logicalId = (s.blocks i).logicalId) : t.Identified where
  records := (Booked.of_quiet (b := 0) hmild.quiet).distinct h.records
  logicalId i := by
    rw [hlogical, (hmild.extent i).repositoryGeneration]
    exact h.logicalId i

theorem State.Identified.windowStep {a : WindowAction} (hs : s.Inv)
    (hi : s.Identified) (h : s.windowStep c a = some t) : t.Identified := by
  cases a with
  | call a => exact hi.step hs h
  | setRepositorySelection handles force =>
      obtain ⟨plan, hselect⟩ := windowStep_select h
      refine hi.mild (.setRepositorySelection hs.ok hselect) ?_
      intro i
      obtain ⟨old, r, -, -, hseats, -⟩ := setRepositorySelection_eq_ok hselect
      obtain ⟨w, p, n, d, heq⟩ := packed_moved s c force r handles i
      rw [hseats.blocks]
      show ((s.packed c force r handles).2 i).logicalId = (s.blocks i).logicalId
      rw [heq]
  | clearWorkingSet =>
      have h := toOption_eq_some h
      refine hi.mild (.clearRepositoryWorkingSet hs.ok h) ?_
      intro i
      rw [(clearRepositoryWorkingSet_eq_ok h).1.blocks]
      rfl

/-- **The invariant of the bounded store with its selections.** -/
theorem window_invariant (c : SelectionConfig) :
    (windowMachine c).Invariant fun s => s.Inv ∧ s.Identified where
  init s hs := by
    refine ⟨machine_invariant.init s hs, ?_⟩
    obtain ⟨c, r, -, rfl⟩ := hs
    exact .initial c r
  step _ _ _ hs h := ⟨inv_windowStep hs.1 h, hs.2.windowStep hs.1 h⟩

end Qw3.Store
