import Qw3.Lib.Steps
import Qw3.Store.Appending

/-!
# The commit of an append

`RepositoryAppend::commit(accepted)` extends the tail, installs the blocks that
begin before the accepted end, and gives the rest back.

* `commitTail_directory` — the directory with the tail extended.
* `commitReserved_spec` — the installation loop.  It fails only where a slot's
  reference count is saturated; otherwise the directory it leaves is the one of
  `committedBy`.
* `State.Inv.commitAppend_or`, `State.Inv.cancelAppend`.
-/

namespace Qw3.Store

open Qw3.Repository (KvMemBlockHandle Record Repo Control refMask)

variable {s t : State} {a : Append} {G : Placement}

/-! ## What a call that returned has done -/

/-- One reservation of the loop: it is left for `cancelReserved`, or committed and installed. -/
theorem commitReserved_cons_eq_ok {stop : ℕ} {sp : Span} {rest : List Span}
    (h : State.commitReserved a stop (sp :: rest) s = .ok t) :
    stop ≤ sp.historyBegin ∧ State.commitReserved a stop rest s = .ok t ∨
      sp.historyBegin < stop ∧ ∃ r u, s.repo.commit sp.handle = some r ∧
        ({ s with repo := r } : State).install sp.handle (a.bakedBegin + (sp.historyBegin - a.begin))
          (min sp.tokenCount (stop - sp.historyBegin)) = .ok u ∧
        State.commitReserved a stop rest u = .ok t := by
  unfold State.commitReserved at h
  by_cases hlt : stop ≤ sp.historyBegin
  · rw [if_pos hlt] at h
    exact .inl ⟨hlt, h⟩
  · rw [if_neg hlt] at h
    refine .inr ⟨not_le.mp hlt, ?_⟩
    split at h
    · cases h
    · rename_i r hcommit
      dsimp only at h
      split at h
      · cases h
      · rename_i u hinstall
        exact ⟨r, u, hcommit, hinstall, h⟩

theorem commitAppend_eq_ok {accepted : ℕ} :
    s.commitAppend accepted = .ok t ↔
      ∃ a u, s.append = some a ∧ accepted ≤ a.count ∧ s.totalTokens = a.begin ∧
        State.commitReserved a (a.begin + accepted) a.reserved (s.commitTail accepted a.tail) = .ok u ∧
        u.finishAppend a (a.begin + accepted) = t := by
  unfold State.commitAppend
  constructor
  · intro h
    split at h
    · cases h
    · rename_i a happend
      dsimp only at h
      split_ifs at h with hlt hbegin
      obtain ⟨u, hu, hfinish⟩ := Except.map_eq_ok.mp h
      exact ⟨a, u, happend, not_lt.mp hlt, not_not.mp hbegin, hu, hfinish⟩
  · rintro ⟨a, u, happend, hle, hbegin, hu, hfinish⟩
    rw [happend]
    dsimp only
    rw [if_neg (not_lt.mpr hle), if_neg (not_not.mpr hbegin)]
    exact Except.map_eq_ok.mpr ⟨u, hu, hfinish⟩

theorem cancelAppend_eq_ok (h : s.cancelAppend = .ok t) :
    ∃ a, s.append = some a ∧ t = { s with
      repo := State.unpinTail a.tail (State.cancelReserved 0 a.reserved s.repo), append := none } := by
  unfold State.cancelAppend at h
  split at h
  · cases h
  · rename_i a happend
    exact ⟨a, happend, (Except.ok.inj h).symm⟩

/-- The directory after the tail's part of a commit. -/
theorem commitTail_directory (hs : s.Inv) (ha : s.AppendOk a) {accepted : ℕ} :
    (s.commitTail accepted a.tail).Directory (s.committedBy a (a.begin + accepted))
      (a.begin + accepted) := by
  have hb := hs.block_pos
  have hold : ∀ p < s.totalTokens,
      s.committedBy a (a.begin + accepted) p = s.committed p := fun p hp =>
    if_neg fun hin => absurd hin.1 (by rw [ha.begin_eq]; omega)
  have hmono : s.Directory (s.committedBy a (a.begin + accepted)) (a.begin + accepted) :=
    hs.directory.mono (by rw [ha.begin_eq]; omega) hold
  cases htail : a.tail with
  | none => exact hmono
  | some sp =>
      have hsp := ha.tail_some sp htail
      have hle := Nat.mod_le a.begin s.config.blockTokens
      have htake := add_tailTake hb a.begin a.count
      have hfirst : firstBlock s.config.blockTokens a.begin =
        a.begin - a.begin % s.config.blockTokens + s.config.blockTokens := if_neg hsp.offset
      refine ⟨hmono.parked, fun p hp => ?_⟩
      have hentry := hmono.entry p hp
      by_cases hslot : p.2.slot = sp.handle.slot
      · have hp' := hmono.eq_of_slot hp hsp.entry hslot
        subst hp'
        have htokens : (s.blocks sp.handle.slot).nTokens = a.begin % s.config.blockTokens :=
          hsp.nTokens
        have htakes := hsp.tokenCount
        constructor
        case slot_lt => exact hentry.slot_lt
        case aligned => exact hentry.aligned
        all_goals simp only [State.commitTail, Function.update_self, htokens]
        case key => exact hentry.key
        case generation => exact hentry.generation
        case origin => exact hentry.origin
        case nTokens_pos => exact Nat.add_pos_left (Nat.pos_of_ne_zero hsp.offset) _
        case nTokens_le => omega
        case limit => omega
        case placed =>
          intro o ho
          by_cases hold : o < a.begin % s.config.blockTokens
          · exact hentry.placed o (by rw [htokens]; exact hold)
          · have hcovers : sp.Covers
                (a.begin - a.begin % s.config.blockTokens + o) := by
              refine ⟨?_, ?_⟩ <;> rw [hsp.historyBegin] <;> omega
            have hplace := ha.place hb (Append.mem_spans_of_tail htail) hcovers
            unfold State.committedBy
            rw [if_pos ⟨by omega, by omega⟩, hplace, hsp.storageBegin, hsp.historyBegin]
            refine congrArg some (Prod.ext rfl ?_)
            dsimp only
            omega
      · have hblock : (s.commitTail accepted (some sp)).blocks p.2.slot = s.blocks p.2.slot :=
          Function.update_of_ne hslot _ _
        constructor
        case slot_lt => exact hentry.slot_lt
        case aligned => exact hentry.aligned
        all_goals rw [hblock]
        case key => exact hentry.key
        case generation => exact hentry.generation
        case origin => exact hentry.origin
        case nTokens_pos => exact hentry.nTokens_pos
        case nTokens_le => exact hentry.nTokens_le
        case limit => exact hentry.limit
        case placed => exact hentry.placed

theorem residentOn_installed (s : State) (h : KvMemBlockHandle) (bakedPos validTokens : ℕ)
    (history : OrdMap ℕ KvMemBlockHandle) (i : ℕ) :
    (s.installed h bakedPos validTokens history).residentOn i =
      if i = h.slot then 1 else s.residentOn i := by
  show (if (Function.update s.resident h.slot (some h) i).isSome then 1 else 0) = _
  by_cases hi : i = h.slot
  · rw [if_pos hi, hi, Function.update_self]
    rfl
  · rw [if_neg hi, Function.update_of_ne hi]
    rfl

/-- The invariant of the installation loop: the spans `l` from `pos` on are
still to be installed, and `extra` counts what the loop does not touch. -/
structure Installing (G : Placement) (extra : ℕ → ℕ) (a : Append) (stop : ℕ) (s : State)
    (l : List Span) (pos : ℕ) : Prop where
  block_pos : 0 < s.config.blockTokens
  directory : s.Directory G stop
  laid : Laid s.config.blockTokens (a.begin + a.count) pos l
  aligned : s.config.blockTokens ∣ pos
  begin_le : a.begin ≤ pos
  beyond : ∀ p ∈ s.history.entries, p.1 < pos
  reserved : ∀ sp ∈ l, s.Reserved sp
  nodup : (l.map fun sp => sp.handle.slot).Nodup
  placed : ∀ sp ∈ l, ∀ o < sp.tokenCount, sp.historyBegin + o < stop →
    G (sp.historyBegin + o) = some (sp.handle, sp.storageBegin + o)
  ok : s.repo.Ok fun i => s.residentOn i + countOn (l.map Span.handle) i + extra i
  generation : ∀ i, (s.blocks i).repositoryGeneration ≤ s.repo.sequence

/-- What the loop leaves: the blocks from `stop` on are still reserved. -/
structure InstallDone (G : Placement) (extra : ℕ → ℕ) (stop : ℕ) (s t : State) (l : List Span) :
    Prop where
  directory : t.Directory G stop
  ok : t.repo.Ok fun i => t.residentOn i +
    countOn ((l.filter fun sp => stop ≤ sp.historyBegin).map Span.handle) i + extra i
  generation : ∀ i, (t.blocks i).repositoryGeneration ≤ t.repo.sequence
  frame : t = { s with
    repo := t.repo, blocks := t.blocks, resident := t.resident, gcFlags := t.gcFlags,
    history := t.history, nodes := t.nodes, totalTokens := t.totalTokens }

namespace Installing

variable {extra : ℕ → ℕ} {stop pos : ℕ} {sp : Span} {rest : List Span}

/-- A block from `stop` on is passed over. -/
theorem skip (h : Installing G extra a stop s (sp :: rest) pos) :
    Installing G (fun i => extra i + if i = sp.handle.slot then 1 else 0) a stop s rest
      (pos + s.config.blockTokens) where
  block_pos := h.block_pos
  directory := h.directory
  laid := h.laid.2.2.2.2
  aligned := Nat.dvd_add h.aligned (dvd_refl _)
  begin_le := h.begin_le.trans (Nat.le_add_right _ _)
  beyond p hp := Nat.lt_add_right _ (h.beyond p hp)
  reserved q hq := h.reserved q (List.mem_cons_of_mem _ hq)
  nodup := (List.nodup_cons.mp h.nodup).2
  placed q hq := h.placed q (List.mem_cons_of_mem _ hq)
  ok := h.ok.congr fun i => by
    rw [List.map_cons, countOn_cons]
    omega
  generation := h.generation

/-- The block of a committed reservation can be installed, unless its count is
saturated. -/
theorem installable (h : Installing G extra a stop s (sp :: rest) pos)
    (hbaked : a.bakedBegin + (stop - a.begin) ≤ int32Max) (hlt : sp.historyBegin < stop) {r : Repo}
    (hcommit : s.repo.commit sp.handle = some r) (hrefs : s.repo.refs sp.handle.slot ≠ refMask) :
    ({ s with repo := r } : State).Installable sp.handle
      (a.bakedBegin + (sp.historyBegin - a.begin)) (min sp.tokenCount (stop - sp.historyBegin)) := by
  obtain ⟨-, rfl⟩ := Repo.commit_eq_some hcommit
  obtain ⟨hpos, hbegin, -, hcount, -⟩ := h.laid
  have hreserved := h.reserved sp List.mem_cons_self
  have hle := h.begin_le
  have hmod := Nat.mod_eq_zero_of_dvd h.aligned
  have hb := h.block_pos
  constructor
  case pinnable =>
    refine ⟨hreserved.slot_lt, ?_, ?_, ?_⟩
    · show ((s.repo.setControl _ _).record _).handle = _
      rw [Repo.setControl_record, hreserved.record]
    · show (s.repo.setControl _ _).phase _ = _
      rw [Repo.setControl_phase, if_pos rfl, Control.withPhase_phase]
    · show (s.repo.setControl _ _).refs _ ≠ _
      rw [Repo.setControl_refs, if_pos rfl, Control.withPhase_refs]
      exact hrefs
  case resident => exact hreserved.resident
  case generation => exact hreserved.generation
  case blockTokens =>
    show ((s.repo.setControl _ _).record _).tokenCount = _
    rw [Repo.setControl_record, hreserved.record]
  case aligned =>
    show ((s.repo.setControl _ _).record _).tokenBegin % _ = 0
    rw [Repo.setControl_record, hreserved.record, hbegin]
    exact hmod
  case valid_pos => omega
  case valid_le =>
    show min sp.tokenCount (stop - sp.historyBegin) ≤ s.config.blockTokens
    omega
  case baked => omega

/-- **One installation.** -/
theorem step (h : Installing G extra a stop s (sp :: rest) pos)
    (hbaked : a.bakedBegin + (stop - a.begin) ≤ int32Max) (hlt : sp.historyBegin < stop) {r : Repo}
    (hcommit : s.repo.commit sp.handle = some r) (hrefs : s.repo.refs sp.handle.slot ≠ refMask) :
    ∃ t, ({ s with repo := r } : State).install sp.handle
        (a.bakedBegin + (sp.historyBegin - a.begin)) (min sp.tokenCount (stop - sp.historyBegin)) =
          .ok t ∧ Installing G extra a stop t rest (pos + s.config.blockTokens) ∧
      (∀ i, i ≠ sp.handle.slot → t.repo.refs i = s.repo.refs i) ∧ t.config = s.config ∧
      t = { s with
        repo := t.repo, blocks := t.blocks, resident := t.resident, gcFlags := t.gcFlags,
        history := t.history, nodes := t.nodes, totalTokens := t.totalTokens } := by
  have hinstallable := h.installable hbaked hlt hcommit hrefs
  have hokr := h.ok.commit hcommit
  obtain ⟨-, rfl⟩ := Repo.commit_eq_some hcommit
  obtain ⟨hpos, hbegin, hstorage, -, hlaid⟩ := h.laid
  have hreserved := h.reserved sp List.mem_cons_self
  have hnodup := List.nodup_cons.mp h.nodup
  have hne : ∀ q ∈ rest, q.handle.slot ≠ sp.handle.slot := fun q hq heq =>
    hnodup.1 (List.mem_map.mpr ⟨q, hq, heq⟩)
  let r := s.repo.setControl sp.handle.slot
    ((s.repo.cells sp.handle.slot).control.withPhase .live)
  have hrecord : ∀ i, r.record i = s.repo.record i := fun i => Repo.setControl_record _ _ _
  have htoken : (r.record sp.handle.slot).tokenBegin = pos := by
    rw [hrecord, hreserved.record, hbegin]
  have hdirectory : ({ s with repo := r } : State).Directory G stop :=
    h.directory.congr rfl rfl rfl rfl fun _ _ => ⟨rfl, rfl, rfl, rfl⟩
  obtain ⟨history, hinstall, hinstalled, hentries⟩ := install_spec hdirectory hinstallable
    (fun p hp => by
      show p.1 < (r.record sp.handle.slot).tokenBegin
      rw [htoken]
      exact h.beyond p hp)
    (by
      show (r.record sp.handle.slot).tokenBegin + min sp.tokenCount (stop - sp.historyBegin) ≤ stop
      rw [htoken]
      omega)
    (fun o ho => by
      show G ((r.record sp.handle.slot).tokenBegin + o) = _
      rw [htoken, ← hbegin, h.placed sp List.mem_cons_self o (by omega) (by omega), hstorage])
  refine ⟨_, hinstall, ?_, fun i hi => ?_, rfl, rfl⟩
  · constructor
    case block_pos => exact h.block_pos
    case directory => exact hinstalled
    case laid => exact hlaid
    case aligned => exact Nat.dvd_add h.aligned (dvd_refl _)
    case begin_le => exact h.begin_le.trans (Nat.le_add_right _ _)
    case nodup => exact hnodup.2
    case placed => exact fun q hq => h.placed q (List.mem_cons_of_mem _ hq)
    case beyond =>
      intro p hp
      rcases hentries p hp with hp | rfl
      · exact Nat.lt_add_right _ (h.beyond p hp)
      · show (r.record sp.handle.slot).tokenBegin < pos + s.config.blockTokens
        rw [htoken]
        exact Nat.lt_add_of_pos_right h.block_pos
    case reserved =>
      intro q hq
      have hold := h.reserved q (List.mem_cons_of_mem _ hq)
      refine ⟨hold.slot_lt, ?_, ?_, ?_, ?_⟩
      · show r.phase q.handle.slot = .writing
        rw [Repo.setControl_phase, if_neg (hne q hq)]
        exact hold.writing
      · show r.record q.handle.slot = _
        rw [hrecord]
        exact hold.record
      · show Function.update s.resident sp.handle.slot _ q.handle.slot = none
        rw [Function.update_of_ne (hne q hq)]
        exact hold.resident
      · show (Function.update s.blocks sp.handle.slot _ q.handle.slot).repositoryGeneration < _
        rw [Function.update_of_ne (hne q hq)]
        exact hold.generation
    case ok =>
      refine hokr.congr fun i => ?_
      rw [List.map_cons, countOn_cons, residentOn_installed]
      split_ifs with hi
      · have hzero : s.residentOn i = 0 := by
          rw [hi, State.residentOn, hreserved.resident]
          rfl
        omega
      · show s.residentOn i + (countOn (rest.map Span.handle) i + 0) + extra i =
          s.residentOn i + countOn (rest.map Span.handle) i + extra i
        omega
    case generation =>
      intro i
      unfold State.installed
      dsimp only
      by_cases hi : i = sp.handle.slot
      · subst hi
        have hle := hokr.generation sp.handle.slot
        rw [hrecord, hreserved.record] at hle
        rw [Function.update_self]
        exact hle
      · rw [Function.update_of_ne hi]
        exact h.generation i
  · show r.refs i = s.repo.refs i
    rw [Repo.setControl_refs, if_neg hi]

end Installing

/-- **The installation loop.**  It ends with every block before `stop` in the
directory, or at a slot with a saturated count. -/
theorem commitReserved_spec {extra : ℕ → ℕ} {stop pos : ℕ} {l : List Span}
    (h : Installing G extra a stop s l pos) (hbaked : a.bakedBegin + (stop - a.begin) ≤ int32Max) :
    (∃ t, State.commitReserved a stop l s = .ok t ∧ InstallDone G extra stop s t l) ∨
      State.commitReserved a stop l s = .error .staleLease ∧
        ∃ sp ∈ l, s.repo.refs sp.handle.slot = refMask := by
  induction l generalizing s pos extra with
  | nil => exact .inl ⟨s, rfl, h.directory, h.ok, h.generation, rfl⟩
  | cons sp rest ih =>
      unfold State.commitReserved
      by_cases hlt : stop ≤ sp.historyBegin
      · rw [if_pos hlt]
        rcases ih h.skip with ⟨t, ht, hdirectory, hok, hgeneration, hframe⟩ | ⟨herror, q, hq, hmask⟩
        · refine .inl ⟨t, ht, hdirectory, hok.congr fun i => ?_, hgeneration, hframe⟩
          rw [List.filter_cons_of_pos (by simpa using hlt), List.map_cons, countOn_cons]
          omega
        · exact .inr ⟨herror, q, List.mem_cons_of_mem _ hq, hmask⟩
      · rw [if_neg hlt]
        have hwriting := (h.reserved sp List.mem_cons_self).writing
        have hcommit : s.repo.commit sp.handle = some (s.repo.setControl sp.handle.slot
          ((s.repo.cells sp.handle.slot).control.withPhase .live)) := if_pos hwriting
        simp only [hcommit]
        by_cases hrefs : s.repo.refs sp.handle.slot = refMask
        · refine .inr ⟨?_, sp, List.mem_cons_self, hrefs⟩
          have hnot : ¬ (s.repo.setControl sp.handle.slot ((s.repo.cells
              sp.handle.slot).control.withPhase .live)).Pinnable sp.handle := fun hpin =>
            hpin.2.2.2 (by rw [Repo.setControl_refs, if_pos rfl, Control.withPhase_refs]; exact hrefs)
          unfold State.install
          rw [if_pos hnot]
          rfl
        · obtain ⟨u, hinstall, hnext, hsame, -, hframe⟩ :=
            h.step hbaked (not_le.mp hlt) hcommit hrefs
          rw [hinstall]
          rcases ih hnext with ⟨t, ht, hdirectory, hok, hgeneration, hframe'⟩ | ⟨herror, q, hq, hmask⟩
          · refine .inl ⟨t, ht, hdirectory, ?_, hgeneration, ?_⟩
            · rw [List.filter_cons_of_neg (by simpa using hlt)]
              exact hok
            · rw [hframe', hframe]
          · refine .inr ⟨herror, q, List.mem_cons_of_mem _ hq, ?_⟩
            rw [← hsame q.handle.slot fun heq => ?_]
            · exact hmask
            · exact (List.nodup_cons.mp h.nodup).1 (List.mem_map.mpr ⟨q, hq, heq⟩)

/-! ## Finishing -/

theorem cancel_fixed (r : Repo) (h : KvMemBlockHandle) :
    (r.cancel h).config = r.config ∧ (r.cancel h).sequence = r.sequence := by
  unfold Repo.cancel
  dsimp only
  split_ifs <;> exact ⟨rfl, rfl⟩

/-- What is given back changes neither the capacity nor the identities used. -/
theorem cancelReserved_fixed (stop : ℕ) (spans : List Span) (r : Repo) :
    (State.cancelReserved stop spans r).config = r.config ∧
      (State.cancelReserved stop spans r).sequence = r.sequence := by
  unfold State.cancelReserved
  induction spans.filter fun sp => decide (stop ≤ sp.historyBegin) generalizing r with
  | nil => exact ⟨rfl, rfl⟩
  | cons sp rest ih =>
      obtain ⟨hconfig, hsequence⟩ := ih (r.cancel sp.handle)
      obtain ⟨hconfig', hsequence'⟩ := cancel_fixed r sp.handle
      exact ⟨hconfig.trans hconfig', hsequence.trans hsequence'⟩

theorem unpinTail_ok {r : Repo} {held held' : ℕ → ℕ} {tail : Option Span} (hr : r.Ok held)
    (hheld : ∀ i, held i = held' i + countOn (tail.toList.map Span.handle) i) :
    (State.unpinTail tail r).Ok held' := by
  cases tail with
  | none => exact hr.congr hheld
  | some sp =>
      refine hr.unpin (i := sp.handle.slot) fun i => ?_
      rw [hheld]
      simp [countOn_cons]

theorem unpinTail_fixed (tail : Option Span) (r : Repo) :
    (State.unpinTail tail r).config = r.config ∧
      (State.unpinTail tail r).sequence = r.sequence := by
  cases tail <;> exact ⟨rfl, rfl⟩

/-- What an append still holds is given back. -/
theorem giveBack_spec {r : Repo} {held : ℕ → ℕ} (held' : ℕ → ℕ) (a : Append) (stop : ℕ) (hr : r.Ok held)
    (hheld : ∀ i, held i = held' i + countOn (a.tail.toList.map Span.handle) i +
      countOn ((a.reserved.filter fun sp => stop ≤ sp.historyBegin).map Span.handle) i) :
    (State.unpinTail a.tail (State.cancelReserved stop a.reserved r)).Ok held' ∧
      (State.unpinTail a.tail (State.cancelReserved stop a.reserved r)).config = r.config ∧
      (State.unpinTail a.tail (State.cancelReserved stop a.reserved r)).sequence =
        r.sequence := by
  obtain ⟨hconfig, hsequence⟩ := cancelReserved_fixed stop a.reserved r
  obtain ⟨hconfig', hsequence'⟩ := unpinTail_fixed a.tail
    (State.cancelReserved stop a.reserved r)
  exact ⟨unpinTail_ok (hr.cancelAll hheld) fun _ => rfl, hconfig'.trans hconfig,
    hsequence'.trans hsequence⟩

/-- The tail's part of a commit leaves identities, leases and directory alone. -/
theorem commitTail_frame (s : State) (accepted : ℕ) (tail : Option Span) :
    s.commitTail accepted tail = { s with
        blocks := (s.commitTail accepted tail).blocks
        gcFlags := (s.commitTail accepted tail).gcFlags } ∧
      ∀ i, ((s.commitTail accepted tail).blocks i).repositoryGeneration =
        (s.blocks i).repositoryGeneration := by
  cases tail with
  | none => exact ⟨rfl, fun _ => rfl⟩
  | some sp =>
      refine ⟨rfl, fun i => ?_⟩
      show (Function.update s.blocks sp.handle.slot _ i).repositoryGeneration = _
      by_cases hi : i = sp.handle.slot
      · rw [hi, Function.update_self]
      · rw [Function.update_of_ne hi]

/-- The installation loop can begin. -/
theorem State.Inv.installing (hs : s.Inv) (happend : s.append = some a) (accepted : ℕ) :
    Installing (s.committedBy a (a.begin + accepted))
      (fun i => countOn (a.tail.toList.map Span.handle) i + countOn s.checkpointHandles i) a
      (a.begin + accepted) (s.commitTail accepted a.tail) a.reserved
      (firstBlock s.config.blockTokens a.begin) := by
  have ha := hs.append a happend
  have hb := hs.block_pos
  have hrewind := hs.exclusive.resolve_left (by simp [happend])
  have hfirst := le_firstBlock hb a.begin
  obtain ⟨hframe, hgeneration⟩ := commitTail_frame s accepted a.tail
  have hconfig : (s.commitTail accepted a.tail).config = s.config := by rw [hframe]
  have hrepo : (s.commitTail accepted a.tail).repo = s.repo := by rw [hframe]
  have hresident : (s.commitTail accepted a.tail).resident = s.resident := by rw [hframe]
  have hhistory : (s.commitTail accepted a.tail).history = s.history := by rw [hframe]
  constructor
  case block_pos => exact hconfig ▸ hb
  case directory => exact commitTail_directory hs ha
  case laid => exact hconfig ▸ ha.laid
  case aligned => exact hconfig ▸ firstBlock_dvd _ _
  case begin_le => exact hfirst
  case nodup => exact ha.nodup
  case beyond =>
    intro p hp
    have hlt := hs.directory.key_lt (hhistory ▸ hp)
    rw [← ha.begin_eq] at hlt
    exact hlt.trans_le hfirst
  case reserved =>
    intro sp hsp
    have hreserved := ha.reserved sp hsp
    constructor
    case slot_lt =>
      rw [State.blockCount, hrepo]
      exact hreserved.slot_lt
    case writing => exact hrepo ▸ hreserved.writing
    case record =>
      rw [hrepo, hconfig]
      exact hreserved.record
    case resident => exact hresident ▸ hreserved.resident
    case generation =>
      rw [hgeneration]
      exact hreserved.generation
  case placed =>
    intro sp hsp o ho hlt
    have hlow := (ha.laid.mem (firstBlock_dvd _ _) hsp).1
    have hplace := ha.place hb (List.mem_append_right _ hsp)
      (p := sp.historyBegin + o) ⟨Nat.le_add_right _ _, by omega⟩
    unfold State.committedBy
    rw [if_pos ⟨by omega, hlt⟩, hplace, Nat.add_sub_cancel_left]
  case ok =>
    rw [hrepo]
    refine hs.ok.congr fun i => ?_
    rw [State.held_of_append happend hrewind, Append.countOn_handles, State.residentOn,
      State.residentOn, hresident]
    omega
  case generation =>
    intro i
    rw [hgeneration, hrepo]
    exact hs.generation i

/-- **A commit of an accepted prefix.**  It keeps the invariant; the only thing
that can stop it is a saturated reference count. -/
theorem State.Inv.commitAppend_or (hs : s.Inv) (happend : s.append = some a) {accepted : ℕ}
    (hle : accepted ≤ a.count) :
    (∃ t, s.commitAppend accepted = .ok t ∧ t.Inv) ∨
      s.commitAppend accepted = .error .staleLease ∧
        ∃ sp ∈ a.reserved, s.repo.refs sp.handle.slot = refMask := by
  have ha := hs.append a happend
  have hrewind := hs.exclusive.resolve_left (by simp [happend])
  have hbaked := ha.baked
  obtain ⟨htail, -⟩ := commitTail_frame s accepted a.tail
  have hcommit : s.commitAppend accepted =
      (State.commitReserved a (a.begin + accepted) a.reserved (s.commitTail accepted a.tail)).map
        fun t => t.finishAppend a (a.begin + accepted) := by
    unfold State.commitAppend
    simp only [happend]
    rw [if_neg (not_lt.mpr hle), if_neg (not_not.mpr ha.begin_eq.symm)]
  rcases commitReserved_spec (hs.installing happend accepted) (by omega) with
    ⟨t, ht, hdirectory, hok, hgeneration, hframe⟩ | ⟨herror, sp, hsp, hmask⟩
  · refine .inl ⟨t.finishAppend a (a.begin + accepted), by rw [hcommit, ht]; rfl, ?_⟩
    rw [htail] at hframe
    have hconfig : t.config = s.config := by rw [hframe]
    have hcommitted : t.committed = s.committed := by rw [hframe]
    have hcheckpoints : t.checkpoints = s.checkpoints := by rw [hframe]
    have hrewind' : t.rewind = none := by rw [hframe, hrewind]
    obtain ⟨hback, hbackconfig, hbacksequence⟩ := giveBack_spec
      (fun i => t.residentOn i + countOn s.checkpointHandles i) a (a.begin + accepted) hok
      fun i => by omega
    constructor
    case block_pos => exact hconfig ▸ hs.block_pos
    case exclusive => exact .inl rfl
    case append => exact fun a' ha' => absurd ha' (by simp [State.finishAppend])
    case rewind => exact fun w hw => absurd (hrewind'.symm.trans hw) (by simp)
    case ok =>
      refine hback.congr fun i => ?_
      rw [State.held_idle (s := t.finishAppend a (a.begin + accepted)) rfl hrewind']
      show _ = t.residentOn i + countOn (t.checkpoints.flatMap Checkpoint.leases) i
      rw [hcheckpoints]
      rfl
    case generation =>
      intro i
      show (t.blocks i).repositoryGeneration ≤ (State.unpinTail a.tail _).sequence
      rw [hbacksequence]
      exact hgeneration i
    case directory =>
      have hG : (t.finishAppend a (a.begin + accepted)).committed =
          s.committedBy a (a.begin + accepted) := by
        unfold State.finishAppend State.committedBy
        rw [hcommitted]
      rw [hG]
      refine hdirectory.congr rfl ?_ rfl rfl fun _ _ => ⟨rfl, rfl, rfl, rfl⟩
      show (State.unpinTail a.tail _).config.capacity = t.repo.config.capacity
      rw [hbackconfig]
  · exact .inr ⟨by rw [hcommit, herror]; rfl, sp, hsp, by rwa [htail] at hmask⟩

/-- What a commit leaves alone. -/
theorem State.Inv.commitAppend_eq (hs : s.Inv) (happend : s.append = some a) {accepted : ℕ}
    (h : s.commitAppend accepted = .ok t) :
    ∃ u : State, u = { s with
        repo := u.repo, blocks := u.blocks, resident := u.resident, gcFlags := u.gcFlags,
        history := u.history, nodes := u.nodes, totalTokens := u.totalTokens } ∧
      u.finishAppend a (a.begin + accepted) = t := by
  have hbaked := (hs.append a happend).baked
  obtain ⟨htail, -⟩ := commitTail_frame s accepted a.tail
  obtain ⟨a', u, happend', hle, -, hu, hfinish⟩ := commitAppend_eq_ok.mp h
  obtain rfl := Option.some.inj (happend.symm.trans happend')
  rcases commitReserved_spec (hs.installing happend accepted) (by omega) with
    ⟨u', hu', -, -, -, hframe⟩ | ⟨herror, -⟩
  · obtain rfl := Except.ok.inj (hu.symm.trans hu')
    rw [htail] at hframe
    exact ⟨u, hframe, hfinish⟩
  · cases hu.symm.trans herror

/-- **An append destroyed before its commit.** -/
theorem State.Inv.cancelAppend (hs : s.Inv) (h : s.cancelAppend = .ok t) : t.Inv := by
  obtain ⟨a, happend, rfl⟩ := cancelAppend_eq_ok h
  have hrewind := hs.exclusive.resolve_left (by simp [happend])
  obtain ⟨hback, hbackconfig, hbacksequence⟩ := giveBack_spec
    (fun i => s.residentOn i + countOn s.checkpointHandles i) a 0 hs.ok fun i => by
      rw [State.held_of_append happend hrewind, Append.countOn_handles,
        List.filter_eq_self.mpr fun _ _ => by simp]
      omega
  constructor
  case block_pos => exact hs.block_pos
  case exclusive => exact .inl rfl
  case append => exact fun a' ha' => absurd ha' (by simp)
  case rewind => exact fun w hw => absurd (hrewind.symm.trans hw) (by simp)
  case ok =>
    refine hback.congr fun i => ?_
    unfold State.held State.transactionHandles
    simp [hrewind, State.residentOn, State.checkpointHandles]
  case generation =>
    intro i
    show (s.blocks i).repositoryGeneration ≤ (State.unpinTail a.tail _).sequence
    rw [hbacksequence]
    exact hs.generation i
  case directory =>
    refine hs.directory.congr rfl ?_ rfl rfl fun _ _ => ⟨rfl, rfl, rfl, rfl⟩
    show (State.unpinTail a.tail _).config.capacity = s.repo.config.capacity
    rw [hbackconfig]

end Qw3.Store
