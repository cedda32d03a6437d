import Qw3.Store.Calls

/-!
# Appends

`prepare_repository_append`, `extend`, `commit` and the destruction of an
append keep the invariant, and a commit of an accepted prefix installs its
blocks.

* `State.AppendOk.place` — each position of an append has one place.
* `commitReserved_spec` — the installation loop; the directory it leaves is the
  one of the placement `committedBy`.
* `State.Inv.prepareAppend`, `.extend`, `.commitAppend`, `.cancelAppend`.
-/

namespace Qw3.Store

open Qw3.Repository (KvMemBlockHandle Record Repo Control refMask uint64Max)

variable {s t : State} {a : Append}

/-! ## Where an append's positions lie -/

theorem firstBlock_dvd (b start : ℕ) : b ∣ firstBlock b start := by
  unfold firstBlock
  split_ifs with hzero
  · exact Nat.dvd_of_mod_eq_zero hzero
  · exact Nat.dvd_add (Nat.dvd_sub_mod start) (dvd_refl b)

theorem le_firstBlock {b : ℕ} (hb : 0 < b) (start : ℕ) : start ≤ firstBlock b start := by
  have hmod := Nat.mod_lt start hb
  unfold firstBlock
  split_ifs <;> omega

theorem firstBlock_lt {b : ℕ} (hb : 0 < b) (start : ℕ) : firstBlock b start < start + b := by
  have hle := Nat.mod_le start b
  unfold firstBlock
  split_ifs <;> omega

/-- What goes into the tail ends where the new blocks begin, or sooner. -/
theorem add_tailTake {b : ℕ} (hb : 0 < b) (start count : ℕ) :
    start + State.tailTake b start count = min (start + count) (firstBlock b start) := by
  have hmod := Nat.mod_lt start hb
  have hle := Nat.mod_le start b
  unfold firstBlock State.tailTake
  split_ifs <;> omega

namespace State.AppendOk

theorem reserved_eq_nil (h : s.AppendOk a)
    (hle : a.begin + a.count ≤ firstBlock s.config.blockTokens a.begin) : a.reserved = [] := by
  have hlaid := h.laid
  revert hlaid
  cases a.reserved with
  | nil => exact fun _ => rfl
  | cons sp rest => exact fun hlaid => absurd hlaid.1 (not_lt.mpr hle)

/-- The tail does not reach the new blocks. -/
theorem tail_le (h : s.AppendOk a) (hb : 0 < s.config.blockTokens) {sp : Span}
    (hsp : a.tail = some sp) :
    sp.historyBegin + sp.tokenCount ≤ firstBlock s.config.blockTokens a.begin := by
  have htail := h.tail_some sp hsp
  rw [htail.historyBegin, htail.tokenCount, add_tailTake hb]
  exact min_le_right _ _

/-- **Each covered position has its span's place.** -/
theorem place (h : s.AppendOk a) (hb : 0 < s.config.blockTokens) {sp : Span} (hsp : sp ∈ a.spans)
    {p : ℕ} (hp : sp.Covers p) :
    a.place p = some (sp.handle, sp.storageBegin + (p - sp.historyBegin)) := by
  have hdvd := firstBlock_dvd s.config.blockTokens a.begin
  suffices hfind : (a.spans.find? fun q =>
      q.historyBegin ≤ p ∧ p < q.historyBegin + q.tokenCount) = some sp by
    unfold Append.place
    rw [hfind]
    rfl
  unfold Append.spans at hsp ⊢
  cases htail : a.tail with
  | none =>
      rw [htail] at hsp
      exact h.laid.find hdvd hsp hp
  | some tl =>
      rw [htail] at hsp
      rw [Option.toList_some, List.singleton_append] at hsp ⊢
      rcases List.mem_cons.mp hsp with rfl | hsp
      · exact List.find?_cons_of_pos (by simpa [Span.Covers] using hp)
      · have hle := h.tail_le hb htail
        have hfirst := (h.laid.mem hdvd hsp).1
        have hlow : sp.historyBegin ≤ p := hp.1
        rw [List.find?_cons_of_neg]
        · exact h.laid.find hdvd hsp hp
        · rw [decide_eq_true_eq]
          omega

end State.AppendOk

/-- The memory after a commit up to `stop`. -/
def State.committedBy (s : State) (a : Append) (stop : ℕ) : Placement :=
  fun p => if a.begin ≤ p ∧ p < stop then a.place p else s.committed p

theorem Append.countOn_handles (a : Append) (i : ℕ) :
    countOn a.handles i = countOn (a.tail.toList.map Span.handle) i +
      countOn (a.reserved.map Span.handle) i := by
  rw [Append.handles, Append.spans, List.map_append, countOn_append]

/-- What the store holds while an append is open. -/
theorem State.held_append {r : Repo} (hrewind : s.rewind = none) (i : ℕ) :
    ({ s with repo := r, append := some a } : State).held i =
      s.residentOn i + countOn a.handles i + countOn s.checkpointHandles i := by
  unfold State.held State.residentOn State.transactionHandles State.checkpointHandles
  simp [hrewind]

theorem State.held_of_append (happend : s.append = some a) (hrewind : s.rewind = none) (i : ℕ) :
    s.held i = s.residentOn i + countOn a.handles i + countOn s.checkpointHandles i := by
  have hsame : ({ s with repo := s.repo, append := some a } : State) = s := by rw [← happend]
  rw [← State.held_append (r := s.repo) hrewind, hsame]

/-- The slot of a handle that an open append holds is not free. -/
theorem State.Inv.not_free (hs : s.Inv) (happend : s.append = some a) {h : KvMemBlockHandle}
    (hh : h ∈ a.handles) : s.repo.phase h.slot ≠ .free := by
  have hrewind := hs.exclusive.resolve_left (by simp [happend])
  intro hfree
  have hzero := hs.ok.held_eq_zero hfree
  have hpos := countOn_pos hh
  rw [State.held_of_append happend hrewind] at hzero
  omega

/-- What it holds while no transaction is open. -/
theorem State.held_idle (happend : s.append = none) (hrewind : s.rewind = none) (i : ℕ) :
    s.held i = s.residentOn i + countOn s.checkpointHandles i := by
  unfold State.held State.transactionHandles
  simp [happend, hrewind]

theorem State.appendPending_eq_false (h : s.appendPending = false) :
    s.append = none ∧ s.rewind = none := by
  unfold State.appendPending at h
  rw [Bool.or_eq_false_iff, Option.isSome_eq_false_iff, Option.isSome_eq_false_iff,
    Option.isNone_iff_eq_none, Option.isNone_iff_eq_none] at h
  exact h

/-! ## Preparing -/

/-- What a successful preparation says. -/
structure Prepared (s : State) (count bakedBegin : ℕ) (tail : Option Span) (reserved : List Span)
    (r r' : Repo) : Prop where
  idle : s.appendPending = false
  valid : ¬ (count = 0 ∨ uint64Max < s.totalTokens + count ∨ int32Max < bakedBegin + count)
  fits : State.ceilDiv (count - State.tailTake s.config.blockTokens s.totalTokens count)
      s.config.blockTokens = 0 ∨
    (s.totalTokens + count - 1) / s.config.blockTokens ≤
      (uint64Max - s.config.blockTokens) / s.config.blockTokens
  ready : State.ceilDiv (count - State.tailTake s.config.blockTokens s.totalTokens count)
    s.config.blockTokens ≤ s.repo.ready.length
  identities : s.repo.sequence + State.ceilDiv (count -
    State.tailTake s.config.blockTokens s.totalTokens count) s.config.blockTokens ≤ uint64Max
  tail : s.pinTail s.totalTokens (State.tailTake s.config.blockTokens s.totalTokens count)
    bakedBegin = .ok (tail, r)
  reserve : State.reserveBlocks s.config.blockTokens (s.totalTokens + count)
    (State.ceilDiv (count - State.tailTake s.config.blockTokens s.totalTokens count)
      s.config.blockTokens)
    (s.totalTokens + State.tailTake s.config.blockTokens s.totalTokens count) r =
      some (reserved, r')

theorem prepare_eq_ok {count bakedBegin : ℕ} :
    s.prepareRepositoryAppend count bakedBegin = .ok (some t) ↔
      ∃ tail reserved r r', Prepared s count bakedBegin tail reserved r r' ∧
        t = { s with
          repo := r', append := some ⟨s.totalTokens, count, bakedBegin, tail, reserved⟩ } := by
  constructor
  · intro h
    unfold State.prepareRepositoryAppend at h
    dsimp only at h
    split_ifs at h with hpending hinvalid hoverflow hready hidentity
    · cases h
    · cases hpin : s.pinTail s.totalTokens
          (State.tailTake s.config.blockTokens s.totalTokens count) bakedBegin with
      | error e => simp [hpin] at h
      | ok p =>
          obtain ⟨tail, r⟩ := p
          simp only [hpin] at h
          split at h
          · cases h
          · rename_i reserved r' hreserve
            obtain rfl := Option.some.inj (Except.ok.inj h)
            refine ⟨tail, reserved, r, r', ⟨by simpa using hpending, hinvalid, ?_, not_lt.mp hready,
              not_lt.mp hidentity, hpin, hreserve⟩, rfl⟩
            rw [not_and_or, not_not, not_lt] at hoverflow
            exact hoverflow
  · rintro ⟨tail, reserved, r, r', h, rfl⟩
    unfold State.prepareRepositoryAppend
    dsimp only
    have hfits := h.fits
    rw [← not_lt, ← not_not (a := State.ceilDiv _ _ = 0), ← not_and_or] at hfits
    rw [if_neg (by simp [h.idle]), if_neg h.valid, if_neg hfits, if_neg (not_lt.mpr h.ready),
      if_neg (not_lt.mpr h.identities), h.tail]
    dsimp only
    rw [h.reserve]
    rfl

/-- What an extension that reserves says. -/
structure Extended (s : State) (a : Append) (count needed : ℕ) (more : List Span) (r : Repo) :
    Prop where
  longer : a.count < count
  valid : ¬ (uint64Max < a.begin + count ∨ int32Max < a.bakedBegin + count)
  fits : (a.begin + count - 1) / s.config.blockTokens ≤
    (uint64Max - s.config.blockTokens) / s.config.blockTokens
  ready : needed ≤ s.repo.ready.length
  identities : s.repo.sequence + needed ≤ uint64Max
  missing : (if a.begin + count ≤
      ((a.begin + a.count - 1) / s.config.blockTokens + 1) * s.config.blockTokens then 0
    else State.ceilDiv (a.begin + count -
      ((a.begin + a.count - 1) / s.config.blockTokens + 1) * s.config.blockTokens)
      s.config.blockTokens) = needed
  reserve : State.reserveBlocks s.config.blockTokens (a.begin + count) needed
    (((a.begin + a.count - 1) / s.config.blockTokens + 1) * s.config.blockTokens) s.repo =
      some (more, r)

/-- An extension that goes through is too short to matter, or reserves. -/
theorem extend_eq_ok {count : ℕ} (h : s.extend count = .ok (some t)) :
    ∃ a, s.append = some a ∧ (count ≤ a.count ∧ t = s ∨
      ∃ needed more r, Extended s a count needed more r ∧
        t = { s with
          repo := r
          append := some (a.extended count (a.begin + count)
            (((a.begin + a.count - 1) / s.config.blockTokens + 1) * s.config.blockTokens)
            more) }) := by
  unfold State.extend at h
  dsimp only at h
  split at h
  · cases h
  · rename_i a happend
    refine ⟨a, happend, ?_⟩
    generalize hneeded : (if a.begin + count ≤
      ((a.begin + a.count - 1) / s.config.blockTokens + 1) * s.config.blockTokens then 0
      else State.ceilDiv (a.begin + count -
        ((a.begin + a.count - 1) / s.config.blockTokens + 1) * s.config.blockTokens)
        s.config.blockTokens) = needed at h
    split_ifs at h with hle hoverflow hblock hready hidentity
    · exact .inl ⟨hle, (Option.some.inj (Except.ok.inj h)).symm⟩
    · cases h
    · split at h
      · cases h
      · rename_i more r hreserve
        exact .inr ⟨needed, more, r, ⟨not_le.mp hle, hoverflow, not_lt.mp hblock, not_lt.mp hready,
          not_lt.mp hidentity, hneeded, hreserve⟩, (Option.some.inj (Except.ok.inj h)).symm⟩

/-- The tail's checks have passed. -/
theorem pinTail_spec {start count bakedBegin : ℕ} {tail : Option Span} {r : Repo} (hs : s.Inv)
    (h : s.pinTail start (State.tailTake s.config.blockTokens start count) bakedBegin =
      .ok (tail, r)) :
    Quiet s.repo r ∧ (r.Ok fun i => s.held i + countOn (tail.toList.map Span.handle) i) ∧
      (tail = none → State.tailTake s.config.blockTokens start count = 0) ∧
      ∀ sp, tail = some sp → ({ s with repo := r } : State).Tail start count sp ∧
        r.phase sp.handle.slot = .live := by
  unfold State.pinTail at h
  dsimp only at h
  split_ifs at h with hzero
  · obtain ⟨rfl, rfl⟩ := Prod.mk.inj (Except.ok.inj h)
    exact ⟨.refl _, hs.ok, fun _ => hzero, fun sp hsp => (by cases hsp)⟩
  · have hoffset : start % s.config.blockTokens ≠ 0 := fun heq => hzero (if_pos heq)
    cases hlookup : s.history.lookup (start - start % s.config.blockTokens) with
    | none => simp [hlookup] at h
    | some g =>
        cases hpin : s.repo.tryPin g with
        | none => simp [hlookup, hpin] at h
        | some r' =>
            simp only [hlookup, hpin] at h
            split_ifs at h with hmismatch
            obtain ⟨rfl, rfl⟩ := Prod.mk.inj (Except.ok.inj h)
            rw [not_or, not_or, not_or, not_ne_iff] at hmismatch
            have hentry := OrdMap.lookup_eq_some.mp hlookup
            obtain ⟨hpinnable, c, hr, hlive, -⟩ := Repo.tryPin_eq_some hpin
            refine ⟨.tryPin hpin, hs.ok.tryPin hpin fun j => ?_, (by simp), fun sp hsp => ?_⟩
            · simp [countOn_cons]
            · obtain rfl := Option.some.inj hsp
              refine ⟨⟨hoffset, rfl, ?_, rfl, hentry, hmismatch.1, ?_⟩, ?_⟩
              · show (s.blocks g.slot).origPosStart + start % s.config.blockTokens = _
                rw [(hs.directory.entry _ hentry).origin]
              · rw [(Quiet.tryPin hpin).record]
                exact hpinnable.2.1
              · rw [hr, Repo.setControl_phase, if_pos rfl, hlive]

/-- The blocks of new spans are reserved. -/
theorem State.Reserved.of_reserving {r r' : Repo} {l : List Span} {held : ℕ → ℕ}
    {o : Option Append} (hr : r.Ok held) (hheld : ∀ i, s.residentOn i ≤ held i)
    (hgeneration : ∀ i, (s.blocks i).repositoryGeneration ≤ r.sequence)
    (hreserving : Reserving s.config.blockTokens r r' l) {sp : Span} (hsp : sp ∈ l) :
    ({ s with repo := r', append := o } : State).Reserved sp := by
  obtain ⟨hfree, hlt⟩ := hreserving.free sp hsp
  obtain ⟨hnew, hcell⟩ := hreserving.claimed sp hsp
  refine ⟨?_, ?_, ?_, ?_, ?_⟩
  · show sp.handle.slot < r'.config.capacity
    rw [hreserving.config]
    exact hlt
  · show r'.phase sp.handle.slot = .writing
    rw [Repo.phase, hcell, Control.single_phase]
  · show r'.record sp.handle.slot = _
    rw [Repo.record, hcell]
  · have hle := hheld sp.handle.slot
    rw [hr.held_eq_zero hfree] at hle
    show s.resident sp.handle.slot = none
    by_contra hne
    rw [State.residentOn, if_pos (Option.isSome_iff_ne_none.mpr hne)] at hle
    omega
  · exact lt_of_le_of_lt (hgeneration _) hnew

/-- **A prepared append.** -/
theorem State.Inv.prepareAppend (hs : s.Inv) {count bakedBegin : ℕ}
    (h : s.prepareRepositoryAppend count bakedBegin = .ok (some t)) : t.Inv := by
  obtain ⟨tail, reserved, r, r', hp, rfl⟩ := prepare_eq_ok.mp h
  obtain ⟨happend, hrewind⟩ := s.appendPending_eq_false hp.idle
  have hinvalid := hp.valid
  rw [not_or, not_or] at hinvalid
  obtain ⟨hquiet, hok, hnone, hsome⟩ := pinTail_spec hs hp.tail
  have hb := hs.block_pos
  have htake := add_tailTake hb s.totalTokens count
  obtain ⟨henough, hneeded⟩ := ceilDiv_enough hb
    (count - State.tailTake s.config.blockTokens s.totalTokens count)
  obtain ⟨hlaid, hreserving, hok'⟩ := reserveBlocks_spec hok (by omega)
    (hneeded.imp_right fun hlt => by omega) hp.reserve
  have hkept : ∀ sp, tail = some sp → r'.cells sp.handle.slot = r.cells sp.handle.slot :=
    fun sp hsp => hreserving.kept _ (by rw [(hsome sp hsp).2]; decide)
  have hsequence : s.repo.sequence ≤ r'.sequence :=
    hquiet.sequence ▸ hreserving.sequence
  constructor
  case block_pos => exact hb
  case exclusive => exact .inr hrewind
  case rewind => exact fun w hw => absurd (hrewind.symm.trans hw) (by simp)
  case generation => exact fun i => (hs.generation i).trans hsequence
  case directory =>
    refine hs.directory.congr rfl ?_ rfl rfl fun _ _ => ⟨rfl, rfl, rfl, rfl⟩
    show r'.config.capacity = s.repo.config.capacity
    rw [hreserving.config, hquiet.config]
  case ok =>
    refine hok'.congr fun i => ?_
    rw [State.held_append hrewind, Append.countOn_handles,
      State.held_idle happend hrewind]
    dsimp only
    omega
  case append =>
    intro a ha
    obtain rfl := Option.some.inj ha
    constructor
    case begin_eq => rfl
    case count_pos => exact Nat.pos_of_ne_zero hinvalid.1
    case baked => exact not_lt.mp hinvalid.2.2
    case nodup => exact hreserving.nodup
    case reserved =>
      intro sp hsp
      refine .of_reserving hok (fun i => ?_) (fun i => ?_) hreserving hsp
      · rw [State.held]
        omega
      · exact hquiet.sequence ▸ hs.generation i
    case tail_none =>
      intro htail
      by_contra hoffset
      have hzero := hnone htail
      have hmod := Nat.mod_lt s.totalTokens hb
      rw [State.tailTake, if_neg hoffset] at hzero
      omega
    case tail_some =>
      intro sp hsp
      obtain ⟨htail, -⟩ := hsome sp hsp
      refine ⟨htail.offset, htail.historyBegin, htail.storageBegin, htail.tokenCount,
        htail.entry, htail.nTokens, ?_⟩
      show (r'.record sp.handle.slot).handle = sp.handle
      rw [Repo.record, hkept sp hsp]
      exact htail.record
    case laid =>
      rw [htake] at hlaid
      rcases le_total (firstBlock s.config.blockTokens s.totalTokens)
        (s.totalTokens + count) with hle | hle
      · rwa [min_eq_right hle] at hlaid
      · rw [min_eq_left hle] at hlaid
        cases reserved with
        | nil => exact hle
        | cons sp rest => exact absurd hlaid.1 (lt_irrefl _)

/-! ## Extending -/

theorem mem_setLastCount {count : Span → ℕ} {l : List Span} {sp : Span}
    (h : sp ∈ setLastCount count l) :
    ∃ sp' ∈ l, sp.handle = sp'.handle ∧ sp.historyBegin = sp'.historyBegin := by
  induction l with
  | nil => exact absurd h List.not_mem_nil
  | cons q rest ih =>
      cases rest with
      | nil =>
          obtain rfl := List.mem_singleton.mp h
          exact ⟨q, List.mem_singleton_self q, rfl, rfl⟩
      | cons q' rest =>
          rcases List.mem_cons.mp h with rfl | h
          · exact ⟨sp, List.mem_cons_self, rfl, rfl⟩
          · obtain ⟨sp', hmem, heq⟩ := ih h
            exact ⟨sp', List.mem_cons_of_mem _ hmem, heq⟩

/-- A reserved block stays one while more blocks are reserved. -/
theorem State.Reserved.kept {r : Repo} {o : Option Append} {l : List Span} {sp sp' : Span}
    (h : s.Reserved sp') (hreserving : Reserving s.config.blockTokens s.repo r l)
    (hhandle : sp.handle = sp'.handle) (hbegin : sp.historyBegin = sp'.historyBegin) :
    ({ s with repo := r, append := o } : State).Reserved sp := by
  have hcell : r.cells sp'.handle.slot = s.repo.cells sp'.handle.slot :=
    hreserving.kept _ (by rw [h.writing]; decide)
  constructor
  all_goals simp only [State.blockCount, Repo.phase, Repo.record, hhandle, hbegin, hcell,
    hreserving.config]
  case slot_lt => exact h.slot_lt
  case writing => exact h.writing
  case record => exact h.record
  case resident => exact h.resident
  case generation => exact h.generation

/-- The new blocks of an append end where its last block ends. -/
theorem State.AppendOk.blocks_end (h : s.AppendOk a) (hb : 0 < s.config.blockTokens) :
    firstBlock s.config.blockTokens a.begin + a.reserved.length * s.config.blockTokens =
      ((a.begin + a.count - 1) / s.config.blockTokens + 1) * s.config.blockTokens := by
  have hpos := h.count_pos
  have hlt := firstBlock_lt hb a.begin
  exact h.laid.blocks_end (firstBlock_dvd _ _) (by omega) (by omega)

theorem Append.countOn_extended (a : Append) (count stop reservedEnd : ℕ) (more : List Span)
    (i : ℕ) : countOn (a.extended count stop reservedEnd more).handles i =
      countOn a.handles i + countOn (more.map Span.handle) i := by
  have htail : ((a.extended count stop reservedEnd more).tail.toList.map Span.handle) =
      a.tail.toList.map Span.handle := by
    unfold Append.extended
    dsimp only
    split_ifs
    · cases a.tail <;> rfl
    · rfl
  rw [Append.countOn_handles, Append.countOn_handles, htail]
  show _ + countOn ((setLastCount _ a.reserved ++ more).map Span.handle) i = _
  rw [List.map_append, countOn_append, setLastCount_map_handle, Nat.add_assoc]

theorem Append.mem_spans_of_tail {sp : Span} (h : a.tail = some sp) : sp ∈ a.spans := by
  rw [Append.spans, h]
  exact List.mem_append_left _ (by simp)

theorem Append.tail_mem_handles {count stop reservedEnd : ℕ} {more : List Span} {sp : Span}
    (hsp : (a.extended count stop reservedEnd more).tail = some sp) : sp.handle ∈ a.handles := by
  have hmem : ∀ tl, a.tail = some tl → tl.handle ∈ a.handles := fun tl htl =>
    List.mem_map_of_mem (Append.mem_spans_of_tail htl)
  unfold Append.extended at hsp
  dsimp only at hsp
  split_ifs at hsp
  · obtain ⟨tl, htl, rfl⟩ := Option.map_eq_some_iff.mp hsp
    exact hmem tl htl
  · exact hmem sp hsp

/-- The tail of an extended append. -/
theorem State.AppendOk.tail_extended (h : s.AppendOk a) (hb : 0 < s.config.blockTokens)
    {count reservedEnd : ℕ} {more : List Span} (hle : a.count ≤ count)
    (hend : firstBlock s.config.blockTokens a.begin +
      a.reserved.length * s.config.blockTokens = reservedEnd) {sp : Span}
    (hsp : (a.extended count (a.begin + count) reservedEnd more).tail = some sp) :
    s.Tail a.begin count sp := by
  have htake := add_tailTake hb a.begin count
  unfold Append.extended at hsp
  dsimp only at hsp
  split_ifs at hsp with hreserved
  · rw [Option.map_eq_some_iff] at hsp
    obtain ⟨tl, htl, rfl⟩ := hsp
    have htail := h.tail_some tl htl
    rw [hreserved, List.length_nil, Nat.zero_mul, Nat.add_zero] at hend
    refine ⟨htail.offset, htail.historyBegin, htail.storageBegin, ?_, htail.entry, htail.nTokens,
      htail.record⟩
    show min (a.begin + count) reservedEnd - tl.historyBegin = _
    rw [htail.historyBegin, ← hend]
    omega
  · have htail := h.tail_some sp hsp
    have hlt : firstBlock s.config.blockTokens a.begin < a.begin + a.count := by
      by_contra hge
      exact hreserved (h.reserved_eq_nil (not_lt.mp hge))
    have htake' := add_tailTake hb a.begin a.count
    refine ⟨htail.offset, htail.historyBegin, htail.storageBegin, ?_, htail.entry, htail.nTokens,
      htail.record⟩
    rw [htail.tokenCount]
    omega

/-- **An extended append.** -/
theorem State.Inv.extend (hs : s.Inv) {count : ℕ} (h : s.extend count = .ok (some t)) :
    t.Inv := by
  obtain ⟨a, happend, ⟨-, rfl⟩ | ⟨needed, more, r, hx, rfl⟩⟩ := extend_eq_ok h
  · exact hs
  · have hrewind := hs.exclusive.resolve_left (by simp [happend])
    have ha := hs.append a happend
    have hb := hs.block_pos
    have hend := ha.blocks_end hb
    have hneed := hx.missing
    have hreserve := hx.reserve
    rw [← hend] at hneed hreserve ⊢
    have hle := hx.longer
    have hoverflow := hx.valid
    rw [not_or] at hoverflow
    have hneeded : a.begin + count ≤ firstBlock s.config.blockTokens a.begin +
          a.reserved.length * s.config.blockTokens + needed * s.config.blockTokens ∧
        (needed = 0 ∨ firstBlock s.config.blockTokens a.begin +
          a.reserved.length * s.config.blockTokens +
            (needed - 1) * s.config.blockTokens < a.begin + count) := by
      rw [← hneed]
      split_ifs with hfits
      · exact ⟨by omega, .inl rfl⟩
      · obtain ⟨henough, hneeded⟩ := ceilDiv_enough hb (a.begin + count -
          (firstBlock s.config.blockTokens a.begin +
            a.reserved.length * s.config.blockTokens))
        exact ⟨by omega, hneeded.imp_right fun hlt => by omega⟩
    obtain ⟨hlaid, hreserving, hok⟩ := reserveBlocks_spec hs.ok hneeded.1 hneeded.2 hreserve
    have hsequence := hreserving.sequence
    constructor
    case block_pos => exact hb
    case exclusive => exact .inr hrewind
    case rewind => exact fun w hw => absurd (hrewind.symm.trans hw) (by simp)
    case generation => exact fun i => (hs.generation i).trans hsequence
    case directory =>
      refine hs.directory.congr rfl ?_ rfl rfl fun _ _ => ⟨rfl, rfl, rfl, rfl⟩
      show r.config.capacity = s.repo.config.capacity
      rw [hreserving.config]
    case ok =>
      refine hok.congr fun i => ?_
      rw [State.held_append hrewind, Append.countOn_extended,
        State.held_of_append happend hrewind]
      omega
    case append =>
      intro a' ha'
      obtain rfl := Option.some.inj ha'
      constructor
      case begin_eq => exact ha.begin_eq
      case count_pos => exact ha.count_pos.trans_le hle.le
      case baked => exact not_lt.mp hoverflow.2
      case laid => exact ha.laid.extended (Nat.add_le_add_left hle.le a.begin) hlaid
      case tail_none =>
        intro hnone
        refine ha.tail_none ?_
        unfold Append.extended at hnone
        dsimp only at hnone
        split_ifs at hnone
        · exact Option.map_eq_none_iff.mp hnone
        · exact hnone
      case tail_some =>
        intro sp hsp
        have htail := ha.tail_extended hb hle.le rfl hsp
        have hcell := hreserving.kept sp.handle.slot
          (hs.not_free happend (Append.tail_mem_handles hsp))
        refine ⟨htail.offset, htail.historyBegin, htail.storageBegin, htail.tokenCount,
          htail.entry, htail.nTokens, ?_⟩
        show (r.record sp.handle.slot).handle = sp.handle
        rw [Repo.record, hcell]
        exact htail.record
      case reserved =>
        intro sp hsp
        rcases List.mem_append.mp hsp with hsp | hsp
        · obtain ⟨sp', hmem, hhandle, hbegin⟩ := mem_setLastCount hsp
          exact (ha.reserved sp' hmem).kept hreserving hhandle hbegin
        · refine .of_reserving hs.ok (fun i => ?_) hs.generation hreserving hsp
          rw [State.held]
          omega
      case nodup =>
        have hslots := congrArg (List.map KvMemBlockHandle.slot)
          (setLastCount_map_handle (fun sp => min (a.begin + count)
            (firstBlock s.config.blockTokens a.begin +
              a.reserved.length * s.config.blockTokens) - sp.historyBegin) a.reserved)
        rw [List.map_map, List.map_map] at hslots
        show ((setLastCount _ a.reserved ++ more).map
          (KvMemBlockHandle.slot ∘ Span.handle)).Nodup
        rw [List.map_append, hslots, List.nodup_append']
        refine ⟨ha.nodup, hreserving.nodup, ?_⟩
        intro i hold hnew
        obtain ⟨sp, hsp, rfl⟩ := List.mem_map.mp hold
        obtain ⟨sp', hsp', heq⟩ := List.mem_map.mp hnew
        have hfree := (hreserving.free sp' hsp').1
        rw [show sp'.handle.slot = sp.handle.slot from heq,
          (ha.reserved sp hsp).writing] at hfree
        exact absurd hfree (by decide)

end Qw3.Store
