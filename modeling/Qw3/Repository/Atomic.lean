import Mathlib.Algebra.Order.Group.Multiset
import Mathlib.Data.Multiset.Count
import Qw3.Repository.Concurrent

/-!
# The repository with whole calls

The same repository with every call taking effect at once: what its clients are
written against.  The reservation of a slot, the pin of a handle, the change of
a phase and the return of a slot to the ready queue are single steps here.

* `Repo` — the control word and record of every slot, the ready queue, and
  `leases`, the `Lease` objects of the callers outside the client.
* `Repo.Ok held` — the invariant a client keeps: `held i` references on slot
  `i` are the client's own, all others are counted by `leases`.  One lemma for
  each operation says what it does to `held`.
* `Repo.step` — what the callers outside the client may do at any time;
  `Repo.Ok.step` is the frame: a slot the client holds keeps its record.
-/

namespace Qw3.Repository

/-- A slot as its callers see it. -/
structure Cell where
  control : Control
  record : Record

/-- The repository between two calls. -/
structure Repo where
  config : Config
  cells : ℕ → Cell
  ready : List ℕ
  sequence : ℕ
  leases : Multiset KvMemBlockHandle

namespace Repo

variable (r : Repo)

/-- The phase of a slot. -/
def phase (i : ℕ) : Phase := (r.cells i).control.phase

/-- The references counted on a slot. -/
def refs (i : ℕ) : ℕ := (r.cells i).control.refs

/-- The record of a slot. -/
def record (i : ℕ) : Record := (r.cells i).record

/-- The constructed repository. -/
def initial (c : Config) : Repo where
  config := c
  cells := fun _ => ⟨.free, ⟨⟨uint32Max, 0⟩, 0, 0, 0⟩⟩
  ready := List.range c.capacity
  sequence := 0
  leases := 0

/-- Store a control word. -/
def setControl (i : ℕ) (c : Control) : Repo :=
  { r with cells := Function.update r.cells i { r.cells i with control := c } }

/-- The slots whose handle is `h` and that can be pinned. -/
def Pinnable (h : KvMemBlockHandle) : Prop :=
  h.slot < r.config.capacity ∧ (r.record h.slot).handle = h ∧ r.phase h.slot = .live ∧
    r.refs h.slot ≠ refMask

instance (h : KvMemBlockHandle) : Decidable (r.Pinnable h) :=
  inferInstanceAs (Decidable (_ ∧ _ ∧ _ ∧ _))

/-- `try_pin(h)`: the repository with one more reference on the slot. -/
def tryPin (h : KvMemBlockHandle) : Option Repo :=
  if r.Pinnable h then
    (acquire false (r.cells h.slot).control).map fun c => r.setControl h.slot c
  else none

/-- `Lease::clone` of a lease on slot `i`. -/
def clone (i : ℕ) : Option Repo :=
  (acquire true (r.cells i).control).map fun c => r.setControl i c

/-- `Lease::reset` of a lease on slot `i`. -/
def unpin (i : ℕ) : Repo := r.setControl i (r.cells i).control.decr

/-- `try_reserve(begin, count)` after its argument checks: the next ready slot,
claimed for a new generation. -/
def tryReserve (tokenBegin tokenCount : ℕ) : Option (KvMemBlockHandle × Repo) :=
  match r.ready with
  | [] => none
  | i :: rest =>
      let h : KvMemBlockHandle := ⟨i, r.sequence + 1⟩
      some (h, { r with
        cells := Function.update r.cells i
          ⟨.single .writing, ⟨h, h.generation, tokenBegin, tokenCount⟩⟩
        ready := rest
        sequence := r.sequence + 1 })

/-- `Reservation::commit`, or `none` where it throws. -/
def commit (h : KvMemBlockHandle) : Option Repo :=
  if r.phase h.slot = .writing then
    some (r.setControl h.slot ((r.cells h.slot).control.withPhase .live))
  else none

/-- `Reservation::cancel`. -/
def cancel (h : KvMemBlockHandle) : Repo :=
  let cancelled := if r.phase h.slot = .writing then
      r.setControl h.slot ((r.cells h.slot).control.withPhase .cancelled)
    else r
  cancelled.unpin h.slot

/-- `retire(h)`: the pin, the exchange of the phase, and the end of the pin. -/
def retire (h : KvMemBlockHandle) : Repo :=
  if r.Pinnable h then r.setControl h.slot ((r.cells h.slot).control.withPhase .retired) else r

/-! ## The callers outside the client -/

/-- One call of a caller outside the client. -/
inductive Call
  | pin (h : KvMemBlockHandle)
  | clone (h : KvMemBlockHandle)
  | reset (h : KvMemBlockHandle)
  | retire (h : KvMemBlockHandle)
  | retireIfOnlyReader (h : KvMemBlockHandle)
  | rescue (h : KvMemBlockHandle)
  /-- `try_reclaim(h)` up to its release callback -/
  | releasing (h : KvMemBlockHandle)
  /-- the callback has returned true -/
  | free (h : KvMemBlockHandle)
  deriving DecidableEq, Repr

/-- The call takes effect; `none` where it changes nothing. -/
def step : Call → Option Repo
  | .pin h => (r.tryPin h).map fun r => { r with leases := h ::ₘ r.leases }
  | .clone h =>
      if h ∈ r.leases then (r.clone h.slot).map fun r => { r with leases := h ::ₘ r.leases }
      else none
  | .reset h =>
      if h ∈ r.leases then some { r.unpin h.slot with leases := r.leases.erase h } else none
  | .retire h => some (r.retire h)
  | .retireIfOnlyReader h =>
      if h ∈ r.leases ∧ (r.cells h.slot).control = .single .live then
        some (r.setControl h.slot (.single .retired))
      else none
  | .rescue h =>
      if h ∈ r.leases ∧ r.phase h.slot = .retired then
        some (r.setControl h.slot ((r.cells h.slot).control.withPhase .live))
      else none
  | .releasing h =>
      if h.slot < r.config.capacity ∧ (r.record h.slot).handle = h ∧ r.refs h.slot = 0 ∧
          (r.phase h.slot = .retired ∨ r.phase h.slot = .cancelled) then
        some (r.setControl h.slot .releasing)
      else none
  | .free h =>
      if h.slot < r.config.capacity ∧ (r.record h.slot).handle = h ∧
          r.phase h.slot = .releasing then
        some { r.setControl h.slot .free with ready := r.ready ++ [h.slot] }
      else none

/-! ## Reading the cells -/

variable {r}

@[simp] theorem setControl_self (i : ℕ) (c : Control) :
    ((r.setControl i c).cells i).control = c := by simp [setControl]

theorem setControl_control (i j : ℕ) (c : Control) :
    ((r.setControl i c).cells j).control = if j = i then c else (r.cells j).control := by
  by_cases h : j = i
  · subst h
    simp
  · simp [setControl, h]

@[simp] theorem setControl_record (i j : ℕ) (c : Control) :
    (r.setControl i c).record j = r.record j := by
  by_cases h : j = i
  · subst h
    simp [setControl, record]
  · simp [setControl, record, h]

theorem setControl_phase (i j : ℕ) (c : Control) :
    (r.setControl i c).phase j = if j = i then c.phase else r.phase j := by
  rw [phase, setControl_control]
  split_ifs <;> rfl

theorem setControl_refs (i j : ℕ) (c : Control) :
    (r.setControl i c).refs j = if j = i then c.refs else r.refs j := by
  rw [refs, setControl_control]
  split_ifs <;> rfl

@[simp] theorem setControl_config (i : ℕ) (c : Control) :
    (r.setControl i c).config = r.config := rfl
@[simp] theorem setControl_ready (i : ℕ) (c : Control) : (r.setControl i c).ready = r.ready := rfl
@[simp] theorem setControl_sequence (i : ℕ) (c : Control) :
    (r.setControl i c).sequence = r.sequence := rfl
@[simp] theorem setControl_leases (i : ℕ) (c : Control) :
    (r.setControl i c).leases = r.leases := rfl

end Repo

/-- What the client keeps: `held i` of the references on slot `i` are its own
leases and reservations. -/
structure Repo.Ok (r : Repo) (held : ℕ → ℕ) : Prop where
  refs : ∀ i, r.refs i = r.leases.countP (fun h => h.slot = i) + held i
  phase_of_refs : ∀ i, r.refs i ≠ 0 → r.phase i ≠ .free ∧ r.phase i ≠ .releasing
  record_slot : ∀ i, r.phase i ≠ .free → (r.record i).handle.slot = i
  leases : ∀ h ∈ r.leases, (r.record h.slot).handle = h
  ready_nodup : r.ready.Nodup
  mem_ready : ∀ i, i ∈ r.ready ↔ i < r.config.capacity ∧ r.phase i = .free
  generation : ∀ i, (r.record i).handle.generation ≤ r.sequence

namespace Repo.Ok

variable {r r' : Repo} {held held' : ℕ → ℕ}

/-- One control word is stored, with what it counts accounted for, and the
slot neither becomes free nor stops being so. -/
theorem setControl (hr : r.Ok held) {i : ℕ} {c : Control} (leases : Multiset KvMemBlockHandle)
    (hrefs : c.refs = leases.countP (fun h => h.slot = i) + held' i)
    (hother : ∀ j, j ≠ i → leases.countP (fun h => h.slot = j) + held' j =
      r.leases.countP (fun h => h.slot = j) + held j)
    (hlive : c.refs ≠ 0 → c.phase ≠ .free ∧ c.phase ≠ .releasing)
    (hfree : c.phase = .free ↔ r.phase i = .free)
    (hleases : ∀ h ∈ leases, (r.record h.slot).handle = h) :
    ({ r.setControl i c with leases := leases } : Repo).Ok held' where
  refs j := by
    show (r.setControl i c).refs j = _
    rw [setControl_refs]
    split_ifs with hj
    · rw [hj, hrefs]
    · rw [hr.refs, hother j hj]
  phase_of_refs j := by
    show (r.setControl i c).refs j ≠ 0 → (r.setControl i c).phase j ≠ .free ∧
      (r.setControl i c).phase j ≠ .releasing
    rw [setControl_refs, setControl_phase]
    split_ifs
    · exact hlive
    · exact hr.phase_of_refs j
  record_slot j := by
    show (r.setControl i c).phase j ≠ .free → ((r.setControl i c).record j).handle.slot = j
    rw [setControl_phase, setControl_record]
    split_ifs with hj
    · rw [ne_eq, hfree, ← hj]
      exact hr.record_slot j
    · exact hr.record_slot j
  leases h hh := by
    show ((r.setControl i c).record h.slot).handle = h
    rw [setControl_record]
    exact hleases h hh
  ready_nodup := hr.ready_nodup
  mem_ready j := by
    show j ∈ r.ready ↔ j < r.config.capacity ∧ (r.setControl i c).phase j = .free
    rw [setControl_phase, hr.mem_ready]
    split_ifs with hj
    · rw [hfree, ← hj]
    · rfl
  generation j := by
    show ((r.setControl i c).record j).handle.generation ≤ r.sequence
    rw [setControl_record]
    exact hr.generation j

/-- The same with the leases outside unchanged. -/
theorem setControl' (hr : r.Ok held) {i : ℕ} {c : Control}
    (hrefs : c.refs + held i = r.refs i + held' i) (hother : ∀ j, j ≠ i → held' j = held j)
    (hlive : c.refs ≠ 0 → c.phase ≠ .free ∧ c.phase ≠ .releasing)
    (hfree : c.phase = .free ↔ r.phase i = .free) : (r.setControl i c).Ok held' := by
  refine hr.setControl r.leases ?_ (fun j hj => by rw [hother j hj]) hlive hfree
    hr.leases
  have hcount := hr.refs i
  omega

theorem initial {c : Config} : (Repo.initial c).Ok fun _ => 0 where
  refs _ := rfl
  phase_of_refs i h := absurd rfl h
  record_slot i h := absurd rfl h
  leases h hh := absurd hh (Multiset.notMem_zero h)
  ready_nodup := List.nodup_range
  mem_ready i := by
    show i ∈ List.range c.capacity ↔ i < c.capacity ∧ Phase.free = Phase.free
    rw [List.mem_range, and_iff_left rfl]
  generation i := Nat.zero_le _

/-- A slot somebody is counted on is not free. -/
theorem held_eq_zero (hr : r.Ok held) {i : ℕ} (hfree : r.phase i = .free) : held i = 0 := by
  by_contra hne
  have hrefs := hr.refs i
  exact (hr.phase_of_refs i (by omega)).1 hfree

end Repo.Ok

/-! ## What each call does -/

namespace Repo

variable {r r' : Repo} {held held' : ℕ → ℕ} {h : KvMemBlockHandle}

/-- A pin that succeeds adds one reference to a live block. -/
theorem tryPin_eq_some (hpin : r.tryPin h = some r') :
    r.Pinnable h ∧ ∃ c : Control, r' = r.setControl h.slot c ∧ c.phase = .live ∧
      c.refs = r.refs h.slot + 1 := by
  unfold tryPin at hpin
  split_ifs at hpin with hpinnable
  rw [Option.map_eq_some_iff] at hpin
  obtain ⟨c, hc, rfl⟩ := hpin
  obtain ⟨-, hphase, hrefs⟩ := acquire_eq_some hc
  exact ⟨hpinnable, c, rfl, hphase.trans hpinnable.2.2.1, hrefs⟩

theorem tryPin_isSome : (r.tryPin h).isSome ↔ r.Pinnable h := by
  unfold tryPin
  split_ifs with hpinnable
  · have hacquirable : Acquirable false (r.cells h.slot).control :=
      ⟨fun hf => absurd hf (by decide), fun _ => hpinnable.2.2.1, hpinnable.2.2.2⟩
    simp [acquire, hacquirable, hpinnable]
  · simp [hpinnable]

/-- A clone adds one to a count that is not zero. -/
theorem clone_eq_some {i : ℕ} (hclone : r.clone i = some r') :
    ∃ c : Control, r' = r.setControl i c ∧ c.phase = r.phase i ∧ c.refs = r.refs i + 1 ∧
      r.refs i ≠ 0 := by
  unfold clone at hclone
  rw [Option.map_eq_some_iff] at hclone
  obtain ⟨c, hc, rfl⟩ := hclone
  obtain ⟨hacquirable, hphase, hrefs⟩ := acquire_eq_some hc
  exact ⟨c, rfl, hphase, hrefs, (hacquirable.1 rfl).1⟩

/-- A commit makes a block live that was being written. -/
theorem commit_eq_some (hcommit : r.commit h = some r') :
    r.phase h.slot = .writing ∧
      r' = r.setControl h.slot ((r.cells h.slot).control.withPhase .live) := by
  unfold commit at hcommit
  split_ifs at hcommit with hwriting
  exact ⟨hwriting, (Option.some.inj hcommit).symm⟩

/-- A reservation claims a free slot under a generation not used before. -/
theorem tryReserve_eq_some {b n : ℕ} (hreserve : r.tryReserve b n = some (h, r')) :
    h.slot ∈ r.ready ∧ h.generation = r.sequence + 1 ∧ r'.sequence = r.sequence + 1 ∧
      r'.config = r.config ∧ r'.leases = r.leases ∧ r.ready = h.slot :: r'.ready ∧
      r'.cells = Function.update r.cells h.slot
        ⟨.single .writing, ⟨h, h.generation, b, n⟩⟩ := by
  unfold tryReserve at hreserve
  cases hready : r.ready with
  | nil => simp [hready] at hreserve
  | cons i rest =>
      simp only [hready, Option.some.injEq, Prod.mk.injEq] at hreserve
      obtain ⟨rfl, rfl⟩ := hreserve
      exact ⟨List.mem_cons_self, rfl, rfl, rfl, rfl, rfl, rfl⟩

theorem retire_config (r : Repo) (h : KvMemBlockHandle) : (r.retire h).config = r.config := by
  unfold retire
  split_ifs <;> rfl

theorem retire_record (r : Repo) (h : KvMemBlockHandle) (i : ℕ) :
    (r.retire h).record i = r.record i := by
  unfold retire
  split_ifs
  · exact setControl_record _ _ _
  · rfl

theorem retire_phase (r : Repo) (h : KvMemBlockHandle) {i : ℕ} (hi : r.phase i ≠ .live) :
    (r.retire h).phase i = r.phase i := by
  unfold retire
  split_ifs with hpinnable
  · rw [setControl_phase]
    split_ifs with heq
    · exact absurd hpinnable.2.2.1 (heq ▸ hi)
    · rfl
  · rfl

namespace Ok

theorem tryPin (hr : r.Ok held) (hpin : r.tryPin h = some r')
    (hheld : ∀ j, held' j = held j + if j = h.slot then 1 else 0) : r'.Ok held' := by
  obtain ⟨hpinnable, c, rfl, hphase, hrefs⟩ := tryPin_eq_some hpin
  have hlive : r.phase h.slot = .live := hpinnable.2.2.1
  refine hr.setControl' ?_ (fun j hj => by rw [hheld, if_neg hj, add_zero]) (fun _ => ?_) ?_
  · rw [hheld, if_pos rfl, hrefs]
    omega
  · rw [hphase]
    exact ⟨by decide, by decide⟩
  · rw [hphase, hlive]

/-- A lease of the client ends. -/
theorem unpin (hr : r.Ok held) {i : ℕ} (hheld : ∀ j, held j = held' j + if j = i then 1 else 0) :
    (r.unpin i).Ok held' := by
  have hi := hheld i
  rw [if_pos rfl] at hi
  have hrefs := hr.refs i
  have hphase := hr.phase_of_refs i (by omega)
  refine hr.setControl' ?_ (fun j hj => by rw [hheld j, if_neg hj, add_zero]) (fun _ => hphase)
    Iff.rfl
  show r.refs i - 1 + held i = r.refs i + held' i
  omega

/-- The client gives a lease away, or takes one over. -/
theorem give (hr : r.Ok held) (hh : (r.record h.slot).handle = h)
    (hheld : ∀ j, held j = held' j + if j = h.slot then 1 else 0) :
    ({ r with leases := h ::ₘ r.leases } : Repo).Ok held' where
  refs j := by
    have hrefs := hr.refs j
    rw [hheld] at hrefs
    show r.refs j = (h ::ₘ r.leases).countP (fun h => h.slot = j) + held' j
    rw [Multiset.countP_cons]
    by_cases hj : j = h.slot
    · rw [if_pos hj] at hrefs
      rw [if_pos hj.symm]
      omega
    · rw [if_neg hj] at hrefs
      rw [if_neg fun heq => hj heq.symm]
      omega
  phase_of_refs := hr.phase_of_refs
  record_slot := hr.record_slot
  leases g hg := by
    rcases Multiset.mem_cons.mp hg with rfl | hg
    · exact hh
    · exact hr.leases g hg
  ready_nodup := hr.ready_nodup
  mem_ready := hr.mem_ready
  generation := hr.generation

theorem commit (hr : r.Ok held) (hcommit : r.commit h = some r') : r'.Ok held := by
  obtain ⟨hwriting, rfl⟩ := commit_eq_some hcommit
  refine hr.setControl' rfl (fun _ _ => rfl) (fun _ => ⟨by simp, by simp⟩) ?_
  rw [hwriting]
  simp

theorem cancel (hr : r.Ok held) (hheld : ∀ j, held j = held' j + if j = h.slot then 1 else 0) :
    (r.cancel h).Ok held' := by
  unfold Repo.cancel
  by_cases hwriting : r.phase h.slot = .writing
  · rw [if_pos hwriting]
    refine Ok.unpin (?_ : Ok _ held) hheld
    refine hr.setControl' rfl (fun _ _ => rfl) (fun _ => ⟨by simp, by simp⟩) ?_
    rw [hwriting]
    simp
  · rw [if_neg hwriting]
    exact hr.unpin hheld

theorem retire (hr : r.Ok held) (h : KvMemBlockHandle) : (r.retire h).Ok held := by
  unfold Repo.retire
  split_ifs with hpinnable
  · refine hr.setControl' rfl (fun _ _ => rfl) (fun _ => ⟨by simp, by simp⟩) ?_
    rw [hpinnable.2.2.1]
    simp
  · exact hr

theorem reserve (hr : r.Ok held) {b n : ℕ} (hreserve : r.tryReserve b n = some (h, r'))
    (hheld : ∀ j, held' j = held j + if j = h.slot then 1 else 0) : r'.Ok held' := by
  obtain ⟨hmem, hgeneration, hsequence, hconfig, hleases, hready, hcells⟩ :=
    tryReserve_eq_some hreserve
  have hfree := ((hr.mem_ready h.slot).mp hmem).2
  have hcell : r'.cells h.slot = ⟨.single .writing, ⟨h, h.generation, b, n⟩⟩ := by simp [hcells]
  have hother : ∀ j, j ≠ h.slot → r'.cells j = r.cells j := fun j hj => by simp [hcells, hj]
  have hzero : r.refs h.slot = 0 := by
    by_contra hne
    exact (hr.phase_of_refs _ hne).1 hfree
  have hphase : r'.phase h.slot = .writing := by simp [Repo.phase, hcell]
  have hrefs : r'.refs h.slot = 1 := by simp [Repo.refs, hcell]
  have hnodup := hr.ready_nodup
  rw [hready, List.nodup_cons] at hnodup
  refine ⟨fun j => ?_, fun j => ?_, fun j => ?_, fun g hg => ?_, hnodup.2, fun j => ?_, fun j => ?_⟩
  · have hcount := hr.refs j
    by_cases hj : j = h.slot
    · subst hj
      rw [hrefs, hleases, hheld, if_pos rfl]
      omega
    · rw [hleases, hheld, if_neg hj, add_zero, ← hcount]
      simp [Repo.refs, hother j hj]
  · by_cases hj : j = h.slot
    · subst hj
      rw [hphase]
      exact fun _ => ⟨by decide, by decide⟩
    · simpa [Repo.refs, Repo.phase, hother j hj] using hr.phase_of_refs j
  · by_cases hj : j = h.slot
    · subst hj
      intro _
      simp [Repo.record, hcell]
    · simpa [Repo.record, Repo.phase, hother j hj] using hr.record_slot j
  · rw [hleases] at hg
    have hne : g.slot ≠ h.slot := by
      intro heq
      have hpos : 0 < r.leases.countP fun l => l.slot = h.slot :=
        Multiset.countP_pos.mpr ⟨g, hg, heq⟩
      have hcount := hr.refs h.slot
      omega
    simpa [Repo.record, hother g.slot hne] using hr.leases g hg
  · have hmem' := hr.mem_ready j
    rw [hready, List.mem_cons] at hmem'
    by_cases hj : j = h.slot
    · subst hj
      rw [hphase]
      simpa using hnodup.1
    · rw [hconfig]
      simpa [hj, Repo.phase, hother j hj] using hmem'
  · rw [hsequence]
    by_cases hj : j = h.slot
    · subst hj
      simp [Repo.record, hcell, hgeneration]
    · have hle := hr.generation j
      simp only [Repo.record, hother j hj] at hle ⊢
      omega

/-! ## The frame -/

/-- No call of the others writes a record, and a slot being written stays so. -/
theorem step (hr : r.Ok held) {a : Call} (hstep : r.step a = some r') :
    r'.Ok held ∧ (∀ i, r'.record i = r.record i) ∧ r'.config = r.config ∧
      r'.sequence = r.sequence ∧ ∀ i, r.phase i = .writing → r'.phase i = .writing := by
  cases a with
  | pin h =>
      simp only [Repo.step, Option.map_eq_some_iff] at hstep
      obtain ⟨u, hu, rfl⟩ := hstep
      have hok : u.Ok fun j => held j + if j = h.slot then 1 else 0 := hr.tryPin hu fun _ => rfl
      obtain ⟨hpinnable, c, rfl, hphase, -⟩ := tryPin_eq_some hu
      refine ⟨hok.give ?_ fun _ => rfl, fun i => setControl_record _ _ _, rfl, rfl, fun i hi => ?_⟩
      · rw [setControl_record]
        exact hpinnable.2.1
      · show (r.setControl h.slot c).phase i = .writing
        rw [setControl_phase, if_neg]
        · exact hi
        · rintro rfl
          rw [hpinnable.2.2.1] at hi
          cases hi
  | clone h =>
      simp only [Repo.step, Option.ite_none_right_eq_some, Option.map_eq_some_iff] at hstep
      obtain ⟨hmem, u, hu, rfl⟩ := hstep
      obtain ⟨c, rfl, hphase, hrefs, hne⟩ := clone_eq_some hu
      have hkeep := hr.phase_of_refs _ hne
      refine ⟨hr.setControl (h ::ₘ r.leases) ?_ (fun j hj => ?_) (fun _ => ?_) ?_ ?_,
        fun i => setControl_record _ _ _, rfl, rfl, fun i hi => ?_⟩
      · rw [hrefs, hr.refs, Multiset.countP_cons, if_pos rfl]
        omega
      · rw [Multiset.countP_cons, if_neg fun heq => hj heq.symm, add_zero]
      · rw [hphase]
        exact hkeep
      · rw [hphase]
      · intro g hg
        rcases Multiset.mem_cons.mp hg with rfl | hg
        · exact hr.leases _ hmem
        · exact hr.leases g hg
      · show (r.setControl h.slot c).phase i = .writing
        rw [setControl_phase]
        split_ifs with heq
        · rw [hphase, ← heq, hi]
        · exact hi
  | reset h =>
      simp only [Repo.step, Option.ite_none_right_eq_some, Option.some.injEq] at hstep
      obtain ⟨hmem, rfl⟩ := hstep
      obtain ⟨rest, hrest⟩ := Multiset.exists_cons_of_mem hmem
      have hcount := hr.refs h.slot
      rw [hrest, Multiset.countP_cons, if_pos rfl] at hcount
      have hkeep := hr.phase_of_refs h.slot (by omega)
      refine ⟨hr.setControl (r.leases.erase h) ?_ (fun j hj => ?_) (fun _ => hkeep) Iff.rfl
        fun g hg => hr.leases g (Multiset.mem_of_mem_erase hg),
        fun i => setControl_record _ _ _, rfl, rfl, fun i hi => ?_⟩
      · show r.refs h.slot - 1 = _
        rw [hrest, Multiset.erase_cons_head]
        omega
      · rw [hrest, Multiset.erase_cons_head, Multiset.countP_cons, if_neg fun heq => hj heq.symm,
          add_zero]
      · show (r.setControl h.slot _).phase i = .writing
        rw [setControl_phase]
        split_ifs with heq
        · exact heq ▸ hi
        · exact hi
  | retire h =>
      obtain rfl := Option.some.inj hstep
      refine ⟨hr.retire h, retire_record r h, retire_config r h, ?_, fun i hi => ?_⟩
      · unfold Repo.retire
        split_ifs <;> rfl
      · rw [retire_phase r h (by rw [hi]; decide), hi]
  | retireIfOnlyReader h =>
      simp only [Repo.step, Option.ite_none_right_eq_some, Option.some.injEq] at hstep
      obtain ⟨⟨-, hsingle⟩, rfl⟩ := hstep
      have hphase : r.phase h.slot = .live := by rw [Repo.phase, hsingle, Control.single_phase]
      refine ⟨hr.setControl' ?_ (fun _ _ => rfl) (fun _ => ⟨by simp, by simp⟩) ?_,
        fun i => setControl_record _ _ _, rfl, rfl, fun i hi => ?_⟩
      · rw [Repo.refs, hsingle, Control.single_refs, Control.single_refs]
      · rw [hphase]
        simp
      · rw [setControl_phase, if_neg]
        · exact hi
        · rintro rfl
          rw [hphase] at hi
          cases hi
  | rescue h =>
      simp only [Repo.step, Option.ite_none_right_eq_some, Option.some.injEq] at hstep
      obtain ⟨⟨-, hphase⟩, rfl⟩ := hstep
      refine ⟨hr.setControl' rfl (fun _ _ => rfl) (fun _ => ⟨by simp, by simp⟩) ?_,
        fun i => setControl_record _ _ _, rfl, rfl, fun i hi => ?_⟩
      · rw [hphase]
        simp
      · rw [setControl_phase, if_neg]
        · exact hi
        · rintro rfl
          rw [hphase] at hi
          cases hi
  | releasing h =>
      simp only [Repo.step, Option.ite_none_right_eq_some, Option.some.injEq] at hstep
      obtain ⟨⟨-, -, hzero, hphase⟩, rfl⟩ := hstep
      refine ⟨hr.setControl' ?_ (fun _ _ => rfl) (fun hne => absurd rfl hne) ?_,
        fun i => setControl_record _ _ _, rfl, rfl, fun i hi => ?_⟩
      · rw [hzero]
        rfl
      · rcases hphase with hphase | hphase <;> · rw [hphase]; simp
      · rw [setControl_phase, if_neg]
        · exact hi
        · rintro rfl
          rcases hphase with hphase | hphase <;> · rw [hphase] at hi; cases hi
  | free h =>
      simp only [Repo.step, Option.ite_none_right_eq_some, Option.some.injEq] at hstep
      obtain ⟨⟨hlt, hhandle, hphase⟩, rfl⟩ := hstep
      have hzero : r.refs h.slot = 0 := by
        by_contra hne
        exact (hr.phase_of_refs _ hne).2 hphase
      refine ⟨⟨fun j => ?_, fun j => ?_, fun j => ?_, fun g hg => ?_, ?_, fun j => ?_, fun j => ?_⟩,
        fun i => setControl_record _ _ _, rfl, rfl, fun i hi => ?_⟩
      · show (r.setControl h.slot .free).refs j = _
        rw [setControl_refs]
        split_ifs with hj
        · rw [hj, Control.free_refs, ← hzero]
          exact hr.refs _
        · exact hr.refs j
      · show (r.setControl h.slot .free).refs j ≠ 0 → (r.setControl h.slot .free).phase j ≠ .free ∧
          (r.setControl h.slot .free).phase j ≠ .releasing
        rw [setControl_refs, setControl_phase]
        split_ifs with hj
        · exact fun hne => absurd rfl hne
        · exact hr.phase_of_refs j
      · show (r.setControl h.slot .free).phase j ≠ .free →
          ((r.setControl h.slot .free).record j).handle.slot = j
        rw [setControl_phase, setControl_record]
        split_ifs with hj
        · exact fun hne => absurd rfl hne
        · exact hr.record_slot j
      · show ((r.setControl h.slot .free).record g.slot).handle = g
        rw [setControl_record]
        exact hr.leases g hg
      · have hnot : h.slot ∉ r.ready := by
          rw [hr.mem_ready, hphase]
          simp
        show (r.ready ++ [h.slot]).Nodup
        rw [List.nodup_append']
        exact ⟨hr.ready_nodup, List.nodup_singleton _, by simpa using hnot⟩
      · show j ∈ r.ready ++ [h.slot] ↔ j < r.config.capacity ∧
          (r.setControl h.slot .free).phase j = .free
        rw [List.mem_append, List.mem_singleton, setControl_phase, hr.mem_ready]
        by_cases hj : j = h.slot
        · simp [hj, hlt]
        · simp [hj]
      · show ((r.setControl h.slot .free).record j).handle.generation ≤ r.sequence
        rw [setControl_record]
        exact hr.generation j
      · show (r.setControl h.slot .free).phase i = .writing
        rw [setControl_phase, if_neg]
        · exact hi
        · rintro rfl
          rw [hphase] at hi
          cases hi

end Ok

end Repo

end Qw3.Repository
