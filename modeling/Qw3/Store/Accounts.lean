import Qw3.Store.Directory

/-!
# Whose leases are counted where

The store's own references on a slot, and what its calls do to the repository
when they take or end several leases in a row.

* `State.held` — the references of the residency table, of the open transaction
  and of the checkpoints.
* `Quiet r r'` — from `r` to `r'` no record changed and no slot stopped being
  written; every call but a reservation, a commit and a cancellation is quiet.
* `Repo.Ok.unpinAll`, `.cancelAll`, `.giveAll` — the loops over leases.
-/

namespace Qw3.Store

open Qw3.Repository (KvMemBlockHandle Record Repo Control)

/-- How many of the handles name slot `i`. -/
def countOn (hs : List KvMemBlockHandle) (i : ℕ) : ℕ := hs.countP fun h => h.slot = i

@[simp] theorem countOn_nil (i : ℕ) : countOn [] i = 0 := rfl

theorem countOn_cons (h : KvMemBlockHandle) (hs : List KvMemBlockHandle) (i : ℕ) :
    countOn (h :: hs) i = countOn hs i + if i = h.slot then 1 else 0 := by
  rw [countOn, List.countP_cons, countOn]
  by_cases hi : i = h.slot
  · simp [hi]
  · simp [hi, Ne.symm hi]

theorem countOn_append (hs hs' : List KvMemBlockHandle) (i : ℕ) :
    countOn (hs ++ hs') i = countOn hs i + countOn hs' i :=
  List.countP_append

theorem countOn_pos {hs : List KvMemBlockHandle} {h : KvMemBlockHandle} (hh : h ∈ hs) :
    0 < countOn hs h.slot :=
  List.countP_pos_iff.mpr ⟨h, hh, by simp⟩

/-- A list's handles are those that meet a test and those that do not. -/
theorem countOn_filter (keep : KvMemBlockHandle → Bool) (hs : List KvMemBlockHandle) (i : ℕ) :
    countOn hs i = countOn (hs.filter keep) i + countOn (hs.filter fun h => !keep h) i := by
  induction hs with
  | nil => rfl
  | cons h rest ih =>
      rw [countOn_cons, ih, List.filter_cons, List.filter_cons]
      cases keep h
      · simp [countOn_cons]
        omega
      · simp [countOn_cons]
        omega

/-! ## What the store holds -/

/-- The handles of the spans an open append holds leases or reservations of. -/
def Append.handles (a : Append) : List KvMemBlockHandle := a.spans.map Span.handle

/-- The handles of the leases of an open rewind. -/
def Rewind.handles (w : Rewind) : List KvMemBlockHandle := w.captured.map Span.handle

namespace State

variable (s : State)

/-- The resident lease of a slot counts as one. -/
def residentOn (i : ℕ) : ℕ := if (s.resident i).isSome then 1 else 0

/-- The handles of the open transaction. -/
def transactionHandles : List KvMemBlockHandle :=
  s.append.elim [] Append.handles ++ s.rewind.elim [] Rewind.handles

/-- The handles of the checkpoints' leases. -/
def checkpointHandles : List KvMemBlockHandle := s.checkpoints.flatMap Checkpoint.leases

/-- The store's own references on slot `i`. -/
def held (i : ℕ) : ℕ :=
  s.residentOn i + countOn s.transactionHandles i + countOn s.checkpointHandles i

end State

/-! ## Quiet changes of the repository -/

/-- No record changes, no identity is used, and what is being written still is. -/
structure Quiet (r r' : Repo) : Prop where
  config : r'.config = r.config
  sequence : r'.sequence = r.sequence
  record : ∀ i, r'.record i = r.record i
  writing : ∀ i, r.phase i = .writing → r'.phase i = .writing

namespace Quiet

variable {r r' r'' : Repo} {h : KvMemBlockHandle}

theorem refl (r : Repo) : Quiet r r := ⟨rfl, rfl, fun _ => rfl, fun _ hi => hi⟩

theorem trans (h : Quiet r r') (h' : Quiet r' r'') : Quiet r r'' where
  config := h'.config.trans h.config
  sequence := h'.sequence.trans h.sequence
  record i := (h'.record i).trans (h.record i)
  writing i hi := h'.writing i (h.writing i hi)

/-- A control word is stored that does not end the writing of its slot. -/
theorem setControl (r : Repo) {i : ℕ} {c : Control}
    (hc : r.phase i = .writing → c.phase = .writing) : Quiet r (r.setControl i c) where
  config := rfl
  sequence := rfl
  record j := Repo.setControl_record i j c
  writing j hj := by
    rw [Repo.setControl_phase]
    split_ifs with hij
    · exact hc (hij ▸ hj)
    · exact hj

theorem tryPin (hpin : r.tryPin h = some r') : Quiet r r' := by
  obtain ⟨hpinnable, c, rfl, -, -⟩ := Repo.tryPin_eq_some hpin
  refine setControl r fun hwriting => ?_
  rw [hpinnable.2.2.1] at hwriting
  exact absurd hwriting (by decide)

theorem clone {i : ℕ} (hclone : r.clone i = some r') : Quiet r r' := by
  obtain ⟨c, rfl, hphase, -, -⟩ := Repo.clone_eq_some hclone
  exact setControl r fun hwriting => hphase.trans hwriting

theorem unpin (r : Repo) (i : ℕ) : Quiet r (r.unpin i) := setControl r id

theorem retire (r : Repo) (h : KvMemBlockHandle) : Quiet r (r.retire h) := by
  unfold Repo.retire
  split_ifs with hpinnable
  · refine setControl r fun hwriting => ?_
    rw [hpinnable.2.2.1] at hwriting
    exact absurd hwriting (by decide)
  · exact refl r

theorem unpinAll (hs : List KvMemBlockHandle) (r : Repo) : Quiet r (State.unpinAll hs r) := by
  induction hs generalizing r with
  | nil => exact refl r
  | cons h rest ih => exact (unpin r h.slot).trans (ih _)

theorem step {held : ℕ → ℕ} (hr : r.Ok held) {a : Repo.Call} (hstep : r.step a = some r') :
    Quiet r r' := by
  obtain ⟨-, hrecord, hconfig, hsequence, hwriting⟩ := hr.step hstep
  exact ⟨hconfig, hsequence, hrecord, hwriting⟩

end Quiet

end Qw3.Store

namespace Qw3.Repository.Repo.Ok

open Qw3.Store

variable {r : Repo} {held held' : ℕ → ℕ}

theorem congr (hr : r.Ok held) (hheld : ∀ i, held i = held' i) : r.Ok held' :=
  (funext hheld : held = held') ▸ hr

/-- The leases on a list of handles end. -/
theorem unpinAll (hs : List KvMemBlockHandle) (hr : r.Ok held)
    (hheld : ∀ i, held i = held' i + countOn hs i) : (State.unpinAll hs r).Ok held' := by
  induction hs generalizing r held with
  | nil => exact hr.congr hheld
  | cons h rest ih =>
      refine ih (?_ : Repo.Ok _ fun i => held' i + countOn rest i) fun _ => rfl
      refine hr.unpin (i := h.slot) fun i => ?_
      rw [hheld, countOn_cons, Nat.add_assoc]

/-- The reservations of a list of spans are cancelled. -/
theorem cancelAll {spans : List Span} (hr : r.Ok held)
    (hheld : ∀ i, held i = held' i + countOn (spans.map Span.handle) i) :
    (spans.foldl (fun r sp => r.cancel sp.handle) r).Ok held' := by
  induction spans generalizing r held with
  | nil => exact hr.congr hheld
  | cons sp rest ih =>
      refine ih (?_ : Repo.Ok _ fun i => held' i + countOn (rest.map Span.handle) i) fun _ => rfl
      refine hr.cancel fun i => ?_
      rw [hheld, List.map_cons, countOn_cons, Nat.add_assoc]

/-- The leases on a list of handles are handed to callers outside. -/
theorem giveAll (hs : List KvMemBlockHandle) (hr : r.Ok held)
    (hrecord : ∀ h ∈ hs, (r.record h.slot).handle = h)
    (hheld : ∀ i, held i = held' i + countOn hs i) :
    ({ r with leases := (hs : Multiset KvMemBlockHandle) + r.leases } : Repo).Ok held' := by
  induction hs generalizing held' with
  | nil =>
      rw [Multiset.coe_nil, zero_add]
      exact hr.congr hheld
  | cons h rest ih =>
      have hrest : Repo.Ok _ fun i => held' i + if i = h.slot then 1 else 0 := ih
        (fun g hg => hrecord g (List.mem_cons_of_mem _ hg)) fun i => by
          rw [hheld, countOn_cons]
          omega
      have hgive := hrest.give (hrecord h List.mem_cons_self) fun _ => rfl
      rwa [← Multiset.cons_add, Multiset.cons_coe] at hgive

end Qw3.Repository.Repo.Ok
