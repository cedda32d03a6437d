import Mathlib.Algebra.Order.Group.Multiset
import Qw3.Repository.Fence

/-!
# The repository among its callers

A caller holds some of the repository's actors; everybody else holds the rest.

* `State.stepAs` — a step taken with the actors of one caller.
* `State.step_frame` — the frame rule: what a caller does with its own actors
  it does in the whole repository, and the other actors stay.
* `Inv.record_of_step` — what a caller may rely on meanwhile: the record of a
  slot somebody is counted on does not change.
-/

namespace Qw3.Repository

namespace State

variable {s t : State}

/-- The repository with other actors in it. -/
def withActors (s : State) (actors : Multiset Actor) : State := { s with actors := actors }

@[simp] theorem withActors_actors (s : State) (A : Multiset Actor) :
    (s.withActors A).actors = A := rfl
@[simp] theorem withActors_slots (s : State) (A : Multiset Actor) :
    (s.withActors A).slots = s.slots := rfl
@[simp] theorem withActors_config (s : State) (A : Multiset Actor) :
    (s.withActors A).config = s.config := rfl
@[simp] theorem withActors_withActors (s : State) (A B : Multiset Actor) :
    (s.withActors A).withActors B = s.withActors B := rfl

/-- A step taken with the actors `own`: the repository after it, with the
actors it had, and what has become of `own`. -/
def stepAs (s : State) (own : Multiset Actor) (a : Action) : Option (State × Multiset Actor) :=
  ((s.withActors own).step a).map fun t => (t.withActors s.actors, t.actors)

/-! ## The frame rule -/

theorem replaceActor_frame {a : Actor} {bs : List Actor} (h : s.replaceActor a bs = some t)
    (rest : Multiset Actor) :
    (s.withActors (s.actors + rest)).replaceActor a bs = some (t.withActors (t.actors + rest)) := by
  obtain ⟨hmem, rfl⟩ := replaceActor_eq_some.mp h
  refine replaceActor_eq_some.mpr ⟨Multiset.mem_add.mpr (.inl hmem), ?_⟩
  rw [withActors_actors, Multiset.erase_add_left_pos _ hmem, add_right_comm]
  rfl

theorem casRound_frame {op : CasOp} {prior : Control} {spurious : Bool}
    (h : s.casRound op prior spurious = some t) (rest : Multiset Actor) :
    (s.withActors (s.actors + rest)).casRound op prior spurious =
      some (t.withActors (t.actors + rest)) := by
  unfold casRound at h ⊢
  cases hnext : op.next prior with
  | none =>
      simp only [hnext] at h ⊢
      exact replaceActor_frame h rest
  | some next =>
      simp only [hnext] at h ⊢
      by_cases hcas : (s.slots op.target).control = prior ∧ spurious = false
      · rw [if_pos hcas] at h
        exact (if_pos hcas).trans (replaceActor_frame h rest)
      · rw [if_neg hcas] at h
        exact (if_neg hcas).trans (replaceActor_frame h rest)

theorem retireIfOnlyReader_frame {a : Actor} {h' : KvMemBlockHandle} {after : List Actor}
    (h : s.retireIfOnlyReader a h' after = some t) (rest : Multiset Actor) :
    (s.withActors (s.actors + rest)).retireIfOnlyReader a h' after =
      some (t.withActors (t.actors + rest)) := by
  unfold retireIfOnlyReader at h ⊢
  by_cases hsingle : (s.slots h'.slot).control = .single .live
  · rw [if_pos hsingle] at h
    exact (if_pos hsingle).trans (replaceActor_frame h rest)
  · rw [if_neg hsingle] at h
    exact (if_neg hsingle).trans (replaceActor_frame h rest)

theorem produce_frame (h : s.produce = some t) (rest : Multiset Actor) :
    (s.withActors (s.actors + rest)).produce = some (t.withActors (t.actors + rest)) := by
  unfold produce withActors at *
  cases hp : s.producer with
  | idle => simp [hp] at h
  | popTail b n =>
      simp only [hp] at h ⊢
      by_cases hempty : s.ready.head = s.ready.tail
      · rw [if_pos hempty] at h ⊢
        rw [← Option.some.inj h]
      · rw [if_neg hempty] at h ⊢
        rw [← Option.some.inj h]
  | popCell b n | popHead b n i | claimed b n i =>
      simp only [hp] at h ⊢
      rw [← Option.some.inj h]
  | popped b n i =>
      simp only [hp] at h ⊢
      rw [← Option.some.inj h]
      rfl
  | recorded g =>
      simp only [hp] at h ⊢
      rw [← Option.some.inj h]
      simp

/-- The reclaimer neither reads nor changes the actors. -/
theorem reclaim_withActors (s : State) (outcome : ReleaseOutcome) (A : Multiset Actor) :
    (s.withActors A).reclaim outcome = (s.reclaim outcome).map fun t => t.withActors A := by
  cases hr : s.reclaimer with
  | idle | released _ | pushCell _ | pushTail _ | unlocking =>
      simp only [reclaim, withActors, hr]
      rfl
  | locked _ | loaded _ _ | checked _ _ | releasing _ | freed _ =>
      simp only [reclaim, withActors, hr]
      split_ifs <;> rfl

theorem reclaim_actors {outcome : ReleaseOutcome} (h : s.reclaim outcome = some t) :
    t.actors = s.actors := by
  have hsame := reclaim_withActors s outcome s.actors
  have hself : s.withActors s.actors = s := rfl
  rw [hself, h, Option.map_some, Option.some.injEq] at hsame
  rw [hsame, withActors_actors]

/-- **The frame rule.**  A step stays possible among further actors and leaves
them alone. -/
theorem step_frame {a : Action} (h : s.step a = some t) (rest : Multiset Actor) :
    (s.withActors (s.actors + rest)).step a = some (t.withActors (t.actors + rest)) := by
  cases a with
  | beginPin goal =>
      simp only [step, Option.ite_none_right_eq_some, Option.some.injEq] at h ⊢
      obtain ⟨hlt, rfl⟩ := h
      exact ⟨hlt, by simp [withActors]⟩
  | beginClone h' | beginReservationLease h' | beginCommit h' | beginCancel h' | beginRescue h' =>
      exact replaceActor_frame h rest
  | load op => exact replaceActor_frame h rest
  | cas op prior spurious => exact casRound_frame h rest
  | readHandle goal => exact replaceActor_frame h rest
  | reset h' | drop h' => exact replaceActor_frame h rest
  | retireIfOnlyReader h' | retireUnpinned h' => exact retireIfOnlyReader_frame h rest
  | tryReserve b n =>
      simp only [step, Option.ite_none_right_eq_some, Option.some.injEq] at h ⊢
      obtain ⟨hguard, rfl⟩ := h
      exact ⟨hguard, rfl⟩
  | produce => exact produce_frame h rest
  | tryReclaim h' =>
      simp only [step, Option.ite_none_right_eq_some, Option.some.injEq] at h ⊢
      obtain ⟨hguard, rfl⟩ := h
      exact ⟨hguard, rfl⟩
  | reclaim outcome =>
      have hactors : t.actors = s.actors := reclaim_actors h
      have hwith := reclaim_withActors s outcome (s.actors + rest)
      rw [show s.reclaim outcome = some t from h, Option.map_some] at hwith
      rw [hactors]
      exact hwith

/-- A caller's step is a step of the whole repository. -/
theorem stepAs_frame {own own' : Multiset Actor} {a : Action}
    (h : s.stepAs own a = some (t, own')) (rest : Multiset Actor) :
    (s.withActors (own + rest)).step a = some (t.withActors (own' + rest)) := by
  unfold stepAs at h
  rw [Option.map_eq_some_iff] at h
  obtain ⟨u, hu, h⟩ := h
  simp only [Prod.mk.injEq] at h
  obtain ⟨rfl, rfl⟩ := h
  exact step_frame hu rest

/-- What a caller leaves of the actors of the others: all of them. -/
theorem stepAs_actors {own own' : Multiset Actor} {a : Action}
    (h : s.stepAs own a = some (t, own')) : t.actors = s.actors := by
  unfold stepAs at h
  rw [Option.map_eq_some_iff] at h
  obtain ⟨u, -, h⟩ := h
  exact (congrArg (fun p => p.1.actors) h).symm

/-! ## Records -/

theorem replaceActor_slots {a : Actor} {bs : List Actor} (h : s.replaceActor a bs = some t) :
    t.slots = s.slots := by
  obtain ⟨-, rfl⟩ := replaceActor_eq_some.mp h
  rfl

theorem replaceActor_record {a : Actor} {bs : List Actor} {i : ℕ} {c : Control}
    (h : (s.setControl i c).replaceActor a bs = some t) (j : ℕ) :
    (t.slots j).record = (s.slots j).record := by
  rw [replaceActor_slots h, setControl_record]

/-- Only the producer writes records, and only of the slot it has claimed. -/
theorem record_of_step {a : Action} (h : s.step a = some t) {j : ℕ}
    (hclaimed : ∀ b n, s.producer ≠ .claimed b n j) :
    (t.slots j).record = (s.slots j).record := by
  cases a with
  | beginPin goal =>
      simp only [step, Option.ite_none_right_eq_some, Option.some.injEq] at h
      rw [← h.2]
  | beginClone h' | beginReservationLease h' | beginCommit h' | beginCancel h' | beginRescue h' =>
      rw [replaceActor_slots h]
  | load op => rw [replaceActor_slots h]
  | cas op prior spurious =>
      simp only [step, casRound] at h
      cases hnext : op.next prior with
      | none =>
          simp only [hnext] at h
          rw [replaceActor_slots h]
      | some next =>
          simp only [hnext] at h
          split_ifs at h with hcas
          · exact replaceActor_record h j
          · rw [replaceActor_slots h]
  | readHandle goal => rw [replaceActor_slots h]
  | reset h' | drop h' => exact replaceActor_record h j
  | retireIfOnlyReader h' | retireUnpinned h' =>
      simp only [step, retireIfOnlyReader] at h
      split_ifs at h
      · exact replaceActor_record h j
      · rw [replaceActor_slots h]
  | tryReserve b n =>
      simp only [step, Option.ite_none_right_eq_some, Option.some.injEq] at h
      rw [← h.2]
  | produce =>
      simp only [step, produce] at h
      cases hp : s.producer with
      | idle => simp [hp] at h
      | popTail b n =>
          simp only [hp] at h
          split_ifs at h <;> rw [← Option.some.inj h]
      | popCell b n | popHead b n i =>
          simp only [hp] at h
          rw [← Option.some.inj h]
      | popped b n i =>
          simp only [hp] at h
          rw [← Option.some.inj h]
          exact setControl_record s i j _
      | claimed b n i =>
          have hij : j ≠ i := fun hij => hclaimed b n (hij ▸ hp)
          simp only [hp] at h
          rw [← Option.some.inj h]
          simp [hij]
      | recorded g =>
          simp only [hp] at h
          rw [← Option.some.inj h]
          by_cases hg : j = g.slot
          · subst hg
            simp
          · simp [hg]
  | tryReclaim h' =>
      simp only [step, Option.ite_none_right_eq_some, Option.some.injEq] at h
      rw [← h.2]
  | reclaim outcome =>
      simp only [step, reclaim] at h
      cases hr : s.reclaimer with
      | idle => simp [hr] at h
      | locked g | loaded g prior | releasing g | freed i =>
          simp only [hr] at h
          split_ifs at h <;> rw [← Option.some.inj h]
      | checked g prior =>
          simp only [hr] at h
          split_ifs at h <;> rw [← Option.some.inj h]
          exact setControl_record s g.slot j _
      | released g =>
          simp only [hr] at h
          rw [← Option.some.inj h]
          exact setControl_record s g.slot j _
      | pushCell i | pushTail i | unlocking =>
          simp only [hr] at h
          rw [← Option.some.inj h]

end State

/-- The record of a slot somebody is counted on does not change. -/
theorem Inv.record_of_step {s t : State} (hs : Inv s) {a : Action} (h : s.step a = some t)
    {b : Actor} (hb : b ∈ s.actors) {j : ℕ} (hj : b.slot = some j) :
    (t.slots j).record = (s.slots j).record := by
  refine State.record_of_step h fun begin count hp => ?_
  have hzero := (hs.of_slot hb hj).2.2.2
  simp [hp, ProducerPc.refs] at hzero

/-- A word that counts one reference leaves room for one actor. -/
theorem Inv.alone {s : State} (hs : Inv s) {b : Actor} {rest : Multiset Actor}
    (hactors : s.actors = b ::ₘ rest) {j : ℕ} (hj : b.slot = some j)
    (hone : (s.slots j).control.refs = 1) : ∀ a ∈ rest, a.slot ≠ some j := by
  intro a ha hslot
  have hcount := hs.refs j
  rw [hone, State.holders, hactors,
    Multiset.countP_cons_of_pos (p := fun a : Actor => a.slot = some j) rest hj] at hcount
  have hpos : 0 < rest.countP fun a => a.slot = some j :=
    Multiset.countP_pos.mpr ⟨a, ha, hslot⟩
  omega

end Qw3.Repository
