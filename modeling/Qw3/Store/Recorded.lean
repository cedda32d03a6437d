import Qw3.Store.Branches

/-!
# Whole-block records

The store reserves its blocks whole, so the record of a slot that was ever in use
covers as many tokens as a block has.  An append relies on it when it fills up
the block its history ends in.

* `Booked` — what a call does to the records of the repository; `booked_step`.
* `Rerecords` — what follows for their sizes.
* `State.Recorded`, `recorded_invariant` — in every reachable state.
-/

namespace Qw3.Store

open Qw3.Repository (KvMemBlockHandle Record Repo Control uint32Max)

variable {s t : State} {b : ℕ} {r r' r'' : Repo}

/-- The bookkeeping of `b`-token blocks: records and identities change by
reservations only. -/
inductive Booked (b : ℕ) : Repo → Repo → Prop
  | kept {r r' : Repo} (config : r'.config = r.config) (sequence : r'.sequence = r.sequence)
      (record : ∀ i, r'.record i = r.record i) : Booked b r r'
  | reserved {r r' : Repo} {pos : ℕ} {h : KvMemBlockHandle}
      (reserve : r.tryReserve pos b = some (h, r')) : Booked b r r'
  | trans {r r' r'' : Repo} (first : Booked b r r') (rest : Booked b r' r'') : Booked b r r''

namespace Booked

theorem refl (r : Repo) : Booked b r r := .kept rfl rfl fun _ => rfl

theorem of_quiet (h : Quiet r r') : Booked b r r' := .kept h.config h.sequence h.record

theorem setControl (r : Repo) (i : ℕ) (c : Control) : Booked b r (r.setControl i c) :=
  .kept rfl rfl fun j => Repo.setControl_record i j c

theorem reserveBlocks {stop n pos : ℕ} {l : List Span}
    (h : State.reserveBlocks b stop n pos r = some (l, r')) : Booked b r r' := by
  induction n generalizing pos r l with
  | zero =>
      obtain ⟨-, rfl⟩ := Prod.mk.inj (Option.some.inj h)
      exact .refl r
  | succ n ih =>
      unfold State.reserveBlocks at h
      cases hfirst : r.tryReserve pos b with
      | none => simp [hfirst] at h
      | some p =>
          obtain ⟨g, r₁⟩ := p
          simp only [hfirst, Option.map_eq_some_iff, Prod.mk.injEq, Prod.exists] at h
          obtain ⟨rest, r₂, hrest, -, rfl⟩ := h
          exact (Booked.reserved hfirst).trans (ih hrest)

theorem cancel (r : Repo) (h : KvMemBlockHandle) : Booked b r (r.cancel h) := by
  unfold Repo.cancel
  dsimp only
  split_ifs
  · exact (setControl r _ _).trans (of_quiet (.unpin _ _))
  · exact of_quiet (.unpin _ _)

/-- What an append holds is given back. -/
theorem giveBack (stop : ℕ) (spans : List Span) (tail : Option Span) (r : Repo) :
    Booked b r (State.unpinTail tail (State.cancelReserved stop spans r)) := by
  have hcancel : Booked b r (State.cancelReserved stop spans r) := by
    unfold State.cancelReserved
    generalize spans.filter _ = l
    induction l generalizing r with
    | nil => exact .refl r
    | cons sp rest ih => exact (cancel r sp.handle).trans (ih _)
  cases tail with
  | none => exact hcancel
  | some sp => exact hcancel.trans (of_quiet (.unpin _ _))

end Booked

/-- From `r` to `r'` no record changed, but for those that now cover `b` tokens. -/
structure Rerecords (b : ℕ) (r r' : Repo) : Prop where
  config : r'.config = r.config
  record : ∀ i, r'.record i = r.record i ∨ (r'.record i).tokenCount = b

namespace Rerecords

theorem trans (h : Rerecords b r r') (h' : Rerecords b r' r'') : Rerecords b r r'' where
  config := h'.config.trans h.config
  record i := by
    rcases h'.record i with heq | hnew
    · rw [heq]
      exact h.record i
    · exact .inr hnew

theorem tryReserve {pos : ℕ} {h : KvMemBlockHandle} (hreserve : r.tryReserve pos b = some (h, r')) :
    Rerecords b r r' := by
  obtain ⟨-, -, -, hconfig, -, -, hcells⟩ := Repo.tryReserve_eq_some hreserve
  refine ⟨hconfig, ?_⟩
  intro i
  rw [Repo.record, hcells]
  by_cases hi : i = h.slot
  · right
    rw [hi, Function.update_self]
  · left
    rw [Function.update_of_ne hi]
    rfl

end Rerecords

theorem Booked.rerecords (h : Booked b r r') : Rerecords b r r' := by
  induction h with
  | kept config sequence record => exact ⟨config, fun i => .inl (record i)⟩
  | reserved reserve => exact .tryReserve reserve
  | trans first rest hfirst hrest => exact hfirst.trans hrest

/-! ## Each call -/

/-- What an installation does. -/
theorem install_eq_ok {h : KvMemBlockHandle} {bakedPos validTokens : ℕ}
    (hinstall : s.install h bakedPos validTokens = .ok t) :
    ∃ history, s.takeNode h.slot = some history ∧
      s.history.lookup (s.repo.record h.slot).tokenBegin = none ∧
      t = s.installed h bakedPos validTokens history := by
  unfold State.install at hinstall
  dsimp only at hinstall
  split_ifs at hinstall with hstale hrange hinstalled htaken
  cases htake : s.takeNode h.slot with
  | none => simp [htake] at hinstall
  | some history =>
      rw [htake] at hinstall
      obtain rfl := Except.ok.inj hinstall
      exact ⟨history, rfl, by simpa using htaken, rfl⟩

theorem commitReserved_booked {a : Append} {stop : ℕ} {l : List Span}
    (h : State.commitReserved a stop l s = .ok t) :
    t.config = s.config ∧ Booked b s.repo t.repo := by
  induction l generalizing s with
  | nil =>
      obtain rfl := Except.ok.inj h
      exact ⟨rfl, .refl _⟩
  | cons sp rest ih =>
      rcases commitReserved_cons_eq_ok h with ⟨-, h⟩ | ⟨-, r, u, hcommit, hinstall, h⟩
      · exact ih h
      · obtain ⟨history, -, -, rfl⟩ := install_eq_ok hinstall
        obtain ⟨-, rfl⟩ := Repo.commit_eq_some hcommit
        obtain ⟨hconfig, hrecords⟩ := ih h
        exact ⟨hconfig, (Booked.setControl _ _ _).trans hrecords⟩

/-- **What a call does to the books.** -/
theorem booked_step {a : Action} (hs : s.Inv) (h : s.step a = some t) :
    t.config = s.config ∧ Booked s.config.blockTokens s.repo t.repo := by
  by_cases htransactional : a.Transactional
  · cases a with
    | prepareAppend count bakedBegin =>
        obtain ⟨tail, reserved, r, r', hp, rfl⟩ := prepare_eq_ok.mp (join_eq_some h)
        exact ⟨rfl, (Booked.of_quiet (pinTail_spec hs hp.tail).1).trans
          (.reserveBlocks hp.reserve)⟩
    | extend count =>
        obtain ⟨a, -, ⟨-, rfl⟩ | ⟨needed, more, r, hx, rfl⟩⟩ := extend_eq_ok (join_eq_some h)
        · exact ⟨rfl, .refl _⟩
        · exact ⟨rfl, .reserveBlocks hx.reserve⟩
    | commitAppend accepted =>
        obtain ⟨a, u, -, -, -, hcommit, rfl⟩ := commitAppend_eq_ok.mp (toOption_eq_some h)
        obtain ⟨hconfig, hrecords⟩ := commitReserved_booked hcommit
        obtain ⟨hframe, -⟩ := commitTail_frame s accepted a.tail
        rw [hframe] at hconfig hrecords
        exact ⟨hconfig, hrecords.trans (.giveBack _ _ _ _)⟩
    | cancelAppend =>
        obtain ⟨a, -, rfl⟩ := cancelAppend_eq_ok (toOption_eq_some h)
        exact ⟨rfl, .giveBack _ _ _ _⟩
    | prepareRewind position =>
        obtain ⟨-, -, -, ⟨-, rfl⟩ | ⟨-, p, hcapture, rfl⟩⟩ := prepareRewind_eq_ok (toOption_eq_some h)
        · exact ⟨rfl, .refl _⟩
        · exact ⟨rfl, .of_quiet (captureSpans_spec hs
            (fun q hq => (OrdMap.mem_lowerBound.mp hq).1) hs.ok hcapture).1⟩
    | commitRewind =>
        obtain ⟨w, u, -, -, hfold, rfl⟩ := hs.commitRewind_eq (toOption_eq_some h)
        have hmild := Mild.invalidateAbove hs.ok w.position
        have hconfig := congrArg State.config hfold.frame
        obtain ⟨hquiet, hsequence, hrecord, -⟩ := hmild.quiet.trans hfold.quiet
        exact ⟨hconfig, .kept hquiet hsequence hrecord⟩
    | abandonRewind =>
        obtain ⟨w, -, rfl⟩ := abandonRewind_eq_ok (toOption_eq_some h)
        exact ⟨rfl, .of_quiet (.unpinAll _ _)⟩
    | _ => exact absurd htransactional id
  · have hmild := Mild.of_step hs htransactional h
    exact ⟨hmild.config, .of_quiet hmild.quiet⟩

theorem rerecords_step {a : Action} (hs : s.Inv) (h : s.step a = some t) :
    t.config = s.config ∧ Rerecords s.config.blockTokens s.repo t.repo :=
  (booked_step hs h).imp_right Booked.rerecords

/-! ## Every run -/

/-- Every slot that was ever reserved was reserved for a whole block. -/
structure State.Recorded (s : State) : Prop where
  capacity : s.repo.config.capacity ≤ uint32Max
  record : ∀ i, s.repo.record i = ⟨noHandle, 0, 0, 0⟩ ∨
    (s.repo.record i).tokenCount = s.config.blockTokens

theorem State.Recorded.step {a : Action} (hs : s.Inv) (h : s.Recorded) (hstep : s.step a = some t) :
    t.Recorded := by
  obtain ⟨hconfig, hrecords⟩ := rerecords_step hs hstep
  constructor
  · rw [hrecords.config]
    exact h.capacity
  · intro i
    rw [hconfig]
    rcases hrecords.record i with heq | hnew
    · rw [heq]
      exact h.record i
    · exact .inr hnew

theorem recorded_invariant : machine.Invariant fun s => s.Inv ∧ s.Recorded where
  init s hs := by
    refine ⟨machine_invariant.init s hs, ?_⟩
    obtain ⟨c, r, ⟨-, hpos, -, hle⟩, rfl⟩ := hs
    constructor
    · have hcapacity : r.capacity ≤ r.capacity * c.blockTokens :=
        Nat.le_mul_of_pos_right _ (Nat.pos_of_ne_zero hpos)
      have hmax : int32Max ≤ uint32Max := by decide
      exact hcapacity.trans (hle.trans hmax)
    · exact fun i => .inl rfl
  step s a t hs h := ⟨inv_step hs.1 h, hs.2.step hs.1 h⟩

/-- A block that can be pinned was reserved whole. -/
theorem State.Recorded.tokenCount (h : s.Recorded) {g : KvMemBlockHandle} (hpin : s.repo.Pinnable g) :
    (s.repo.record g.slot).tokenCount = s.config.blockTokens := by
  refine (h.record g.slot).resolve_left ?_
  intro hinitial
  -- The constructor's records name no slot.
  have hhandle := hpin.2.1
  rw [hinitial] at hhandle
  have hslot : g.slot = uint32Max := (congrArg KvMemBlockHandle.slot hhandle).symm
  have hlt := hpin.1
  have hle := h.capacity
  omega

end Qw3.Store
