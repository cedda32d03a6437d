import Mathlib.Data.UInt
import Qw3.Lib.Advance

/-!
# Periodic reselection

`kvmem_prefix_reuse_policy.hpp`: a speculative cycle commits its current token and
up to so many drafts, and must not go past the block boundary at which the next
periodic reselection is due.

* `checkpointDraftLimit`, `periodicReselectBoundaryDue`,
  `periodicReselectAlignDrafts` — the source's.
* `Cycle` — what one decode cycle may commit.
* `IsTarget` — the first multiple of the block size at or after the interval.
* `reselectBoundary` — **no run goes past the target**, and no earlier position of a
  run is due.
-/

namespace Qw3.Policy

/-- `kvmem_checkpoint_draft_limit`. -/
def checkpointDraftLimit (position : UInt64) (blockTokens drafts : UInt32)
    (checkpointDue : Bool) : UInt32 :=
  if ¬ checkpointDue ∨ blockTokens = 0 then drafts
  else
    let gap := (blockTokens.toUInt64 - position % blockTokens.toUInt64).toUInt32
    if drafts < gap then drafts else gap - 1

/-- `kvmem_periodic_reselect_boundary_due`. -/
def periodicReselectBoundaryDue (position lastReselect : UInt64) (interval blockTokens : UInt32) :
    Bool :=
  let bt := if blockTokens ≠ 0 then blockTokens else 1
  let gap := if interval ≠ 0 then interval else 1
  position ≥ lastReselect ∧ position - lastReselect ≥ gap.toUInt64 ∧ position % bt.toUInt64 = 0

/-- `kvmem_periodic_reselect_align_drafts`. -/
def periodicReselectAlignDrafts (position lastReselect : UInt64)
    (interval blockTokens requestedDrafts : UInt32) : Bool :=
  if position < lastReselect ∨ blockTokens = 0 then false
  else
    let elapsed := position - lastReselect
    let gap := if interval ≠ 0 then interval else 1
    let boundaryDistance := (blockTokens.toUInt64 - position % blockTokens.toUInt64).toUInt32
    elapsed ≥ gap.toUInt64 ∨ gap.toUInt64 - elapsed ≤ boundaryDistance.toUInt64 ∨
      gap.toUInt64 - elapsed ≤ requestedDrafts.toUInt64 + 1

section Run

variable (last : UInt64) (interval blockTokens : UInt32)

/-- A decode cycle: it commits a token, and no more than the drafts that it may
make. -/
def Cycle (p q : UInt64) : Prop :=
  ∃ requested : UInt32, p < q ∧ q.toNat ≤ p.toNat + 1 +
    (checkpointDraftLimit p blockTokens requested
      (periodicReselectAlignDrafts p last interval blockTokens requested)).toNat

/-- The smallest multiple of the block size at or after the interval. -/
def IsTarget (x : UInt64) : Prop :=
  IsLeast {n : ℕ | blockTokens.toNat ∣ n ∧ last.toNat + max interval.toNat 1 ≤ n} x.toNat

end Run

variable {last p q x : UInt64} {interval blockTokens : UInt32}

/-! ## The arithmetic -/

/-- The effective interval. -/
theorem gap_toNat (interval : UInt32) :
    (if interval ≠ 0 then interval else 1).toNat = max interval.toNat 1 := by
  by_cases h : interval = 0
  · subst h
    rfl
  · have hpos : interval.toNat ≠ 0 := fun h0 => h (UInt32.toNat_inj.mp h0)
    rw [if_pos h]
    omega

theorem elapsed_toNat (h : last.toNat ≤ p.toNat) : (p - last).toNat = p.toNat - last.toNat :=
  UInt64.toNat_sub_of_le _ _ (UInt64.le_iff_toNat_le.mpr h)

theorem mod_toNat (p : UInt64) (blockTokens : UInt32) :
    (p % blockTokens.toUInt64).toNat = p.toNat % blockTokens.toNat := by
  rw [UInt64.toNat_mod, UInt32.toNat_toUInt64]

/-- The distance to the next block boundary fits into 32 bits. -/
theorem distance_toNat (h : blockTokens ≠ 0) (p : UInt64) :
    (blockTokens.toUInt64 - p % blockTokens.toUInt64).toUInt32.toNat =
      blockTokens.toNat - p.toNat % blockTokens.toNat := by
  have hpos : blockTokens.toNat ≠ 0 := fun h0 => h (UInt32.toNat_inj.mp h0)
  have hlt := Nat.mod_lt p.toNat (Nat.pos_of_ne_zero hpos)
  have hsize := blockTokens.toNat_lt
  have hle : p % blockTokens.toUInt64 ≤ blockTokens.toUInt64 := by
    rw [UInt64.le_iff_toNat_le, mod_toNat, UInt32.toNat_toUInt64]
    exact hlt.le
  rw [UInt64.toNat_toUInt32, UInt64.toNat_sub_of_le _ _ hle, mod_toNat, UInt32.toNat_toUInt64]
  exact Nat.mod_eq_of_lt (by omega)

theorem periodicReselectBoundaryDue_iff (hblock : blockTokens ≠ 0) :
    periodicReselectBoundaryDue p last interval blockTokens = true ↔
      blockTokens.toNat ∣ p.toNat ∧ last.toNat + max interval.toNat 1 ≤ p.toNat := by
  unfold periodicReselectBoundaryDue
  rw [decide_eq_true_eq, if_pos hblock]
  constructor
  · rintro ⟨hle, hgap, hmod⟩
    rw [ge_iff_le, UInt64.le_iff_toNat_le] at hle hgap
    rw [elapsed_toNat hle, UInt32.toNat_toUInt64, gap_toNat] at hgap
    have hzero := congrArg UInt64.toNat hmod
    rw [mod_toNat] at hzero
    exact ⟨Nat.dvd_of_mod_eq_zero hzero, by omega⟩
  · rintro ⟨hdvd, hle⟩
    have hlast : last.toNat ≤ p.toNat := by omega
    refine ⟨UInt64.le_iff_toNat_le.mpr hlast, ?_, ?_⟩
    · rw [ge_iff_le, UInt64.le_iff_toNat_le, elapsed_toNat hlast, UInt32.toNat_toUInt64, gap_toNat]
      omega
    · apply UInt64.toNat_inj.mp
      rw [mod_toNat]
      exact Nat.mod_eq_zero_of_dvd hdvd

/-- The drafts of a cycle that is aligned do not reach the next block boundary. -/
theorem checkpointDraftLimit_lt (hblock : blockTokens ≠ 0) (requested : UInt32) :
    (checkpointDraftLimit p blockTokens requested true).toNat <
      blockTokens.toNat - p.toNat % blockTokens.toNat := by
  have hdistance := distance_toNat hblock p
  have hlt := Nat.mod_lt p.toNat
    (Nat.pos_of_ne_zero fun h0 => hblock (UInt32.toNat_inj.mp h0))
  unfold checkpointDraftLimit
  rw [if_neg (by simp [hblock])]
  dsimp only
  split
  next h =>
    rw [UInt32.lt_iff_toNat_lt] at h
    omega
  next h =>
    have hone : (1 : UInt32) ≤ (blockTokens.toUInt64 - p % blockTokens.toUInt64).toUInt32 := by
      rw [UInt32.le_iff_toNat_le, hdistance]
      change 1 ≤ _
      omega
    rw [UInt32.toNat_sub_of_le _ _ hone, hdistance]
    change _ - 1 < _
    omega

/-- A cycle that is not aligned cannot reach the interval. -/
theorem lt_of_not_align (hblock : blockTokens ≠ 0) (hlast : last ≤ p) {requested : UInt32}
    (h : periodicReselectAlignDrafts p last interval blockTokens requested = false) :
    p.toNat + requested.toNat + 1 < last.toNat + max interval.toNat 1 := by
  rw [UInt64.le_iff_toNat_le] at hlast
  unfold periodicReselectAlignDrafts at h
  rw [if_neg] at h
  · simp only [decide_eq_false_iff_not, not_or, ge_iff_le, UInt64.not_le] at h
    obtain ⟨helapsed, -, hdrafts⟩ := h
    rw [UInt64.lt_iff_toNat_lt] at helapsed hdrafts
    rw [elapsed_toNat hlast, UInt32.toNat_toUInt64, gap_toNat] at helapsed
    have hle : p - last ≤ (if interval ≠ 0 then interval else 1).toUInt64 := by
      rw [UInt64.le_iff_toNat_le, elapsed_toNat hlast, UInt32.toNat_toUInt64, gap_toNat]
      exact helapsed.le
    have hsize := requested.toNat_lt
    rw [UInt64.toNat_sub_of_le _ _ hle, elapsed_toNat hlast, UInt32.toNat_toUInt64, gap_toNat,
      UInt64.toNat_add, UInt32.toNat_toUInt64] at hdrafts
    change (requested.toNat + 1) % 2 ^ 64 < _ at hdrafts
    rw [Nat.mod_eq_of_lt (by omega)] at hdrafts
    omega
  · rw [not_or, UInt64.not_lt, UInt64.le_iff_toNat_le]
    exact ⟨hlast, hblock⟩

/-! ## Runs -/

/-- **No cycle goes past the target**: an aligned one stops at the next boundary at
the latest, and one that is not aligned before the interval is over. -/
theorem cycle_le (hblock : blockTokens ≠ 0) (hx : IsTarget last interval blockTokens x)
    (hlast : last ≤ p) (h : Cycle last interval blockTokens p q) (hlt : p < x) : q ≤ x := by
  obtain ⟨requested, -, hq⟩ := h
  obtain ⟨⟨hdvd, hge⟩, -⟩ := hx
  rw [UInt64.lt_iff_toNat_lt] at hlt
  rw [UInt64.le_iff_toNat_le]
  cases halign : periodicReselectAlignDrafts p last interval blockTokens requested with
  | false =>
      have hsoon := lt_of_not_align hblock hlast halign
      have hdrafts : checkpointDraftLimit p blockTokens requested false = requested := by
        simp [checkpointDraftLimit]
      rw [halign, hdrafts] at hq
      omega
  | true =>
      have hlimit := checkpointDraftLimit_lt (p := p) hblock requested
      rw [halign] at hq
      -- the next multiple after `p` is no later than the target
      have hnext : p.toNat - p.toNat % blockTokens.toNat + blockTokens.toNat ≤ x.toNat := by
        obtain ⟨k, hk⟩ := hdvd
        have hdiv := Nat.div_add_mod p.toNat blockTokens.toNat
        have hkk : p.toNat / blockTokens.toNat < k := by
          rw [hk, mul_comm] at hlt
          exact Nat.div_lt_of_lt_mul (by rwa [mul_comm] at hlt)
        have hmul := Nat.mul_le_mul_left blockTokens.toNat (Nat.succ_le_of_lt hkk)
        rw [Nat.mul_succ] at hmul
        omega
      have hmod := Nat.mod_le p.toNat blockTokens.toNat
      omega

/-- **The periodic boundary is never jumped**: a run that starts no later than the
target and is long enough visits it; the reselection is due there, and at no
position that the run visits before. -/
theorem reselectBoundary (last start x : UInt64) (interval blockTokens : UInt32)
    (hblock : 0 < blockTokens) (hx : IsTarget last interval blockTokens x) (hlast : last ≤ start)
    (hstart : start ≤ x) (ps : List UInt64)
    (hrun : (start :: ps).IsChain (Cycle last interval blockTokens)) :
    (∃ p ∈ start :: ps, start.toNat + ps.length ≤ p.toNat) ∧
      ((∃ p ∈ start :: ps, x ≤ p) →
        ∃ before after, start :: ps = before ++ x :: after ∧
          periodicReselectBoundaryDue x last interval blockTokens = true ∧
          ∀ p ∈ before, periodicReselectBoundaryDue p last interval blockTokens = false) := by
  have hne : blockTokens ≠ 0 := by
    rintro rfl
    exact absurd hblock (by decide)
  have hmono : ∀ p q, Cycle last interval blockTokens p q → p.toNat < q.toNat := by
    rintro p q ⟨-, hlt, -⟩
    exact UInt64.lt_iff_toNat_lt.mp hlt
  refine ⟨Advance.length_le hmono hrun, ?_⟩
  rintro ⟨p, hp, hle⟩
  rw [UInt64.le_iff_toNat_le] at hlast hstart hle
  have hstep : ∀ p q, last.toNat ≤ p.toNat → Cycle last interval blockTokens p q →
      p.toNat < x.toNat → q.toNat ≤ x.toNat := by
    intro p q hlo hcycle hlt
    rw [← UInt64.le_iff_toNat_le] at hlo ⊢
    exact cycle_le hne hx hlo hcycle (UInt64.lt_iff_toNat_lt.mpr hlt)
  obtain ⟨before, after, heq, hbefore⟩ := Advance.exists_visit (fun _ _ => UInt64.toNat_inj.mp)
    hmono hstep hrun hlast hstart ⟨p, hp, hle⟩
  refine ⟨before, after, heq, (periodicReselectBoundaryDue_iff hne).mpr hx.1, ?_⟩
  intro r hr
  by_contra hdue
  rw [Bool.not_eq_false, periodicReselectBoundaryDue_iff hne] at hdue
  have hlt := (hbefore r hr).2
  exact absurd (hx.2 hdue) (by omega)

/-- Five drafts a cycle, with blocks of four tokens and an interval of three: the
run stops at 4 and at the target, 8. -/
theorem reselectBoundary_four : ∃ before after, (2 : UInt64) :: [4, 8, 12] = before ++ 8 :: after ∧
    periodicReselectBoundaryDue 8 2 3 4 = true ∧
    ∀ p ∈ before, periodicReselectBoundaryDue p 2 3 4 = false := by
  have htarget : IsTarget 2 3 4 8 := by
    refine ⟨by decide, ?_⟩
    rintro n ⟨hdvd, hle⟩
    change 4 ∣ n at hdvd
    change 5 ≤ n at hle
    change 8 ≤ n
    omega
  have hrun : ((2 : UInt64) :: [4, 8, 12]).IsChain (Cycle 2 3 4) := by
    simp only [List.isChain_cons_cons, List.isChain_singleton, and_true]
    exact ⟨⟨5, by decide, by decide⟩, ⟨5, by decide, by decide⟩, ⟨5, by decide, by decide⟩⟩
  exact (reselectBoundary 2 2 8 3 4 (by decide) htarget (by decide) (by decide) [4, 8, 12] hrun).2
    ⟨8, by decide, by decide⟩

end Qw3.Policy
