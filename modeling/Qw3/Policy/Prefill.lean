import Mathlib.Data.UInt
import Qw3.Lib.Machine

/-!
# The round-robin of prefill chunks

`continuous_prefill_policy.hpp`.

* `ContinuousPrefillPolicy` and its calls — the source's.
* `scheduler` — the calls in the order in which the server may make them while a
  prefill is pending: a decode round only where `run_prefill` puts it first.
* `selections` — the slots that a run of calls selects.
* `boundedOvertaking` — **no slot is selected twice before one that stays pending**,
  and the decode rounds between two selections are bounded.
-/

namespace Qw3.Policy

/-- `ContinuousPrefillPolicy`. -/
structure ContinuousPrefillPolicy where
  budget : UInt32
  rounds : UInt32 := 0
  cursor : UInt64 := 0

namespace ContinuousPrefillPolicy

/-- The constructor. -/
def new (decodeRounds : UInt32) : ContinuousPrefillPolicy where
  budget := if decodeRounds < 1 then 1 else decodeRounds

/-- `run_prefill`. -/
def runPrefill (p : ContinuousPrefillPolicy) (hasPrefill hasVerify : Bool) : Bool :=
  hasPrefill && (!hasVerify || p.rounds ≥ p.budget)

/-- `verified`. -/
def verified (p : ContinuousPrefillPolicy) : ContinuousPrefillPolicy :=
  if p.rounds < p.budget then { p with rounds := p.rounds + 1 } else p

/-- After a slot is selected. -/
def selected (p : ContinuousPrefillPolicy) (row : UInt64) : ContinuousPrefillPolicy :=
  { p with cursor := row + 1, rounds := 0 }

/-- `select_prefill`. -/
def selectPrefill (p : ContinuousPrefillPolicy) (slots : List UInt64) :
    Except String (UInt64 × ContinuousPrefillPolicy) :=
  match slots with
  | [] => .error "no pending prefill slot"
  | front :: _ =>
      let row := (slots.find? fun slot => slot ≥ p.cursor).getD front
      .ok (row, p.selected row)

/-! ## Runs -/

/-- The calls of a scheduler. -/
inductive Call where
  | verified
  | selectPrefill (slots : List UInt64)

/-- The slots that a run of calls selects; a call that throws selects none. -/
def selections (p : ContinuousPrefillPolicy) : List Call → List UInt64
  | [] => []
  | .verified :: calls => p.verified.selections calls
  | .selectPrefill slots :: calls =>
      match p.selectPrefill slots with
      | .error _ => p.selections calls
      | .ok (row, q) => row :: q.selections calls

/-- The policy in use while a prefill is pending: a decode round is made where
`run_prefill` does not put the prefill before it. -/
def scheduler (decodeRounds : UInt32) : Machine ContinuousPrefillPolicy Call where
  init p := p = new decodeRounds
  step p
    | .verified => if p.runPrefill true true then none else some p.verified
    | .selectPrefill slots => (p.selectPrefill slots).toOption.map Prod.snd

variable {p q : ContinuousPrefillPolicy} {s row : UInt64} {slots : List UInt64}

/-! ## One selection -/

theorem verified_cursor (p : ContinuousPrefillPolicy) : p.verified.cursor = p.cursor := by
  unfold verified
  split
  · rfl
  · rfl

/-- **What a selection takes** of a list in which `s` is pending: a slot from the
cursor on, no later than `s` when that is still to come; and when there is none
left, the first slot, which is no later than `s`. -/
theorem selectPrefill_spec (hsorted : slots.Pairwise (· < ·)) (hs : s ∈ slots)
    (h : p.selectPrefill slots = .ok (row, q)) :
    q = p.selected row ∧
      (p.cursor.toNat ≤ row.toNat ∧ (p.cursor.toNat ≤ s.toNat → row.toNat ≤ s.toNat) ∨
        s.toNat < p.cursor.toNat ∧ row.toNat ≤ s.toNat) := by
  cases slots with
  | nil => cases hs
  | cons front others =>
      obtain ⟨rfl, rfl⟩ := Prod.mk.inj (Except.ok.inj h)
      refine ⟨rfl, ?_⟩
      have hfront : front.toNat ≤ s.toNat := by
        rcases List.mem_cons.mp hs with rfl | hs
        · exact le_rfl
        · exact (UInt64.lt_iff_toNat_lt.mp ((List.pairwise_cons.mp hsorted).1 s hs)).le
      cases hfind : (front :: others).find? fun slot => decide (slot ≥ p.cursor) with
      | none =>
          have hnone := List.find?_eq_none.mp hfind s hs
          rw [decide_eq_true_eq, ge_iff_le, UInt64.le_iff_toNat_le, Nat.not_le] at hnone
          exact Or.inr ⟨hnone, hfront⟩
      | some row =>
          obtain ⟨hge, before, after, heq, hbefore⟩ := List.find?_eq_some_iff_append.mp hfind
          rw [decide_eq_true_eq, ge_iff_le, UInt64.le_iff_toNat_le] at hge
          refine Or.inl ⟨hge, ?_⟩
          intro hle
          rw [heq] at hs hsorted
          rcases List.mem_append.mp hs with hs | hs
          · have hlt := hbefore s hs
            rw [Bool.not_eq_true', decide_eq_false_iff_not, ge_iff_le,
              UInt64.le_iff_toNat_le] at hlt
            exact absurd hle hlt
          · rcases List.mem_cons.mp hs with rfl | hs
            · exact le_rfl
            · have hrest := (List.pairwise_append.mp hsorted).2.1
              exact (UInt64.lt_iff_toNat_lt.mp ((List.pairwise_cons.mp hrest).1 s hs)).le

/-- The cursor after a slot that is not the largest. -/
theorem selected_cursor_of_lt (h : row.toNat + 1 < 2 ^ 64) (p : ContinuousPrefillPolicy) :
    (p.selected row).cursor.toNat = row.toNat + 1 := by
  change (row + 1).toNat = _
  rw [UInt64.toNat_add]
  exact Nat.mod_eq_of_lt h

/-- The cursor after a slot before another one. -/
theorem selected_cursor {t : UInt64} (h : row.toNat < t.toNat) (p : ContinuousPrefillPolicy) :
    (p.selected row).cursor.toNat = row.toNat + 1 :=
  selected_cursor_of_lt ((Nat.succ_le_of_lt h).trans_lt t.toNat_lt) p

/-! ## Runs in which a slot stays pending -/

/-- The slot is pending in every call. -/
def Pending (s : UInt64) (calls : List Call) : Prop :=
  ∀ slots, .selectPrefill slots ∈ calls → slots.Pairwise (· < ·) ∧ s ∈ slots

theorem Pending.tail {call : Call} {calls : List Call} (h : Pending s (call :: calls)) :
    Pending s calls := fun slots hmem => h slots (List.mem_cons_of_mem _ hmem)

/-- A run that begins with a selection. -/
theorem selections_select {calls : List Call} (h : Pending s (.selectPrefill slots :: calls)) :
    ∃ row, p.selections (.selectPrefill slots :: calls) =
        row :: (p.selected row).selections calls ∧
      (p.cursor.toNat ≤ row.toNat ∧ (p.cursor.toNat ≤ s.toNat → row.toNat ≤ s.toNat) ∨
        s.toNat < p.cursor.toNat ∧ row.toNat ≤ s.toNat) := by
  obtain ⟨hsorted, hs⟩ := h slots List.mem_cons_self
  cases hselect : p.selectPrefill slots with
  | error what =>
      cases slots with
      | nil => cases hs
      | cons front others => cases hselect
  | ok r =>
      obtain ⟨hq, hrow⟩ := selectPrefill_spec hsorted hs hselect
      refine ⟨r.1, ?_, hrow⟩
      rw [← hq]
      simp only [selections, hselect]

/-- While the cursor has not passed the pending slot, the slots selected before it
go up towards it. -/
theorem selections_below {calls : List Call} {before : List UInt64} (h : Pending s calls)
    (hcursor : p.cursor.toNat ≤ s.toNat) (hbefore : before <+: p.selections calls)
    (hs : s ∉ before) :
    before.Pairwise (· < ·) ∧ ∀ r ∈ before, p.cursor.toNat ≤ r.toNat ∧ r.toNat < s.toNat := by
  induction calls generalizing p before with
  | nil =>
      rw [List.prefix_nil.mp hbefore]
      exact ⟨List.Pairwise.nil, nofun⟩
  | cons call calls ih =>
      cases call with
      | verified =>
          have hkeep := p.verified_cursor
          rw [← hkeep] at hcursor ⊢
          exact ih h.tail hcursor hbefore hs
      | selectPrefill slots =>
          obtain ⟨row, heq, hrow⟩ := selections_select (p := p) h
          rw [heq] at hbefore
          cases before with
          | nil => exact ⟨List.Pairwise.nil, nofun⟩
          | cons r before =>
              obtain ⟨rfl, hrest⟩ := List.cons_prefix_cons.mp hbefore
              rw [List.mem_cons, not_or] at hs
              have hne : s.toNat ≠ r.toNat := fun heq => hs.1 (UInt64.toNat_inj.mp heq)
              have hlt : p.cursor.toNat ≤ r.toNat ∧ r.toNat < s.toNat := by omega
              have hnext := selected_cursor hlt.2 p
              obtain ⟨hpairs, hall⟩ := ih h.tail (by omega) hrest hs.2
              refine ⟨List.pairwise_cons.mpr ⟨?_, hpairs⟩, ?_⟩
              · intro t ht
                have hle := (hall t ht).1
                exact UInt64.lt_iff_toNat_lt.mpr (by omega)
              · intro t ht
                rcases List.mem_cons.mp ht with rfl | ht
                · exact hlt
                · have hle := hall t ht
                  omega

/-- Once the cursor has passed it, the slots after it come first, and then those
before it. -/
theorem selections_above {calls : List Call} {before : List UInt64} (h : Pending s calls)
    (hcursor : s.toNat < p.cursor.toNat) (hbefore : before <+: p.selections calls)
    (hs : s ∉ before) :
    ∃ high low, before = high ++ low ∧ high.Pairwise (· < ·) ∧ low.Pairwise (· < ·) ∧
      (∀ r ∈ high, p.cursor.toNat ≤ r.toNat) ∧ ∀ r ∈ low, r.toNat < s.toNat := by
  induction calls generalizing p before with
  | nil =>
      rw [List.prefix_nil.mp hbefore]
      exact ⟨[], [], rfl, .nil, .nil, nofun, nofun⟩
  | cons call calls ih =>
      cases call with
      | verified =>
          have hkeep := p.verified_cursor
          rw [← hkeep] at hcursor ⊢
          exact ih h.tail hcursor hbefore hs
      | selectPrefill slots =>
          obtain ⟨row, heq, hrow⟩ := selections_select (p := p) h
          rw [heq] at hbefore
          cases before with
          | nil => exact ⟨[], [], rfl, .nil, .nil, nofun, nofun⟩
          | cons r before =>
              obtain ⟨rfl, hrest⟩ := List.cons_prefix_cons.mp hbefore
              rw [List.mem_cons, not_or] at hs
              have hne : s.toNat ≠ r.toNat := fun heq => hs.1 (UInt64.toNat_inj.mp heq)
              rcases hrow with ⟨hge, -⟩ | ⟨-, hle⟩
              · by_cases hlast : r.toNat + 1 < 2 ^ 64
                · have hnext := selected_cursor_of_lt hlast p
                  obtain ⟨high, low, rfl, hhigh, hlow, hall, hbelow⟩ :=
                    ih h.tail (by omega) hrest hs.2
                  refine ⟨r :: high, low, rfl, List.pairwise_cons.mpr ⟨?_, hhigh⟩, hlow, ?_, hbelow⟩
                  · intro t ht
                    have hle := hall t ht
                    exact UInt64.lt_iff_toNat_lt.mpr (by omega)
                  · intro t ht
                    rcases List.mem_cons.mp ht with rfl | ht
                    · exact hge
                    · have hle := hall t ht
                      omega
                · -- the largest slot: the cursor wraps around to zero
                  have hwrap : (p.selected r).cursor.toNat = 0 := by
                    have hsize := r.toNat_lt
                    change (r + 1).toNat = _
                    rw [UInt64.toNat_add]
                    change (r.toNat + 1) % 2 ^ 64 = 0
                    omega
                  obtain ⟨hpairs, hall⟩ := selections_below h.tail (by omega) hrest hs.2
                  refine ⟨[r], before, rfl, List.pairwise_singleton _ _, hpairs, ?_, ?_⟩
                  · intro t ht
                    rwa [List.mem_singleton.mp ht]
                  · exact fun t ht => (hall t ht).2
              · have hlt : r.toNat < s.toNat := by omega
                have hnext := selected_cursor hlt p
                obtain ⟨hpairs, hall⟩ := selections_below h.tail (by omega) hrest hs.2
                refine ⟨[], r :: before, rfl, .nil, List.pairwise_cons.mpr ⟨?_, hpairs⟩, nofun, ?_⟩
                · intro t ht
                  have hle := (hall t ht).1
                  exact UInt64.lt_iff_toNat_lt.mpr (by omega)
                · intro t ht
                  rcases List.mem_cons.mp ht with rfl | ht
                  · exact hlt
                  · exact (hall t ht).2

theorem nodup_of_sorted {rows : List UInt64} (h : rows.Pairwise (· < ·)) : rows.Nodup := by
  apply h.imp
  rintro a _ hlt rfl
  exact UInt64.lt_irrefl a hlt

/-- No slot is selected twice before one that stays pending. -/
theorem selections_nodup {calls : List Call} {before : List UInt64} (h : Pending s calls)
    (hbefore : before <+: p.selections calls) (hs : s ∉ before) : before.Nodup := by
  rcases Nat.lt_or_ge s.toNat p.cursor.toNat with hlt | hle
  · obtain ⟨high, low, rfl, hhigh, hlow, hall, hbelow⟩ := selections_above h hlt hbefore hs
    rw [List.nodup_append]
    refine ⟨nodup_of_sorted hhigh, nodup_of_sorted hlow, ?_⟩
    rintro a ha b hb rfl
    have hge := hall a ha
    have hbelow := hbelow a hb
    omega
  · exact nodup_of_sorted (selections_below h hle hbefore hs).1

/-! ## Decode rounds -/

theorem new_budget (decodeRounds : UInt32) :
    (new decodeRounds).budget.toNat = max 1 decodeRounds.toNat := by
  unfold new
  dsimp only
  split
  next h =>
    rw [UInt32.lt_iff_toNat_lt] at h
    change decodeRounds.toNat < 1 at h
    change 1 = _
    omega
  next h =>
    rw [UInt32.lt_iff_toNat_lt] at h
    change ¬ decodeRounds.toNat < 1 at h
    omega

/-- What a step of the scheduler does. -/
theorem scheduler_step {decodeRounds : UInt32} {call : Call}
    (h : (scheduler decodeRounds).step p call = some q) :
    (call = .verified ∧ p.rounds.toNat < p.budget.toNat ∧ q.budget = p.budget ∧
      q.rounds.toNat = p.rounds.toNat + 1) ∨
    ∃ slots row, call = .selectPrefill slots ∧ q = p.selected row := by
  cases call with
  | verified =>
      change (if p.runPrefill true true then none else some p.verified) = some q at h
      split at h
      next => cases h
      next hrun =>
        have hlt : p.rounds < p.budget := by
          simpa [runPrefill, UInt32.not_le] using hrun
        have hlt' := UInt32.lt_iff_toNat_lt.mp hlt
        have hsize := p.budget.toNat_lt
        obtain rfl := Option.some.inj h
        unfold verified
        rw [if_pos hlt]
        refine Or.inl ⟨rfl, hlt', rfl, ?_⟩
        change (p.rounds + 1).toNat = _
        rw [UInt32.toNat_add]
        exact Nat.mod_eq_of_lt (by change p.rounds.toNat + 1 < 2 ^ 32; omega)
  | selectPrefill slots =>
      cases slots with
      | nil => cases h
      | cons front others => exact Or.inr ⟨_, _, rfl, (Option.some.inj h).symm⟩

/-- The budget stays the one of the constructor. -/
theorem budget_reachable {decodeRounds : UInt32} (h : (scheduler decodeRounds).Reachable p) :
    p.budget.toNat = max 1 decodeRounds.toNat := by
  have hinv : (scheduler decodeRounds).Invariant fun p =>
      p.budget.toNat = max 1 decodeRounds.toNat := by
    refine ⟨?_, ?_⟩
    · rintro _ rfl
      exact new_budget decodeRounds
    · intro p call q hp hstep
      rcases scheduler_step hstep with ⟨-, -, hbudget, -⟩ | ⟨-, row, -, rfl⟩
      · rw [hbudget]
        exact hp
      · exact hp
  exact hinv.reachable h

/-- Every decode round uses up one of the budget. -/
theorem run_verified {decodeRounds : UInt32} {k : ℕ} (hle : p.rounds.toNat ≤ p.budget.toNat)
    (h : (scheduler decodeRounds).run p (List.replicate k .verified) = some q) :
    p.rounds.toNat + k ≤ p.budget.toNat := by
  induction k generalizing p with
  | zero => exact hle
  | succ k ih =>
      rw [List.replicate_succ, Machine.run_cons, Option.bind_eq_some_iff] at h
      obtain ⟨r, hstep, hrun⟩ := h
      rcases scheduler_step hstep with ⟨-, hlt, hbudget, hrounds⟩ | ⟨slots, -, hcall, -⟩
      · have hrest := ih (by rw [hbudget]; omega) hrun
        rw [hbudget] at hrest
        omega
      · cases hcall

/-- **Bounded overtaking**: from every state of a run, while a slot stays pending no
other slot is selected twice before it is selected; and at most
`max(1, decode_rounds)` decode rounds follow a selection before the next. -/
theorem boundedOvertaking (decodeRounds : UInt32) (p : ContinuousPrefillPolicy)
    (hp : (scheduler decodeRounds).Reachable p) :
    (∀ s calls before, Pending s calls → before <+: p.selections calls → s ∉ before →
      before.Nodup) ∧
    ∀ slots k q, (scheduler decodeRounds).run p
      (.selectPrefill slots :: List.replicate k .verified) = some q →
        k ≤ max 1 decodeRounds.toNat := by
  refine ⟨fun s calls before h => selections_nodup h, ?_⟩
  intro slots k q hrun
  rw [Machine.run_cons, Option.bind_eq_some_iff] at hrun
  obtain ⟨r, hstep, hrun⟩ := hrun
  rcases scheduler_step hstep with ⟨hcall, -⟩ | ⟨-, row, -, rfl⟩
  · cases hcall
  · have hle := run_verified (Nat.zero_le _) hrun
    change 0 + k ≤ p.budget.toNat at hle
    rw [budget_reachable hp] at hle
    omega

/-- Slot 2 stays pending while slots 1 and 5 come and go, and no third decode round follows a
selection. -/
theorem boundedOvertaking_three : ([5, 1] : List UInt64).Nodup ∧
    (scheduler 2).run ((new 2).selected 3) (.selectPrefill [1, 2] :: List.replicate 2 .verified) ≠ none ∧
    (scheduler 2).run ((new 2).selected 3) (.selectPrefill [1, 2] :: List.replicate 3 .verified) = none := by
  have hp : (scheduler 2).Reachable ((new 2).selected 3) :=
    ⟨new 2, [.selectPrefill [3]], rfl, rfl⟩
  have hpending : Pending 2 [.selectPrefill [1, 2, 5], .verified, .selectPrefill [1, 2],
      .selectPrefill [2, 5]] := by
    intro slots hmem
    simp only [List.mem_cons, Call.selectPrefill.injEq, reduceCtorEq, List.not_mem_nil, or_false,
      false_or] at hmem
    rcases hmem with rfl | rfl | rfl
    · decide
    · decide
    · decide
  obtain ⟨hovertaking, hrounds⟩ := boundedOvertaking 2 _ hp
  refine ⟨hovertaking 2 _ [5, 1] hpending (by decide) (by decide), nofun, ?_⟩
  rw [Option.eq_none_iff_forall_ne_some]
  intro q hrun
  exact absurd (hrounds [1, 2] 3 q hrun) (by decide)

end ContinuousPrefillPolicy

end Qw3.Policy
