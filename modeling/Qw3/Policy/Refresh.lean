import Mathlib.Data.UInt
import Mathlib.Tactic.IntervalCases
import Qw3.Lib.Advance
import Qw3.Policy.RefreshText

/-!
# Speculation around a refresh

`kvmem_refresh_policy.hpp` and `dflash_deferred_refresh.hpp`: a serial decoder looks
after every token whether to refresh; a speculative one looks after every cycle.

* `middecodeRefreshDue`, `middecodeDraftLimit`, `middecodeEmergencyRefreshDue`,
  `deferredRefreshLimit`, `refreshBoundary` — the source's.
* `Epoch.RefreshPoint` — where a serial decoder refreshes.
* `Epoch.Cycle` — how far a speculative cycle may go.
* `speculationRefresh` — **no cycle jumps over a refresh point**.
-/

namespace Qw3.Policy

open Qw3.Stream

/-! ## The source's functions -/

/-- `kvmem_middecode_refresh_due`. -/
def middecodeRefreshDue (decoded epochBegin triggerTokens refreshes maxRefreshes : UInt32) : Bool :=
  triggerTokens > 0 ∧ maxRefreshes > 0 ∧ refreshes < maxRefreshes ∧ decoded ≥ epochBegin ∧
    decoded - epochBegin ≥ triggerTokens

/-- `kvmem_middecode_draft_limit`. -/
def middecodeDraftLimit (requested decoded epochBegin triggerTokens refreshes maxRefreshes : UInt32) :
    UInt32 :=
  if triggerTokens = 0 ∨ maxRefreshes = 0 ∨ refreshes ≥ maxRefreshes then requested
  else if decoded < epochBegin then 0
  else
    let elapsed := decoded - epochBegin
    if elapsed ≥ triggerTokens then 0
    else
      let left := triggerTokens - elapsed - 1
      if left < requested then left else requested

/-- `kvmem_middecode_emergency_refresh_due`. -/
def middecodeEmergencyRefreshDue (epochTokens epochLimit guardTokens : UInt32) : Bool :=
  if epochLimit = 0 then false
  else epochTokens ≥ epochLimit ∨ epochLimit - epochTokens ≤ guardTokens

/-- `DFlashDeferredRefreshLimit`. -/
structure DeferredRefreshLimit where
  drafts : UInt32
  needsTextBoundaryCheck : Bool

/-- `dflash_deferred_refresh_limit`. -/
def deferredRefreshLimit (requested decoded epochBegin trigger refreshes maxRefreshes
    epochLimit : UInt32) (textSafe : Bool) (guardTokens : UInt32) : DeferredRefreshLimit :=
  let ordinary := middecodeDraftLimit requested decoded epochBegin trigger refreshes maxRefreshes
  if ¬ middecodeRefreshDue decoded epochBegin trigger refreshes maxRefreshes ∨ textSafe then
    ⟨ordinary, false⟩
  else
    let elapsed := decoded - epochBegin
    if epochLimit = 0 ∨ middecodeEmergencyRefreshDue elapsed epochLimit guardTokens then ⟨0, false⟩
    else
      let beforeEmergency := epochLimit - guardTokens - elapsed
      ⟨if beforeEmergency - 1 < requested then beforeEmergency - 1 else requested, true⟩

/-- `DFlashRefreshBoundary`. -/
structure RefreshBoundary where
  candidates : ℕ
  includesBoundary : Bool

/-- `dflash_refresh_boundary`: the candidates up to the first after which the text is
safe. -/
def refreshBoundary (generated : Bytes) : List Bytes → RefreshBoundary
  | [] => ⟨0, false⟩
  | piece :: pieces =>
      if middecodeRefreshTextSafe (generated ++ piece) then ⟨1, true⟩
      else
        let rest := refreshBoundary (generated ++ piece) pieces
        ⟨rest.candidates + 1, rest.includesBoundary⟩

/-! ## Serial and speculative decoding -/

/-- An epoch, and the pieces of text of the tokens that are decoded. -/
structure Epoch where
  epochBegin : UInt32
  trigger : UInt32
  refreshes : UInt32
  maxRefreshes : UInt32
  epochLimit : UInt32
  guardTokens : UInt32
  piece : ℕ → Bytes

namespace Epoch

variable (e : Epoch)

/-- The text of the first `n` tokens. -/
def text (n : ℕ) : Bytes := (List.range n).flatMap e.piece

/-- `kvmem_middecode_refresh_due` at `n` decoded tokens. -/
def due (n : UInt32) : Bool :=
  middecodeRefreshDue n e.epochBegin e.trigger e.refreshes e.maxRefreshes

/-- `kvmem_middecode_emergency_refresh_due` at `n` decoded tokens. -/
def emergency (n : UInt32) : Bool :=
  middecodeEmergencyRefreshDue (n - e.epochBegin) e.epochLimit e.guardTokens

/-- A serial decoder refreshes after `n` tokens. -/
def RefreshPoint (n : UInt32) : Prop :=
  e.due n = true ∧ (middecodeRefreshTextSafe (e.text n.toNat) = true ∨ e.emergency n = true)

/-- The limit of a cycle that begins after `n` tokens. -/
def limit (requested n : UInt32) : DeferredRefreshLimit :=
  deferredRefreshLimit requested n e.epochBegin e.trigger e.refreshes e.maxRefreshes e.epochLimit
    (middecodeRefreshTextSafe (e.text n.toNat)) e.guardTokens

/-- The candidates that a cycle verifies. -/
def boundary (requested n : UInt32) (candidates : List Bytes) : RefreshBoundary :=
  if (e.limit requested n).needsTextBoundaryCheck then refreshBoundary (e.text n.toNat) candidates
  else ⟨candidates.length, false⟩

/-- A speculative cycle from `n` to `m` tokens.  All of its tokens but the last are
accepted candidates. -/
def Cycle (n m : UInt32) : Prop :=
  ∃ (requested : UInt32) (candidates : List Bytes),
    candidates.length ≤ (e.limit requested n).drafts.toNat ∧ n < m ∧
    m.toNat ≤ n.toNat + (e.boundary requested n candidates).candidates +
      (if (e.boundary requested n candidates).includesBoundary then 0 else 1) ∧
    ∀ j, n.toNat + j + 1 < m.toNat → candidates[j]? = some (e.piece (n.toNat + j))

end Epoch

/-! ## The limits -/

variable {e : Epoch} {n m x requested : UInt32}

theorem elapsed32_toNat {a b : UInt32} (h : b.toNat ≤ a.toNat) :
    (a - b).toNat = a.toNat - b.toNat :=
  UInt32.toNat_sub_of_le _ _ (UInt32.le_iff_toNat_le.mpr h)

/-- What makes a refresh due. -/
theorem middecodeRefreshDue_iff {decoded epochBegin trigger refreshes maxRefreshes : UInt32} :
    middecodeRefreshDue decoded epochBegin trigger refreshes maxRefreshes = true ↔
      0 < trigger.toNat ∧ refreshes.toNat < maxRefreshes.toNat ∧
        epochBegin.toNat + trigger.toNat ≤ decoded.toNat := by
  unfold middecodeRefreshDue
  simp only [decide_eq_true_eq, gt_iff_lt, ge_iff_le, UInt32.lt_iff_toNat_lt,
    UInt32.le_iff_toNat_le]
  change (0 < _ ∧ 0 < _ ∧ _) ↔ _
  constructor
  · rintro ⟨htrigger, -, hrefreshes, hbegin, helapsed⟩
    rw [elapsed32_toNat hbegin] at helapsed
    omega
  · rintro ⟨htrigger, hrefreshes, hle⟩
    refine ⟨htrigger, by omega, hrefreshes, by omega, ?_⟩
    rw [elapsed32_toNat (by omega)]
    omega

/-- Before the trigger the drafts do not go past it. -/
theorem middecodeDraftLimit_spec (requested : UInt32)
    {decoded epochBegin trigger refreshes maxRefreshes : UInt32}
    (h : middecodeRefreshDue decoded epochBegin trigger refreshes maxRefreshes = false) :
    (middecodeDraftLimit requested decoded epochBegin trigger refreshes maxRefreshes).toNat = 0 ∨
      trigger.toNat = 0 ∨ maxRefreshes.toNat ≤ refreshes.toNat ∨
      decoded.toNat + 1 + (middecodeDraftLimit requested decoded epochBegin trigger refreshes
        maxRefreshes).toNat ≤ epochBegin.toNat + trigger.toNat := by
  rw [← Bool.not_eq_true, middecodeRefreshDue_iff] at h
  unfold middecodeDraftLimit
  split
  next hnone =>
    rcases hnone with rfl | rfl | hmax
    · exact Or.inr (Or.inl rfl)
    · exact Or.inr (Or.inr (Or.inl (Nat.zero_le _)))
    · exact Or.inr (Or.inr (Or.inl (UInt32.le_iff_toNat_le.mp hmax)))
  next hsome =>
    split
    next => exact Or.inl rfl
    next hbegin =>
      dsimp only
      split
      next => exact Or.inl rfl
      next helapsed =>
        rw [UInt32.lt_iff_toNat_lt, Nat.not_lt] at hbegin
        rw [ge_iff_le, UInt32.not_le, UInt32.lt_iff_toNat_lt, elapsed32_toNat hbegin] at helapsed
        have hsub : (trigger - (decoded - epochBegin)).toNat =
            trigger.toNat - (decoded.toNat - epochBegin.toNat) := by
          rw [elapsed32_toNat, elapsed32_toNat hbegin]
          rw [elapsed32_toNat hbegin]
          exact helapsed.le
        have hleft : (trigger - (decoded - epochBegin) - 1).toNat =
            trigger.toNat - (decoded.toNat - epochBegin.toNat) - 1 := by
          rw [elapsed32_toNat, hsub]
          · rfl
          · rw [hsub]
            change 1 ≤ _
            omega
        refine Or.inr (Or.inr (Or.inr ?_))
        split
        next => omega
        next hle =>
          rw [UInt32.lt_iff_toNat_lt] at hle
          omega

/-- **The subtraction of the emergency limit does not underflow.** -/
theorem emergency_room {epochTokens epochLimit guardTokens : UInt32} (hlimit : epochLimit ≠ 0)
    (h : middecodeEmergencyRefreshDue epochTokens epochLimit guardTokens = false) :
    guardTokens.toNat + epochTokens.toNat + 1 ≤ epochLimit.toNat := by
  unfold middecodeEmergencyRefreshDue at h
  rw [if_neg hlimit, decide_eq_false_iff_not, not_or, ge_iff_le, UInt32.not_le, UInt32.not_le,
    UInt32.lt_iff_toNat_lt, UInt32.lt_iff_toNat_lt] at h
  obtain ⟨hlt, hguard⟩ := h
  rw [elapsed32_toNat hlt.le] at hguard
  omega

/-- Before the emergency there is room, and none of it is in an emergency. -/
theorem emergency_of_room {epochTokens epochLimit guardTokens : UInt32}
    (h : guardTokens.toNat + epochTokens.toNat + 1 ≤ epochLimit.toNat) :
    middecodeEmergencyRefreshDue epochTokens epochLimit guardTokens = false := by
  unfold middecodeEmergencyRefreshDue
  split
  next => rfl
  next =>
    rw [decide_eq_false_iff_not, not_or, ge_iff_le, UInt32.not_le, UInt32.not_le,
      UInt32.lt_iff_toNat_lt, UInt32.lt_iff_toNat_lt, elapsed32_toNat (by omega)]
    omega

theorem refreshBoundary_le (generated : Bytes) (candidates : List Bytes) :
    (refreshBoundary generated candidates).candidates ≤ candidates.length := by
  induction candidates generalizing generated with
  | nil => exact le_rfl
  | cons piece pieces ih =>
      unfold refreshBoundary
      split
      · exact Nat.succ_le_succ (Nat.zero_le _)
      · exact Nat.succ_le_succ (ih _)

/-- The text is not safe after any candidate that is verified, but for the boundary
itself. -/
theorem not_safe_of_refreshBoundary {generated : Bytes} {candidates : List Bytes} {j : ℕ}
    (hpos : 0 < j) (hle : j ≤ (refreshBoundary generated candidates).candidates)
    (hin : (refreshBoundary generated candidates).includesBoundary = true →
      j < (refreshBoundary generated candidates).candidates) :
    middecodeRefreshTextSafe (generated ++ (candidates.take j).flatten) = false := by
  induction candidates generalizing generated j with
  | nil =>
      change j ≤ 0 at hle
      omega
  | cons piece pieces ih =>
      unfold refreshBoundary at hle hin
      split at hle
      next hsafe =>
        rw [if_pos hsafe] at hin
        have hlt := hin rfl
        change j < 1 at hlt
        omega
      next hsafe =>
        rw [if_neg hsafe] at hin
        obtain ⟨j, rfl⟩ : ∃ i, j = i + 1 := ⟨j - 1, by omega⟩
        rw [List.take_succ_cons, List.flatten_cons, ← List.append_assoc]
        rcases Nat.eq_zero_or_pos j with rfl | hj
        · rw [List.take_zero, List.flatten_nil, List.append_nil]
          exact Bool.eq_false_iff.mpr hsafe
        · exact ih hj (Nat.le_of_succ_le_succ hle) fun h => Nat.lt_of_succ_lt_succ (hin h)

namespace Epoch

/-! ## Cycles -/

theorem text_append {candidates : List Bytes} {n j : ℕ}
    (h : ∀ i < j, candidates[i]? = some (e.piece (n + i))) :
    e.text (n + j) = e.text n ++ (candidates.take j).flatten := by
  induction j with
  | zero => rw [List.take_zero, List.flatten_nil, List.append_nil, Nat.add_zero]
  | succ j ih =>
      have hrest := ih fun i hi => h i (Nat.lt_succ_of_lt hi)
      have hlast := h j (Nat.lt_succ_self j)
      have htext : e.text (n + j + 1) = e.text (n + j) ++ e.piece (n + j) := by
        unfold text
        rw [List.range_succ, List.flatMap_append, List.flatMap_singleton]
      rw [← Nat.add_assoc, htext, hrest, List.take_add_one, hlast, List.flatten_append,
        Option.toList_some, List.flatten_singleton, List.append_assoc]

/-- The regime before the trigger. -/
theorem not_due_between (hn : e.due n = false) (h : e.Cycle n m) (hlo : n < x) (hhi : x < m) :
    e.due x = false := by
  obtain ⟨requested, candidates, hlen, -, hm, -⟩ := h
  have hlimit : e.limit requested n = ⟨middecodeDraftLimit requested n e.epochBegin e.trigger
      e.refreshes e.maxRefreshes, false⟩ := by
    unfold limit deferredRefreshLimit
    dsimp only
    rw [if_pos (Or.inl (Bool.not_eq_true _ ▸ hn))]
  have hboundary : e.boundary requested n candidates = ⟨candidates.length, false⟩ := by
    unfold boundary
    rw [hlimit]
    rfl
  rw [hboundary] at hm
  rw [hlimit] at hlen
  change m.toNat ≤ n.toNat + candidates.length + 1 at hm
  rw [UInt32.lt_iff_toNat_lt] at hlo hhi
  rw [← Bool.not_eq_true]
  intro hx
  unfold due at hx
  rw [middecodeRefreshDue_iff] at hx
  have hspec := middecodeDraftLimit_spec requested hn
  dsimp only at hlen
  omega

/-- The limit of a cycle inside of an open fragment. -/
theorem limit_open (hdue : e.due n = true)
    (hsafe : middecodeRefreshTextSafe (e.text n.toNat) = false) (hemergency : e.emergency n = false)
    (requested : UInt32) :
    e.limit requested n = ⟨0, false⟩ ∨ (e.limit requested n).needsTextBoundaryCheck = true ∧
      e.guardTokens.toNat + (n.toNat - e.epochBegin.toNat) +
        (e.limit requested n).drafts.toNat + 1 ≤ e.epochLimit.toNat := by
  have hbegin := (middecodeRefreshDue_iff.mp hdue).2.2
  have hnot : ¬ (¬ middecodeRefreshDue n e.epochBegin e.trigger e.refreshes e.maxRefreshes = true ∨
      middecodeRefreshTextSafe (e.text n.toNat) = true) := by
    rw [not_or, not_not, Bool.not_eq_true]
    exact ⟨hdue, hsafe⟩
  unfold limit deferredRefreshLimit
  dsimp only
  rw [if_neg hnot]
  by_cases hzero : e.epochLimit = 0
  · rw [if_pos (Or.inl hzero)]
    exact Or.inl rfl
  · have hroom := emergency_room hzero hemergency
    rw [elapsed32_toNat (by omega)] at hroom
    have hguard : (e.epochLimit - e.guardTokens).toNat =
        e.epochLimit.toNat - e.guardTokens.toNat := elapsed32_toNat (by omega)
    have helapsed : (n - e.epochBegin).toNat = n.toNat - e.epochBegin.toNat :=
      elapsed32_toNat (by omega)
    have hbefore : (e.epochLimit - e.guardTokens - (n - e.epochBegin)).toNat =
        e.epochLimit.toNat - e.guardTokens.toNat - (n.toNat - e.epochBegin.toNat) := by
      rw [elapsed32_toNat (by omega), hguard, helapsed]
    have hleft : (e.epochLimit - e.guardTokens - (n - e.epochBegin) - 1).toNat =
        e.epochLimit.toNat - e.guardTokens.toNat - (n.toNat - e.epochBegin.toNat) - 1 := by
      rw [elapsed32_toNat, hbefore]
      · rfl
      · rw [hbefore]
        change 1 ≤ _
        omega
    rw [if_neg (by rw [not_or, Bool.not_eq_true]; exact ⟨hzero, hemergency⟩)]
    refine Or.inr ⟨rfl, ?_⟩
    dsimp only
    split
    next => omega
    next hle =>
      rw [UInt32.lt_iff_toNat_lt] at hle
      omega

/-- The regime inside of an open fragment. -/
theorem not_refresh_between (hdue : e.due n = true)
    (hsafe : middecodeRefreshTextSafe (e.text n.toNat) = false) (hemergency : e.emergency n = false)
    (h : e.Cycle n m) (hlo : n < x) (hhi : x < m) : ¬ e.RefreshPoint x := by
  obtain ⟨requested, candidates, hlen, -, hm, haccepted⟩ := h
  rw [UInt32.lt_iff_toNat_lt] at hlo hhi
  have hbegin := (middecodeRefreshDue_iff.mp hdue).2.2
  unfold boundary at hm
  rcases limit_open hdue hsafe hemergency requested with hlimit | ⟨hneeds, hroom⟩
  · -- a single token
    rw [hlimit] at hlen hm
    change candidates.length ≤ 0 at hlen
    change m.toNat ≤ n.toNat + candidates.length + 1 at hm
    omega
  · rw [if_pos hneeds] at hm
    have hle := refreshBoundary_le (e.text n.toNat) candidates
    obtain ⟨j, hj⟩ := Nat.exists_eq_add_of_lt hlo
    have htext : e.text x.toNat = e.text n.toNat ++ (candidates.take (j + 1)).flatten := by
      rw [hj, Nat.add_assoc]
      exact text_append fun i hi => haccepted i (by omega)
    rintro ⟨-, hsafe' | hemergency'⟩
    · rw [htext, not_safe_of_refreshBoundary (Nat.succ_pos j)] at hsafe'
      · cases hsafe'
      · split at hm
        · omega
        · omega
      · intro hin
        rw [if_pos hin] at hm
        omega
    · have hx : e.emergency x = false := by
        refine emergency_of_room ?_
        rw [elapsed32_toNat (by omega)]
        split at hm
        · omega
        · omega
      rw [hx] at hemergency'
      cases hemergency'

/-- **No cycle that begins between two refresh points jumps over one.** -/
theorem not_refresh_of_cycle (hn : ¬ e.RefreshPoint n) (h : e.Cycle n m) (hlo : n < x)
    (hhi : x < m) : ¬ e.RefreshPoint x := by
  cases hdue : e.due n with
  | false =>
      rintro ⟨hx, -⟩
      rw [not_due_between hdue h hlo hhi] at hx
      cases hx
  | true =>
      have hnot : ¬ (middecodeRefreshTextSafe (e.text n.toNat) = true ∨ e.emergency n = true) :=
        fun hor => hn ⟨hdue, hor⟩
      rw [not_or, Bool.not_eq_true, Bool.not_eq_true] at hnot
      exact not_refresh_between hdue hnot.1 hnot.2 h hlo hhi

/-- **Speculation never skips a refresh point**: no cycle that begins at no refresh
point jumps over one; a run that gets past the next refresh point visits it, and no
refresh point before it; and the distance to the emergency does not underflow. -/
theorem speculationRefresh (e : Epoch) :
    (∀ n m, ¬ e.RefreshPoint n → e.Cycle n m → ∀ x, n < x → x < m → ¬ e.RefreshPoint x) ∧
      (∀ start x, start ≤ x → e.RefreshPoint x →
        (∀ y, start ≤ y → y < x → ¬ e.RefreshPoint y) → ∀ ps, (start :: ps).IsChain e.Cycle →
          (∃ p ∈ start :: ps, x ≤ p) →
            ∃ before after, start :: ps = before ++ x :: after ∧
              ∀ p ∈ before, ¬ e.RefreshPoint p) ∧
      ∀ n, e.due n = true → e.epochLimit ≠ 0 → e.emergency n = false →
        e.guardTokens.toNat + (n - e.epochBegin).toNat + 1 ≤ e.epochLimit.toNat := by
  refine ⟨fun n m hn h x => not_refresh_of_cycle hn h, ?_, fun n _ => emergency_room⟩
  intro start x hstart hx hfirst ps hrun hend
  have hmono : ∀ p q, e.Cycle p q → p.toNat < q.toNat := by
    rintro p q ⟨-, -, -, hlt, -⟩
    exact UInt32.lt_iff_toNat_lt.mp hlt
  have hstep : ∀ p q, start.toNat ≤ p.toNat → e.Cycle p q → p.toNat < x.toNat →
      q.toNat ≤ x.toNat := by
    intro p q hlo hcycle hlt
    rw [← UInt32.le_iff_toNat_le] at hlo
    rw [← UInt32.lt_iff_toNat_lt] at hlt
    by_contra hle
    rw [Nat.not_le, ← UInt32.lt_iff_toNat_lt] at hle
    exact not_refresh_of_cycle (hfirst p hlo hlt) hcycle hlt hle hx
  obtain ⟨p, hp, hle⟩ := hend
  obtain ⟨before, after, heq, hbefore⟩ := Advance.exists_visit (fun _ _ => UInt32.toNat_inj.mp)
    hmono hstep hrun le_rfl (UInt32.le_iff_toNat_le.mp hstart)
    ⟨p, hp, UInt32.le_iff_toNat_le.mp hle⟩
  refine ⟨before, after, heq, ?_⟩
  intro q hq
  obtain ⟨hlo, hlt⟩ := hbefore q hq
  exact hfirst q (UInt32.le_iff_toNat_le.mpr hlo) (UInt32.lt_iff_toNat_lt.mpr hlt)

/-- A word of six letters, then full stops, with a trigger of four tokens. -/
def openWord : Epoch where
  epochBegin := 0
  trigger := 4
  refreshes := 0
  maxRefreshes := 1
  epochLimit := 1024
  guardTokens := 512
  piece n := if n < 6 then [0x61] else [0x2E]

/-- The text is open from the trigger on until the word ends, and no emergency closes it. -/
theorem openWord_text : (∀ n < 7, 4 ≤ n → middecodeRefreshTextSafe (openWord.text n) = false ∧
      openWord.emergency (UInt32.ofNat n) = false) ∧
    middecodeRefreshTextSafe (openWord.text 7) = true ∧
    (refreshBoundary (openWord.text 4) [[0x61], [0x61], [0x2E], [0x2E]]).candidates = 3 ∧
    (refreshBoundary (openWord.text 4) [[0x61], [0x61], [0x2E], [0x2E]]).includesBoundary = true := by
  decide +kernel

/-- A cycle that might draft eight tokens stops at the trigger, and one from there where the word
ends. -/
theorem speculationRefresh_openWord : ∃ before after, (0 : UInt32) :: [4, 7] = before ++ 7 :: after ∧
    ∀ p ∈ before, ¬ openWord.RefreshPoint p := by
  obtain ⟨hinside, hsafe, hcandidates, hends⟩ := openWord_text
  refine (speculationRefresh openWord).2.1 0 7 (by decide) ⟨by decide, Or.inl hsafe⟩ ?_ [4, 7] ?_
    ⟨7, by decide, by decide⟩
  · rintro y - hlt ⟨hdue, hor⟩
    have hge := (middecodeRefreshDue_iff.mp hdue).2.2
    change 4 ≤ y.toNat at hge
    rw [UInt32.lt_iff_toNat_lt] at hlt
    obtain ⟨htext, hemergency⟩ := hinside y.toNat hlt hge
    rw [UInt32.ofNat_toNat] at hemergency
    rw [htext, hemergency] at hor
    exact hor.elim nofun nofun
  · have hfirst : openWord.Cycle 0 4 := by
      have hlimit : openWord.limit 8 0 = ⟨3, false⟩ := by
        unfold limit deferredRefreshLimit
        dsimp only
        rw [if_pos (Or.inl (by decide))]
        rfl
      refine ⟨8, [[0x61], [0x61], [0x61]], ?_, by decide, ?_, ?_⟩
      · rw [hlimit]
        decide
      · unfold boundary
        rw [hlimit]
        decide
      · intro j hj
        change 0 + j + 1 < 4 at hj
        have hlt : j < 3 := by omega
        interval_cases j
        · rfl
        · rfl
        · rfl
    have hsecond : openWord.Cycle 4 7 := by
      have hlimit : openWord.limit 8 4 = ⟨8, true⟩ := by
        unfold limit
        change deferredRefreshLimit 8 4 0 4 0 1 1024 (middecodeRefreshTextSafe (openWord.text 4)) 512 = _
        rw [(hinside 4 (by decide) le_rfl).1]
        rfl
      refine ⟨8, [[0x61], [0x61], [0x2E], [0x2E]], ?_, by decide, ?_, ?_⟩
      · rw [hlimit]
        decide
      · unfold boundary
        rw [hlimit, if_pos rfl]
        change 7 ≤ 4 + (refreshBoundary (openWord.text 4) _).candidates +
          if (refreshBoundary (openWord.text 4) _).includesBoundary = true then 0 else 1
        rw [hcandidates, hends]
        decide
      · intro j hj
        change 4 + j + 1 < 7 at hj
        have hlt : j < 2 := by omega
        interval_cases j
        · rfl
        · rfl
    simp [hfirst, hsecond]

end Epoch

end Qw3.Policy
