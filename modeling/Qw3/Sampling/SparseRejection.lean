import Mathlib.Algebra.BigOperators.Field
import Mathlib.Algebra.BigOperators.Group.Finset.Basic
import Mathlib.Algebra.BigOperators.Intervals
import Mathlib.Algebra.Order.BigOperators.Group.List
import Mathlib.Algebra.Order.Field.Rat
import Mathlib.Algebra.Order.Group.MinMax
import Mathlib.Data.List.GetD
import Mathlib.Data.Rat.Cast.Order
import Mathlib.Tactic.FieldSimp
import Mathlib.Tactic.Linarith
import Mathlib.Tactic.Positivity
import Mathlib.Tactic.Ring

/-!
# Sparse speculative rejection

`speculative_sampling.hpp` over exact rationals: one rejection-sampling step
with a target distribution over the whole vocabulary and a proposal over a few
candidates.

* `sparseRejectionStep`, `SparseRejectionStep.accepts`,
  `SparseRejectionStep.residualToken` — the source's functions.
* `produced` — the probability that one step yields a token.
* `residualToken_eq_iff` — the uniforms for which the residual draw returns a
  token form an interval as long as the token's share of the residual.
* `produced_eq_target` — **the step samples the target**.

A candidate is a pair of an ID and its proposal weight; in the source the two
are parallel arrays.
-/

namespace Qw3.Sampling

/-- The result of one step: `residual` is the unnormalized `max(p - q, 0)`. -/
structure SparseRejectionStep where
  acceptProbability : ℚ
  residual : List ℚ
  deriving DecidableEq, Repr

namespace SparseRejectionStep

/-- `accepts`. -/
def accepts (r : SparseRejectionStep) (uniform : ℚ) : Except String Bool :=
  if 0 ≤ uniform ∧ uniform < 1 then .ok (uniform < r.acceptProbability)
  else .error "acceptance uniform outside [0, 1)"

/-- The loop of `residual_token`, at index `i`. -/
def residualLoop (draw : ℚ) : List ℚ → ℕ → ℚ → ℤ → ℤ
  | [], _, _, last => last
  | p :: rest, i, cumulative, last =>
      if p ≤ 0 then residualLoop draw rest (i + 1) cumulative last
      else if draw < cumulative + p then i
      else residualLoop draw rest (i + 1) (cumulative + p) i

/-- `residual_token`. -/
def residualToken (r : SparseRejectionStep) (uniform : ℚ) : Except String ℤ :=
  if 0 ≤ uniform ∧ uniform < 1 then
    if 0 < r.residual.sum then .ok (residualLoop (uniform * r.residual.sum) r.residual 0 0 (-1))
    else .error "rejection has no residual mass"
  else .error "residual uniform outside [0, 1)"

/-- The share of a token in the residual. -/
def residualShare (r : SparseRejectionStep) (y : ℕ) : ℚ := r.residual.getD y 0 / r.residual.sum

end SparseRejectionStep

/-! ## The step -/

/-- The checks on the candidates: each is in range, has a weight, and differs
from those before it. -/
def checkCandidates (size : ℕ) : List (ℤ × ℚ) → List (ℤ × ℚ) → Except String Unit
  | _, [] => .ok ()
  | before, c :: rest =>
      if c.1 < 0 ∨ (size : ℤ) ≤ c.1 ∨ c.2 < 0 then
        .error "invalid sparse proposal probability or token"
      else if ∃ b ∈ before, b.1 = c.1 then .error "duplicate sparse proposal token"
      else checkCandidates size (before ++ [c]) rest

/-- The sum of the proposal weights. -/
def proposalTotal (candidates : List (ℤ × ℚ)) : ℚ := (candidates.map Prod.snd).sum

/-- `q_proposed`: the weight of the last candidate with this ID. -/
def proposalOf (candidates : List (ℤ × ℚ)) (token : ℤ) : ℚ :=
  candidates.foldl (fun q c => if c.1 = token then c.2 else q) 0

/-- `max(p - q, 0)` at the candidates, in place. -/
def subtractProposal (total : ℚ) (residual : List ℚ) (candidates : List (ℤ × ℚ)) : List ℚ :=
  candidates.foldl (fun r c => r.modify c.1.toNat fun p => max 0 (p - c.2 / total)) residual

/-- `sparse_rejection_step`. -/
def sparseRejectionStep (target : List ℚ) (candidates : List (ℤ × ℚ)) (proposedToken : ℤ) :
    Except String SparseRejectionStep :=
  if target = [] ∨ candidates = [] ∨ proposedToken < 0 ∨ (target.length : ℤ) ≤ proposedToken then
    .error "invalid sparse rejection shape or token"
  else if ∃ p ∈ target, p < 0 then .error "invalid target probability"
  else
    match checkCandidates target.length [] candidates with
    | .error e => .error e
    | .ok () =>
        if ¬ 0 < target.sum ∨ ¬ 0 < proposalTotal candidates ∨
            ¬ 0 < proposalOf candidates proposedToken then
          .error "empty distribution or impossible proposed token"
        else
          .ok {
            acceptProbability := min 1 ((target.getD proposedToken.toNat 0 / target.sum) /
              (proposalOf candidates proposedToken / proposalTotal candidates))
            residual := subtractProposal (proposalTotal candidates)
              (target.map fun p => p / target.sum) candidates }

/-- What happens to a proposed token, as the probability that `y` comes out. -/
def outcome (target : List ℚ) (candidates : List (ℤ × ℚ)) (x : ℤ) (y : ℕ) : ℚ :=
  match sparseRejectionStep target candidates x with
  | .error _ => 0
  | .ok r => r.acceptProbability * (if x = y then 1 else 0) +
      (1 - r.acceptProbability) * r.residualShare y

/-- The probability that a step yields `y`: propose `x` with probability
`q(x) / sum q`, then accept it or draw from the residual. -/
def produced (target : List ℚ) (candidates : List (ℤ × ℚ)) (y : ℕ) : ℚ :=
  (candidates.map fun c => c.2 / proposalTotal candidates * outcome target candidates c.1 y).sum

/-! ## Drawing by cumulative sums -/

section Draw

variable {draw cumulative : ℚ} {weights : List ℚ}

/-- The loop stops in the interval of the drawn value. -/
theorem residualLoop_spec (hw : ∀ w ∈ weights, 0 ≤ w) (i : ℕ) (last : ℤ)
    (hlow : cumulative ≤ draw) (hhigh : draw < cumulative + weights.sum) :
    ∃ j < weights.length,
      SparseRejectionStep.residualLoop draw weights i cumulative last = ((i + j : ℕ) : ℤ) ∧
      cumulative + (weights.take j).sum ≤ draw ∧
      draw < cumulative + (weights.take (j + 1)).sum := by
  induction weights generalizing i cumulative last with
  | nil =>
      rw [List.sum_nil, add_zero] at hhigh
      exact absurd hlow (not_le.mpr hhigh)
  | cons w rest ih =>
      have hrest : ∀ v ∈ rest, 0 ≤ v := fun v hv => hw v (List.mem_cons_of_mem _ hv)
      have hw₀ : 0 ≤ w := hw w List.mem_cons_self
      rw [List.sum_cons, ← add_assoc] at hhigh
      unfold SparseRejectionStep.residualLoop
      split_ifs with hzero hstop
      · -- a token without residual is passed over
        obtain rfl : w = 0 := le_antisymm hzero hw₀
        rw [add_zero] at hhigh
        obtain ⟨j, hj, hloop, hfrom, hto⟩ := ih hrest (i + 1) last hlow hhigh
        refine ⟨j + 1, Nat.succ_lt_succ hj, ?_, ?_, ?_⟩
        · rw [hloop, Nat.add_right_comm, Nat.add_assoc]
        · rw [List.take_succ_cons, List.sum_cons, zero_add]
          exact hfrom
        · rw [List.take_succ_cons, List.sum_cons, zero_add]
          exact hto
      · refine ⟨0, Nat.succ_pos _, rfl, ?_, ?_⟩
        · rw [List.take_zero, List.sum_nil, add_zero]
          exact hlow
        · rw [List.take_succ_cons, List.take_zero, List.sum_singleton]
          exact hstop
      · obtain ⟨j, hj, hloop, hfrom, hto⟩ := ih hrest (i + 1) i (not_lt.mp hstop) hhigh
        refine ⟨j + 1, Nat.succ_lt_succ hj, ?_, ?_, ?_⟩
        · rw [hloop, Nat.add_right_comm, Nat.add_assoc]
        · rw [List.take_succ_cons, List.sum_cons, ← add_assoc]
          exact hfrom
        · rw [List.take_succ_cons, List.sum_cons, ← add_assoc]
          exact hto

/-- Cumulative sums of weights grow. -/
theorem sum_take_mono (hw : ∀ w ∈ weights, 0 ≤ w) {i j : ℕ} (h : i ≤ j) :
    (weights.take i).sum ≤ (weights.take j).sum := by
  obtain ⟨k, rfl⟩ := Nat.exists_eq_add_of_le h
  rw [List.take_add, List.sum_append]
  refine le_add_of_nonneg_right (List.sum_nonneg fun w hmem => hw w ?_)
  exact List.mem_of_mem_drop (List.mem_of_mem_take hmem)

theorem sum_take_succ_getD {y : ℕ} :
    (weights.take (y + 1)).sum = (weights.take y).sum + weights.getD y 0 := by
  by_cases hy : y < weights.length
  · rw [List.sum_take_succ weights y hy, List.getD_eq_getElem weights 0 hy]
  · rw [List.take_of_length_le (by omega), List.take_of_length_le (by omega),
      List.getD_eq_default weights 0 (by omega), add_zero]

end Draw

namespace SparseRejectionStep

variable {r : SparseRejectionStep} {u : ℚ}

theorem accepts_eq (h₀ : 0 ≤ u) (h₁ : u < 1) :
    r.accepts u = .ok (decide (u < r.acceptProbability)) :=
  if_pos ⟨h₀, h₁⟩

/-- **The residual draw.**  A token is returned for the uniforms of an interval
whose length is its share of the residual. -/
theorem residualToken_eq_iff (hr : ∀ p ∈ r.residual, 0 ≤ p) (htotal : 0 < r.residual.sum)
    (h₀ : 0 ≤ u) (h₁ : u < 1) (y : ℕ) :
    r.residualToken u = .ok (y : ℤ) ↔
      (r.residual.take y).sum / r.residual.sum ≤ u ∧
        u < (r.residual.take y).sum / r.residual.sum + r.residualShare y := by
  have hhigh : u * r.residual.sum < 0 + r.residual.sum := by
    rw [zero_add]
    exact mul_lt_of_lt_one_left htotal h₁
  obtain ⟨j, -, hloop, hfrom, hto⟩ :=
    residualLoop_spec hr 0 (-1) (mul_nonneg h₀ htotal.le) hhigh
  rw [zero_add] at hfrom hto
  have htoken : r.residualToken u = .ok (j : ℤ) := by
    unfold residualToken
    rw [if_pos ⟨h₀, h₁⟩, if_pos htotal, hloop, Nat.zero_add]
  rw [residualShare, ← add_div, ← sum_take_succ_getD, div_le_iff₀ htotal, lt_div_iff₀ htotal,
    htoken]
  constructor
  · intro h
    obtain rfl : j = y := by exact_mod_cast Except.ok.inj h
    exact ⟨hfrom, hto⟩
  · rintro ⟨hy, hy'⟩
    have hle : j ≤ y := by
      by_contra hlt
      have := sum_take_mono hr (show y + 1 ≤ j by omega)
      linarith
    have hge : y ≤ j := by
      by_contra hlt
      have := sum_take_mono hr (show j + 1 ≤ y by omega)
      linarith
    rw [le_antisymm hle hge]

/-- Where there is residual, the draw returns a token that has some. -/
theorem residualToken_positive (hr : ∀ p ∈ r.residual, 0 ≤ p) (htotal : 0 < r.residual.sum)
    (h₀ : 0 ≤ u) (h₁ : u < 1) :
    ∃ y < r.residual.length, r.residualToken u = .ok (y : ℤ) ∧ 0 < r.residual.getD y 0 := by
  have hhigh : u * r.residual.sum < 0 + r.residual.sum := by
    rw [zero_add]
    exact mul_lt_of_lt_one_left htotal h₁
  obtain ⟨j, hj, hloop, hfrom, hto⟩ :=
    residualLoop_spec hr 0 (-1) (mul_nonneg h₀ htotal.le) hhigh
  refine ⟨j, hj, ?_, ?_⟩
  · unfold residualToken
    rw [if_pos ⟨h₀, h₁⟩, if_pos htotal, hloop, Nat.zero_add]
  · rw [sum_take_succ_getD] at hto
    linarith

end SparseRejectionStep

/-! ## The proposal as a function of the token -/

section Proposal

variable {cs : List (ℤ × ℚ)} {token : ℤ}

/-- A sparse proposal over a vocabulary of `size` tokens: distinct IDs in range,
nonnegative weights. -/
structure SparseProposal (size : ℕ) (cs : List (ℤ × ℚ)) : Prop where
  nonneg : ∀ c ∈ cs, 0 ≤ c.1
  lt_size : ∀ c ∈ cs, c.1 < size
  weight : ∀ c ∈ cs, 0 ≤ c.2
  nodup : (cs.map Prod.fst).Nodup

theorem SparseProposal.tail {size : ℕ} {c : ℤ × ℚ} (h : SparseProposal size (c :: cs)) :
    SparseProposal size cs where
  nonneg d hd := h.nonneg d (List.mem_cons_of_mem _ hd)
  lt_size d hd := h.lt_size d (List.mem_cons_of_mem _ hd)
  weight d hd := h.weight d (List.mem_cons_of_mem _ hd)
  nodup := (List.nodup_cons.mp h.nodup).2

theorem SparseProposal.head_notMem {size : ℕ} {c : ℤ × ℚ} (h : SparseProposal size (c :: cs)) :
    ∀ d ∈ cs, d.1 ≠ c.1 := fun _ hd heq =>
  (List.nodup_cons.mp h.nodup).1 (heq ▸ List.mem_map_of_mem hd)

theorem proposal_foldl_of_notMem (h : ∀ c ∈ cs, c.1 ≠ token) (q : ℚ) :
    cs.foldl (fun q c => if c.1 = token then c.2 else q) q = q := by
  induction cs generalizing q with
  | nil => rfl
  | cons c cs ih =>
      rw [List.foldl_cons, if_neg (h c List.mem_cons_self)]
      exact ih (fun d hd => h d (List.mem_cons_of_mem _ hd)) q

theorem proposalOf_of_notMem (h : ∀ c ∈ cs, c.1 ≠ token) : proposalOf cs token = 0 :=
  proposal_foldl_of_notMem h 0

/-- The weight of the first candidate, and past it the others decide. -/
theorem proposalOf_cons {size : ℕ} {c : ℤ × ℚ} (h : SparseProposal size (c :: cs)) (token : ℤ) :
    proposalOf (c :: cs) token = if c.1 = token then c.2 else proposalOf cs token := by
  unfold proposalOf
  rw [List.foldl_cons]
  split_ifs with hc
  · exact proposal_foldl_of_notMem (fun d hd => hc ▸ h.head_notMem d hd) c.2
  · rfl

theorem proposalOf_of_mem {size : ℕ} (h : SparseProposal size cs) {c : ℤ × ℚ} (hc : c ∈ cs) :
    proposalOf cs c.1 = c.2 := by
  induction cs with
  | nil => cases hc
  | cons d cs ih =>
      rw [proposalOf_cons h]
      rcases List.mem_cons.mp hc with rfl | hc
      · exact if_pos rfl
      · rw [if_neg fun heq => h.head_notMem c hc heq.symm]
        exact ih h.tail hc

theorem proposalOf_nonneg {size : ℕ} (h : SparseProposal size cs) (token : ℤ) :
    0 ≤ proposalOf cs token := by
  by_cases hmem : ∃ c ∈ cs, c.1 = token
  · obtain ⟨c, hc, rfl⟩ := hmem
    rw [proposalOf_of_mem h hc]
    exact h.weight c hc
  · push Not at hmem
    exact (proposalOf_of_notMem hmem).ge

/-- A sum over the candidates is a sum over the vocabulary. -/
theorem sum_candidates {size : ℕ} (h : SparseProposal size cs) {f : ℤ → ℚ → ℚ}
    (hf : ∀ x, f x 0 = 0) :
    (cs.map fun c => f c.1 c.2).sum = ∑ x ∈ Finset.range size, f x (proposalOf cs x) := by
  induction cs with
  | nil =>
      refine (Finset.sum_eq_zero fun x _ => ?_).symm
      exact hf x
  | cons c cs ih =>
      obtain ⟨n, hn⟩ := Int.eq_ofNat_of_zero_le (h.nonneg c List.mem_cons_self)
      have hlt : n < size := by
        have := h.lt_size c List.mem_cons_self
        omega
      have hother : ∀ x ∈ Finset.range size, x ≠ n →
          f x (proposalOf (c :: cs) x) = f x (proposalOf cs x) := fun x _ hx => by
        rw [proposalOf_cons h, if_neg (by omega)]
      have hzero : f n (proposalOf cs n) = 0 := by
        rw [proposalOf_of_notMem fun d hd => hn ▸ h.head_notMem d hd, hf]
      have hself : f n (proposalOf (c :: cs) n) = f c.1 c.2 := by
        rw [proposalOf_cons h, if_pos hn, hn]
      rw [List.map_cons, List.sum_cons, ih h.tail,
        ← Finset.add_sum_erase _ _ (Finset.mem_range.mpr hlt), hzero, zero_add,
        ← Finset.add_sum_erase _ (fun x : ℕ => f x (proposalOf (c :: cs) x))
          (Finset.mem_range.mpr hlt), hself]
      congr 1
      refine Finset.sum_congr rfl fun x hx => ?_
      exact (hother x (Finset.mem_of_mem_erase hx) (Finset.ne_of_mem_erase hx)).symm

theorem checkCandidates_ok {size : ℕ} {before : List (ℤ × ℚ)} (h : SparseProposal size cs)
    (hbefore : ∀ b ∈ before, ∀ c ∈ cs, b.1 ≠ c.1) : checkCandidates size before cs = .ok () := by
  induction cs generalizing before with
  | nil => rfl
  | cons c cs ih =>
      have hself := List.mem_cons_self (a := c) (l := cs)
      unfold checkCandidates
      rw [if_neg, if_neg]
      · refine ih h.tail fun b hb d hd => ?_
        rcases List.mem_append.mp hb with hb | hb
        · exact hbefore b hb d (List.mem_cons_of_mem _ hd)
        · obtain rfl := List.mem_singleton.mp hb
          exact (h.head_notMem d hd).symm
      · rintro ⟨b, hb, heq⟩
        exact hbefore b hb c hself heq
      · rintro (hneg | hlarge | hweight)
        · exact not_lt.mpr (h.nonneg c hself) hneg
        · exact not_le.mpr (h.lt_size c hself) hlarge
        · exact not_lt.mpr (h.weight c hself) hweight

end Proposal

/-! ## The residual -/

section Residual

variable {size : ℕ} {cs : List (ℤ × ℚ)} {residual : List ℚ} {total : ℚ}

theorem subtractProposal_length (total : ℚ) (residual : List ℚ) (cs : List (ℤ × ℚ)) :
    (subtractProposal total residual cs).length = residual.length := by
  unfold subtractProposal
  induction cs generalizing residual with
  | nil => rfl
  | cons c cs ih => rw [List.foldl_cons, ih, List.length_modify]

/-- **The residual is `max(p - q, 0)` at every token**, in the candidate set or
out of it. -/
theorem subtractProposal_getD (h : SparseProposal size cs) (hres : ∀ p ∈ residual, 0 ≤ p)
    {y : ℕ} (hy : y < residual.length) :
    (subtractProposal total residual cs).getD y 0 =
      max 0 (residual.getD y 0 - proposalOf cs y / total) := by
  induction cs generalizing residual with
  | nil =>
      show residual.getD y 0 = max 0 (residual.getD y 0 - 0 / total)
      rw [zero_div, sub_zero, List.getD_eq_getElem _ _ hy, max_eq_right]
      exact hres _ (List.getElem_mem hy)
  | cons c cs ih =>
      obtain ⟨n, hn⟩ := Int.eq_ofNat_of_zero_le (h.nonneg c List.mem_cons_self)
      have hres' : ∀ p ∈ residual.modify n fun p => max 0 (p - c.2 / total), 0 ≤ p := by
        intro p hp
        obtain ⟨i, hi⟩ := List.mem_iff_getElem?.mp hp
        rw [List.getElem?_modify] at hi
        obtain ⟨q, hq, rfl⟩ := Option.map_eq_some_iff.mp hi
        split_ifs
        · exact le_max_left _ _
        · exact hres q (List.mem_of_getElem? hq)
      have hy' : y < (residual.modify n fun p => max 0 (p - c.2 / total)).length := by
        rw [List.length_modify]
        exact hy
      have hstep : subtractProposal total residual (c :: cs) =
          subtractProposal total (residual.modify n fun p => max 0 (p - c.2 / total)) cs := by
        unfold subtractProposal
        rw [List.foldl_cons, hn]
        rfl
      rw [hstep, ih h.tail hres' hy', proposalOf_cons h, List.getD_eq_getElem _ _ hy',
        List.getD_eq_getElem _ _ hy, List.getElem_modify, hn]
      by_cases hny : n = y
      · -- the candidate itself: no later candidate has its ID
        subst hny
        rw [if_pos rfl, if_pos rfl, proposalOf_of_notMem fun d hd => hn ▸ h.head_notMem d hd,
          zero_div, sub_zero, max_eq_right (le_max_left _ _)]
      · rw [if_neg hny, if_neg (by omega)]

end Residual

/-! ## The step samples the target -/

section Target

variable {target : List ℚ} {cs : List (ℤ × ℚ)}

/-- The normalized target and proposal. -/
def targetOf (target : List ℚ) (y : ℕ) : ℚ := target.getD y 0 / target.sum

def normalizedProposal (cs : List (ℤ × ℚ)) (y : ℕ) : ℚ := proposalOf cs y / proposalTotal cs

/-- What a genuine proposal gives: the acceptance probability, and a residual
that does not depend on the proposed token. -/
theorem sparseRejectionStep_ok (htarget : ∀ p ∈ target, 0 ≤ p) (hp : 0 < target.sum)
    (h : SparseProposal target.length cs) (hq : 0 < proposalTotal cs) {x : ℕ}
    (hx : x < target.length) (hpos : 0 < proposalOf cs x) :
    sparseRejectionStep target cs x = .ok {
      acceptProbability := min 1 (targetOf target x / normalizedProposal cs x)
      residual := subtractProposal (proposalTotal cs) (target.map fun p => p / target.sum) cs } := by
  unfold sparseRejectionStep
  rw [if_neg, if_neg, checkCandidates_ok h (by simp)]
  · dsimp only
    rw [if_neg (by simp [hp, hq, hpos]), Int.toNat_natCast]
    rfl
  · rintro ⟨p, hmem, hneg⟩
    exact not_lt.mpr (htarget p hmem) hneg
  · rintro (hnil | hnil | hneg | hlarge)
    · subst hnil
      exact absurd hx (Nat.not_lt_zero _)
    · subst hnil
      exact absurd hpos (lt_irrefl _)
    · omega
    · omega

variable (target cs) in
/-- The residual of every step. -/
def residualOf : List ℚ :=
  subtractProposal (proposalTotal cs) (target.map fun p => p / target.sum) cs

theorem residualOf_length (target : List ℚ) (cs : List (ℤ × ℚ)) : (residualOf target cs).length = target.length := by
  rw [residualOf, subtractProposal_length, List.length_map]

theorem residualOf_getD (htarget : ∀ p ∈ target, 0 ≤ p) (hp : 0 < target.sum)
    (h : SparseProposal target.length cs) {y : ℕ} (hy : y < target.length) :
    (residualOf target cs).getD y 0 =
      targetOf target y - min (targetOf target y) (normalizedProposal cs y) := by
  have hmap : y < (target.map fun p => p / target.sum).length := by
    rw [List.length_map]
    exact hy
  rw [residualOf, subtractProposal_getD h _ hmap, List.getD_eq_getElem _ _ hmap, List.getElem_map,
    targetOf, List.getD_eq_getElem _ _ hy, normalizedProposal, ← max_sub_sub_left, sub_self]
  intro p hmem
  obtain ⟨q, hq, rfl⟩ := List.mem_map.mp hmem
  exact div_nonneg (htarget q hq) hp.le

theorem sum_eq_sum_range (l : List ℚ) : l.sum = ∑ y ∈ Finset.range l.length, l.getD y 0 := by
  induction l with
  | nil => rfl
  | cons a l ih =>
      rw [List.length_cons, Finset.sum_range_succ', List.sum_cons, ih, add_comm]
      rfl

theorem sum_targetOf (hp : 0 < target.sum) :
    ∑ y ∈ Finset.range target.length, targetOf target y = 1 := by
  unfold targetOf
  rw [← Finset.sum_div, ← sum_eq_sum_range, div_self hp.ne']

theorem sum_normalizedProposal (h : SparseProposal target.length cs) (hq : 0 < proposalTotal cs) :
    ∑ y ∈ Finset.range target.length, normalizedProposal cs y = 1 := by
  unfold normalizedProposal
  rw [← Finset.sum_div, ← sum_candidates h (f := fun _ w => w) fun _ => rfl]
  exact div_self hq.ne'

variable (target cs) in
/-- The mass that is accepted at a token. -/
def overlap (y : ℕ) : ℚ := min (targetOf target y) (normalizedProposal cs y)

/-- The residual has the mass that is rejected. -/
theorem residualOf_sum (htarget : ∀ p ∈ target, 0 ≤ p) (hp : 0 < target.sum)
    (h : SparseProposal target.length cs) :
    (residualOf target cs).sum = 1 - ∑ y ∈ Finset.range target.length, overlap target cs y := by
  rw [sum_eq_sum_range, residualOf_length, ← sum_targetOf hp, ← Finset.sum_sub_distrib]
  exact Finset.sum_congr rfl fun y hy => residualOf_getD htarget hp h (Finset.mem_range.mp hy)

theorem residualOf_nonneg (htarget : ∀ p ∈ target, 0 ≤ p) (hp : 0 < target.sum)
    (h : SparseProposal target.length cs) : ∀ p ∈ residualOf target cs, 0 ≤ p := by
  intro p hmem
  obtain ⟨y, hy, rfl⟩ := List.getElem_of_mem hmem
  rw [← List.getD_eq_getElem _ 0 hy]
  rw [residualOf_length] at hy
  rw [residualOf_getD htarget hp h hy]
  exact sub_nonneg.mpr (min_le_left _ _)

/-- The part of a proposal that is accepted. -/
theorem proposal_mul_accept {p q : ℚ} (hq : 0 < q) : q * min 1 (p / q) = min p q := by
  rw [mul_min_of_nonneg _ _ hq.le, mul_one, mul_div_cancel₀ _ hq.ne', min_comm]

/-- One term of `produced`. -/
theorem proposal_mul_outcome (htarget : ∀ p ∈ target, 0 ≤ p) (hp : 0 < target.sum)
    (h : SparseProposal target.length cs) (hq : 0 < proposalTotal cs) {x : ℕ}
    (hx : x < target.length) (y : ℕ) :
    proposalOf cs x / proposalTotal cs * outcome target cs x y =
      overlap target cs x * (if x = y then 1 else 0) +
        (normalizedProposal cs x - overlap target cs x) *
          ((residualOf target cs).getD y 0 / (residualOf target cs).sum) := by
  rcases (proposalOf_nonneg h x).eq_or_lt with hzero | hpos
  · -- a token that is never proposed
    have hnone : normalizedProposal cs x = 0 := by
      rw [normalizedProposal, ← hzero, zero_div]
    have htarget₀ : 0 ≤ targetOf target x := by
      rw [targetOf, List.getD_eq_getElem _ _ hx]
      exact div_nonneg (htarget _ (List.getElem_mem hx)) hp.le
    rw [← hzero, zero_div, zero_mul, overlap, hnone, min_eq_right htarget₀]
    ring
  · have hstep := sparseRejectionStep_ok htarget hp h hq hx hpos
    have hn : 0 < normalizedProposal cs x := div_pos hpos hq
    have hcast : ((x : ℤ) = (y : ℤ)) ↔ x = y := Int.natCast_inj
    unfold outcome
    rw [hstep]
    dsimp only
    rw [if_congr hcast rfl rfl, ← normalizedProposal, overlap, ← proposal_mul_accept hn,
      SparseRejectionStep.residualShare]
    show _ = _ * _ + _ * ((subtractProposal _ _ cs).getD y 0 / (subtractProposal _ _ cs).sum)
    ring

/-- What is produced at a token: its overlap, and its part of the residual. -/
theorem produced_eq (htarget : ∀ p ∈ target, 0 ≤ p) (hp : 0 < target.sum)
    (h : SparseProposal target.length cs) (hq : 0 < proposalTotal cs) {y : ℕ}
    (hy : y < target.length) :
    produced target cs y = overlap target cs y + (residualOf target cs).sum *
      ((residualOf target cs).getD y 0 / (residualOf target cs).sum) := by
  have hterms : ∀ x ∈ Finset.range target.length,
      proposalOf cs x / proposalTotal cs * outcome target cs x y =
        overlap target cs x * (if x = y then 1 else 0) +
          (normalizedProposal cs x - overlap target cs x) *
            ((residualOf target cs).getD y 0 / (residualOf target cs).sum) :=
    fun x hx => proposal_mul_outcome htarget hp h hq (Finset.mem_range.mp hx) y
  have hzero : ∀ x : ℤ, 0 / proposalTotal cs * outcome target cs x y = 0 := fun x => by
    rw [zero_div, zero_mul]
  unfold produced
  rw [sum_candidates h (f := fun x w => w / proposalTotal cs * outcome target cs x y) hzero,
    Finset.sum_congr rfl hterms, Finset.sum_add_distrib, ← Finset.sum_mul, Finset.sum_sub_distrib,
    sum_normalizedProposal h hq, ← residualOf_sum htarget hp h]
  congr 1
  rw [Finset.sum_eq_single y]
  · rw [if_pos rfl, mul_one]
  · intro x _ hx
    rw [if_neg hx, mul_zero]
  · intro hmem
    exact absurd (Finset.mem_range.mpr hy) hmem

/-- **The step preserves the target distribution.**  Proposals with a positive
weight are never refused by the checks; each token is produced with its
probability under the target; and after a genuine rejection the residual has
mass, so that the residual draw returns a token with positive residual, each for
an interval of uniforms as long as its share. -/
theorem rejectionSampling (target : List ℚ) (cs : List (ℤ × ℚ)) (htarget : ∀ p ∈ target, 0 ≤ p)
    (hp : 0 < target.sum) (h : SparseProposal target.length cs) (hq : 0 < proposalTotal cs) :
    (∀ y < target.length, produced target cs y = target.getD y 0 / target.sum) ∧
    ∀ c ∈ cs, 0 < c.2 → ∃ r, sparseRejectionStep target cs c.1 = .ok r ∧
      (∀ u, 0 ≤ u → u < 1 → r.accepts u = .ok (decide (u < r.acceptProbability))) ∧
      (r.acceptProbability < 1 → 0 < r.residual.sum ∧
        ∀ u, 0 ≤ u → u < 1 →
          (∃ y < target.length, r.residualToken u = .ok (y : ℤ) ∧ 0 < r.residual.getD y 0) ∧
          ∀ y : ℕ, r.residualToken u = .ok (y : ℤ) ↔
            (r.residual.take y).sum / r.residual.sum ≤ u ∧
              u < (r.residual.take y).sum / r.residual.sum + r.residualShare y) := by
  refine ⟨fun y hy => ?_, fun c hc hpos => ?_⟩
  · rw [produced_eq htarget hp h hq hy]
    by_cases hzero : (residualOf target cs).sum = 0
    · -- no residual at all: the overlap is the whole of the target
      have hnone : (residualOf target cs).getD y 0 = 0 := by
        have hnonneg := residualOf_nonneg htarget hp h
        rw [← residualOf_length target cs] at hy
        rw [List.getD_eq_getElem _ _ hy]
        have hle := List.single_le_sum hnonneg _ (List.getElem_mem hy)
        exact le_antisymm (hzero ▸ hle) (hnonneg _ (List.getElem_mem hy))
      rw [hzero, zero_mul, add_zero]
      rw [residualOf_getD htarget hp h hy] at hnone
      exact (sub_eq_zero.mp hnone).symm
    · rw [mul_div_cancel₀ _ hzero, residualOf_getD htarget hp h hy, overlap]
      exact add_sub_cancel _ _
  · obtain ⟨x, hx⟩ := Int.eq_ofNat_of_zero_le (h.nonneg c hc)
    have hlt : x < target.length := by
      have := h.lt_size c hc
      omega
    have hw : proposalOf cs x = c.2 := by
      rw [← proposalOf_of_mem h hc, hx]
    have hstep := sparseRejectionStep_ok htarget hp h hq hlt (hw ▸ hpos)
    rw [hx]
    refine ⟨_, hstep, fun u h₀ h₁ => SparseRejectionStep.accepts_eq h₀ h₁, fun haccept => ?_⟩
    have hnonneg := residualOf_nonneg htarget hp h
    have hmass : 0 < (residualOf target cs).sum := by
      -- the proposed token has more mass in the proposal than in the target
      have hn : 0 < normalizedProposal cs x := div_pos (hw ▸ hpos) hq
      have hless : targetOf target x < normalizedProposal cs x := by
        rcases min_lt_iff.mp haccept with hone | hratio
        · exact absurd hone (lt_irrefl _)
        · exact (div_lt_one hn).mp hratio
      rw [residualOf_sum htarget hp h, ← sum_normalizedProposal h hq, sub_pos]
      refine Finset.sum_lt_sum (fun y _ => min_le_right _ _) ⟨x, Finset.mem_range.mpr hlt, ?_⟩
      exact (min_le_left _ _).trans_lt hless
    refine ⟨hmass, fun u h₀ h₁ => ⟨?_, fun y => ?_⟩⟩
    · obtain ⟨y, hy, htoken, hpositive⟩ :=
        SparseRejectionStep.residualToken_positive (r := ⟨_, residualOf target cs⟩) hnonneg hmass h₀ h₁
      exact ⟨y, residualOf_length target cs ▸ hy, htoken, hpositive⟩
    · exact SparseRejectionStep.residualToken_eq_iff (r := ⟨_, residualOf target cs⟩)
        hnonneg hmass h₀ h₁ y

/-- A point-mass proposal against two equally likely tokens. -/
theorem rejectionSampling_pointMass :
    produced [1, 1] [(0, 3)] 1 = 1 / 2 ∧
    ∃ r, sparseRejectionStep [1, 1] [(0, 3)] 0 = .ok r ∧ r.residualToken 0 = .ok 1 := by
  have h : SparseProposal 2 [((0 : ℤ), (3 : ℚ))] :=
    ⟨by simp, by simp, by simp, by simp⟩
  have htarget : (0 : ℚ) < List.sum [1, 1] := by norm_num
  have htotal : 0 < proposalTotal [((0 : ℤ), (3 : ℚ))] := by norm_num [proposalTotal]
  obtain ⟨hproduced, hsteps⟩ := rejectionSampling [1, 1] [(0, 3)] (by simp) htarget h htotal
  refine ⟨?_, ?_⟩
  · rw [hproduced 1 (by decide)]
    norm_num
  · obtain ⟨r, hr, -, hresidual⟩ := hsteps (0, 3) (by simp) (by norm_num)
    have hr' := sparseRejectionStep_ok (x := 0) (by simp) htarget h htotal (by decide)
      (by norm_num [proposalOf])
    obtain rfl := Except.ok.inj (hr.symm.trans hr')
    refine ⟨_, hr, ?_⟩
    have haccept : min 1 (targetOf [1, 1] 0 / normalizedProposal [((0 : ℤ), (3 : ℚ))] 0) < 1 := by
      norm_num [targetOf, normalizedProposal, proposalOf, proposalTotal]
    have htoken := ((hresidual haccept).2 0 le_rfl (by norm_num)).2 1
    refine htoken.mpr ?_
    norm_num [subtractProposal, proposalTotal, SparseRejectionStep.residualShare, List.modify]

end Target

end Qw3.Sampling
