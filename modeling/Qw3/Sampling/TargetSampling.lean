import Mathlib.Algebra.BigOperators.Group.List.Basic
import Mathlib.Algebra.BigOperators.Ring.List
import Mathlib.Algebra.Order.BigOperators.Group.List
import Mathlib.Algebra.Order.Field.Rat
import Mathlib.Data.List.GetD
import Mathlib.Data.List.TakeWhile
import Mathlib.Tactic.FieldSimp
import Mathlib.Tactic.Linarith
import Mathlib.Tactic.Positivity
import Mathlib.Tactic.Ring
import Qw3.Lib.PartialSort

/-!
# The target distribution

`target_sampling.hpp` in exact arithmetic, with any increasing positive function in
the place of `exp`: the softmax of the logits, truncated and renormalised, from a
sorted window instead of the sorted vocabulary.

* `samplingDistribution` — the source's function, with its widening loop.
* `fullSortDistribution` — what it is for: sort all, filter, renormalise.
* `samplingDistribution_eq` — **they are the same distribution**.

A token is its index; `int` holds the size of the vocabulary.
-/

namespace Qw3.Sampling

/-- What stands for `exp`. -/
structure Weight (K : Type*) [Field K] [LinearOrder K] where
  exp : K → K
  strictMono : StrictMono exp
  pos : ∀ x, 0 < exp x

/-- `SamplingFilterOrder`. -/
inductive SamplingFilterOrder
  | joint
  | topKFirst
  deriving DecidableEq, Repr

/-- The arguments of `sampling_distribution` beside the logits. -/
structure Truncation (K : Type*) where
  temp : K
  topP : K
  topK : ℤ
  minP : K
  filterOrder : SamplingFilterOrder

variable {K : Type*} [Field K] [LinearOrder K]

/-- The logit of a token. -/
def logit (logits : List K) (i : ℕ) : K := logits.getD i 0

/-- `maxv`. -/
def maxv (logits : List K) : K :=
  logits.tail.foldl (fun best l => if l > best then l else best) (logit logits 0)

namespace Truncation

variable (t : Truncation K)

/-- `inv_t`. -/
def invT : K := 1 / (if 0 < t.temp then t.temp else 1)

/-- `std::exp((logits[i] - maxv) * inv_t)`. -/
def mass (e : Weight K) (logits : List K) (i : ℕ) : K :=
  e.exp ((logit logits i - maxv logits) * t.invT)

/-- `cap`. -/
def cap (n : ℕ) : ℕ := if 0 < t.topK ∧ t.topK.toNat < n then t.topK.toNat else n

/-- `normalize_top_k`. -/
def normalizeTopK (n : ℕ) : Bool := t.filterOrder = .topKFirst ∧ t.cap n < n

/-- `need_sort`. -/
def needSort (n : ℕ) : Bool :=
  (0 < t.topK ∧ t.topK < n) ∨ (t.topP < 1 ∧ 0 < t.topP) ∨ 0 < t.minP

/-! ## The filters, on a sorted window -/

/-- The `top_k` line: how many of `keep` tokens stay. -/
def topKKeep (keep : ℕ) : ℕ := if 0 < t.topK ∧ t.topK.toNat < keep then t.topK.toNat else keep

/-- The `min_p` block. -/
def minPKeep (probOf : ℕ → K) (idx : List ℕ) (keep : ℕ) : ℕ :=
  if 0 < t.minP ∧ 0 < keep then
    let cutoff := probOf (idx.getD 0 0) * t.minP
    ((idx.take keep).takeWhile fun i => probOf i ≥ cutoff).length
  else keep

/-- The loop of the `top_p` block, at index `i`. -/
def topPLoop (probOf : ℕ → K) (keep : ℕ) : List ℕ → K → ℕ → ℕ
  | [], _, _ => keep
  | a :: rest, cum, i =>
      if cum + probOf a ≥ t.topP then i + 1 else topPLoop probOf keep rest (cum + probOf a) (i + 1)

/-- The tokens tied with the last one kept. -/
def tieLoop (probOf : ℕ → K) (idx : List ℕ) (keep k : ℕ) : ℕ :=
  if t.filterOrder = .topKFirst ∧ 0 < k then
    let cutoff := probOf (idx.getD (k - 1) 0)
    k + (((idx.take keep).drop k).takeWhile fun i => probOf i = cutoff).length
  else k

/-- The `top_p` block. -/
def topPKeep (probOf : ℕ → K) (idx : List ℕ) (keep : ℕ) : ℕ :=
  if t.topP < 1 ∧ 0 < t.topP then
    t.tieLoop probOf idx keep (t.topPLoop probOf keep (idx.take keep) 0 0)
  else keep

/-- What the body of the loop computes for a window of `size` tokens. -/
def windowKeep (probOf : ℕ → K) (idx : List ℕ) (size : ℕ) : ℕ :=
  t.topPKeep probOf idx (t.minPKeep probOf idx (t.topKKeep size))

/-- The loop, for at most `fuel` rounds: the partly sorted tokens and how many of
them stay. -/
def widen {key : ℕ → K} (nth : NthElement key) (probOf : ℕ → K) (cap : ℕ) :
    ℕ → List ℕ → ℕ → Option (List ℕ × ℕ)
  | 0, _, _ => none
  | fuel + 1, idx, size =>
      let size := if size > cap then cap else size
      let idx := if size < idx.length then nth.run size idx else idx
      let idx := sortDesc key (idx.take size) ++ idx.drop size
      let keep := t.windowKeep probOf idx size
      if keep < size ∨ size ≥ cap then some (idx, keep)
      else widen nth probOf cap fuel idx (min cap (size * 2))

/-- The vector that comes out. -/
def emit (probOf : ℕ → K) (n : ℕ) (idx : List ℕ) (keep : ℕ) : List K :=
  let keptSum := ((idx.take keep).map probOf).foldl (· + ·) 0
  if keptSum ≤ 0 then (List.replicate n 0).set (idx.getD 0 0) 1
  else (idx.take keep).foldl (fun out i => out.set i (probOf i * (1 / keptSum))) (List.replicate n 0)

/-- `sampling_distribution`. -/
def samplingDistribution (e : Weight K) (logits : List K) (nth : NthElement (logit logits))
    (fuel : ℕ) : Option (List K) :=
  let n := logits.length
  if n = 0 then some []
  else
    let all := List.range n
    let cap := t.cap n
    let idx := if t.normalizeTopK n then (nth.run cap all).take cap else []
    let sum := ((if t.normalizeTopK n then idx else all).map (t.mass e logits)).foldl (· + ·) 0
    let norm := 1 / (if 0 < sum then sum else 1)
    let probOf := fun i => t.mass e logits i * norm
    if ¬ t.needSort n then some (all.map probOf)
    else
      let idx := if idx = [] then all else idx
      let size := min cap 128
      let size := if size = 0 then min cap 1 else size
      (t.widen nth probOf cap fuel idx size).map fun (idx, keep) => emit probOf n idx keep

/-! ## The whole vocabulary sorted -/

/-- The first `top_k` tokens. -/
def topKFilter (order : List ℕ) : List ℕ := if 0 < t.topK then order.take t.topK.toNat else order

/-- The tokens at least `min_p` times as likely as the first. -/
def minPFilter (p : ℕ → K) (order : List ℕ) : List ℕ :=
  if 0 < t.minP then
    match order with
    | [] => []
    | first :: rest => (first :: rest).takeWhile fun i => decide (p first * t.minP ≤ p i)
  else order

/-- The shortest front whose probabilities add up to `total`, if there is one. -/
def nucleus (p : ℕ → K) : K → List ℕ → List ℕ
  | _, [] => []
  | total, a :: rest => a :: if total ≤ p a then [] else nucleus p (total - p a) rest

/-- The nucleus of `top_p`. -/
def topPFilter (p : ℕ → K) (order : List ℕ) : List ℕ :=
  if t.topP < 1 ∧ 0 < t.topP then nucleus p t.topP order else order

/-- The tokens, the most likely first. -/
def vocabulary (logits : List K) : List ℕ := sortDesc (logit logits) (List.range logits.length)

/-- What the probabilities that the filters see are shares of. -/
def fullMass (e : Weight K) (logits : List K) : K :=
  match t.filterOrder with
  | .joint => ((vocabulary logits).map (t.mass e logits)).sum
  | .topKFirst => ((t.topKFilter (vocabulary logits)).map (t.mass e logits)).sum

/-- The probability of a token before the truncation. -/
def share (e : Weight K) (logits : List K) (i : ℕ) : K := t.mass e logits i / t.fullMass e logits

/-- The tokens that stay. -/
def kept (e : Weight K) (logits : List K) : List ℕ :=
  t.topPFilter (t.share e logits)
    (t.minPFilter (t.share e logits) (t.topKFilter (vocabulary logits)))

/-- Sort the whole vocabulary, filter, and renormalise over what stays; where
nothing stays, the most likely token gets all. -/
def fullSortDistribution (e : Weight K) (logits : List K) : List K :=
  let kept := t.kept e logits
  (List.range logits.length).map fun i =>
    if kept = [] then (if (vocabulary logits).head? = some i then 1 else 0)
    else if i ∈ kept then t.share e logits i / (kept.map (t.share e logits)).sum
    else 0

/-! ## The sorted vocabulary -/

theorem perm_vocabulary (logits : List K) :
    (vocabulary logits).Perm (List.range logits.length) := perm_sortDesc _ _

@[simp] theorem length_vocabulary (logits : List K) :
    (vocabulary logits).length = logits.length := by
  rw [(perm_vocabulary logits).length_eq, List.length_range]

omit [LinearOrder K] in
theorem map_logit_range (logits : List K) : (List.range logits.length).map (logit logits) = logits := by
  apply List.ext_getElem
  · simp
  · intro i hi hi'
    simp [logit, hi']

theorem strict_vocabulary {logits : List K} (h : logits.Nodup) :
    (vocabulary logits).Pairwise fun a b => logit logits b < logit logits a := by
  apply strict_sortDesc
  rw [map_logit_range]
  exact h

/-! ## The filters keep a front -/

variable {t : Truncation K} {e : Weight K} {logits : List K} {p : ℕ → K} {idx m : List ℕ}
  {keep size : ℕ}

omit [Field K] [LinearOrder K] in
theorem frontFilter_topK (t : Truncation K) : FrontFilter t.topKFilter := by
  unfold topKFilter
  split_ifs
  · exact .limit _
  · exact .id

theorem frontFilter_minP (t : Truncation K) (p : ℕ → K) : FrontFilter (t.minPFilter p) := by
  unfold minPFilter
  split_ifs
  · have h := FrontFilter.against fun first i => decide (p first * t.minP ≤ p i)
    convert h using 2 with order
    cases order <;> rfl
  · exact .id

theorem nucleus_take (p : ℕ → K) (total : K) (l : List ℕ) (k : ℕ) :
    nucleus p total (l.take k) = (nucleus p total l).take k := by
  induction l generalizing total k with
  | nil => simp [nucleus]
  | cons a rest ih =>
      cases k with
      | zero => simp [nucleus]
      | succ k =>
          simp only [List.take_succ_cons, nucleus]
          split_ifs
          · simp
          · rw [ih]

theorem nucleus_front (p : ℕ → K) (total : K) (l : List ℕ) : nucleus p total l <+: l := by
  induction l generalizing total with
  | nil => exact List.prefix_rfl
  | cons a rest ih =>
      unfold nucleus
      apply List.cons_prefix_cons.mpr
      refine ⟨rfl, ?_⟩
      split_ifs
      · exact List.nil_prefix
      · exact ih _

theorem frontFilter_topP (t : Truncation K) (p : ℕ → K) : FrontFilter (t.topPFilter p) := by
  unfold topPFilter
  split_ifs
  · exact ⟨fun k l => nucleus_take p _ l k, nucleus_front p _⟩
  · exact .id

/-- All filters, one after the other. -/
def front (t : Truncation K) (p : ℕ → K) (order : List ℕ) : List ℕ :=
  t.topPFilter p (t.minPFilter p (t.topKFilter order))

theorem frontFilter_front (t : Truncation K) (p : ℕ → K) : FrontFilter (t.front p) :=
  (t.frontFilter_topP p).comp ((t.frontFilter_minP p).comp t.frontFilter_topK)

/-! ## The loop body computes the filters -/

omit [Field K] [LinearOrder K] in
theorem topKKeep_le (t : Truncation K) (size : ℕ) : t.topKKeep size ≤ size := by
  unfold topKKeep
  split_ifs with h
  · exact h.2.le
  · exact le_rfl

omit [Field K] [LinearOrder K] in
theorem take_topKKeep (t : Truncation K) (idx : List ℕ) (size : ℕ) :
    idx.take (t.topKKeep size) = t.topKFilter (idx.take size) := by
  unfold topKKeep topKFilter
  by_cases hpos : 0 < t.topK
  · rw [if_pos hpos, List.take_take]
    split_ifs with h
    · rw [Nat.min_eq_left h.2.le]
    · rw [Nat.min_eq_right (by omega)]
  · rw [if_neg hpos, if_neg fun h => hpos h.1]

omit [Field K] [LinearOrder K] in
theorem cap_le (t : Truncation K) (n : ℕ) : t.cap n ≤ n := by
  unfold cap
  split_ifs with h
  · exact h.2.le
  · exact le_rfl

omit [Field K] [LinearOrder K] in
theorem cap_pos (t : Truncation K) {n : ℕ} (hn : 0 < n) : 0 < t.cap n := by
  unfold cap
  split_ifs with h
  · omega
  · exact hn

omit [Field K] [LinearOrder K] in
theorem topKFilter_eq (t : Truncation K) (order : List ℕ) :
    t.topKFilter order = order.take (t.cap order.length) := by
  unfold topKFilter cap
  by_cases hpos : 0 < t.topK
  · rw [if_pos hpos]
    split_ifs with h
    · rfl
    · rw [List.take_of_length_le (by omega), List.take_length]
  · rw [if_neg hpos, if_neg fun h => hpos h.1, List.take_length]

/-- What is kept of a front is given by its length. -/
theorem take_length_of_prefix {l kept : List ℕ} (h : kept <+: l.take keep) :
    l.take kept.length = kept ∧ kept.length ≤ keep := by
  have hlen := h.length_le
  rw [List.length_take] at hlen
  refine ⟨(List.prefix_iff_eq_take.mp (h.trans (List.take_prefix keep l))).symm, ?_⟩
  omega

theorem take_minPKeep (t : Truncation K) (p : ℕ → K) (hkeep : keep ≤ idx.length) :
    idx.take (t.minPKeep p idx keep) = t.minPFilter p (idx.take keep) ∧
      t.minPKeep p idx keep ≤ keep := by
  unfold minPKeep minPFilter
  by_cases hpos : 0 < t.minP
  · cases keep with
    | zero => simp
    | succ keep =>
        cases idx with
        | nil => simp at hkeep
        | cons a rest =>
            rw [if_pos ⟨hpos, Nat.succ_pos _⟩, if_pos hpos]
            exact take_length_of_prefix (List.takeWhile_prefix _)
  · rw [if_neg hpos, if_neg fun h => hpos h.1]
    exact ⟨rfl, le_rfl⟩

variable [IsStrictOrderedRing K]

/-- The loop counts the tokens of the nucleus. -/
theorem topPLoop_eq (t : Truncation K) (p : ℕ → K) (l : List ℕ) (cum : K) (i : ℕ) :
    t.topPLoop p (i + l.length) l cum i = i + (nucleus p (t.topP - cum) l).length := by
  induction l generalizing cum i with
  | nil => rfl
  | cons a rest ih =>
      unfold topPLoop nucleus
      by_cases h : t.topP ≤ cum + p a
      · rw [if_pos h, if_pos (by linarith)]
        rfl
      · have hlen : i + (a :: rest).length = i + 1 + rest.length := by
          rw [List.length_cons]
          omega
        rw [if_neg h, if_neg (by linarith), hlen, ih, List.length_cons,
          show t.topP - (cum + p a) = t.topP - cum - p a by ring]
        omega

omit [Field K] [IsStrictOrderedRing K] in
/-- No token is tied with the one before it. -/
theorem tieLoop_eq (t : Truncation K) {k : ℕ} (hkeep : keep ≤ idx.length) (hk : k ≤ keep)
    (hsorted : (idx.take keep).Pairwise fun a b => p b < p a) : t.tieLoop p idx keep k = k := by
  unfold tieLoop
  split_ifs with h
  · have hcross := hsorted
    rw [← List.take_append_drop k (idx.take keep), List.pairwise_append] at hcross
    have hlast : idx.getD (k - 1) 0 ∈ (idx.take keep).take k := by
      rw [List.take_take, Nat.min_eq_left hk, List.getD_eq_getElem _ _ (by omega)]
      apply List.mem_take_iff_getElem.mpr
      exact ⟨k - 1, by omega, rfl⟩
    cases hrest : (idx.take keep).drop k with
    | nil => rfl
    | cons b rest =>
        have hlt := hcross.2.2 _ hlast b (by rw [hrest]; exact List.mem_cons_self)
        dsimp only
        rw [List.takeWhile_cons_of_neg (by simpa using hlt.ne)]
        rfl
  · rfl

theorem take_topPKeep (t : Truncation K) (hkeep : keep ≤ idx.length)
    (hsorted : (idx.take keep).Pairwise fun a b => p b < p a) :
    idx.take (t.topPKeep p idx keep) = t.topPFilter p (idx.take keep) ∧
      t.topPKeep p idx keep ≤ keep := by
  unfold topPKeep topPFilter
  split_ifs with h
  · have hloop := t.topPLoop_eq p (idx.take keep) 0 0
    rw [List.length_take, Nat.min_eq_left hkeep, zero_add, zero_add, sub_zero] at hloop
    have hnucleus := take_length_of_prefix (nucleus_front p t.topP (idx.take keep))
    rw [hloop, t.tieLoop_eq hkeep hnucleus.2 hsorted]
    exact hnucleus
  · exact ⟨rfl, le_rfl⟩

theorem take_windowKeep (t : Truncation K) (hsize : size ≤ idx.length)
    (hsorted : (idx.take size).Pairwise fun a b => p b < p a) :
    idx.take (t.windowKeep p idx size) = t.front p (idx.take size) ∧
      t.windowKeep p idx size ≤ size := by
  have htopK := t.topKKeep_le size
  obtain ⟨hminP, hminP_le⟩ := t.take_minPKeep p (htopK.trans hsize)
  have hle : t.minPKeep p idx (t.topKKeep size) ≤ size := hminP_le.trans htopK
  have hsorted' : (idx.take (t.minPKeep p idx (t.topKKeep size))).Pairwise fun a b => p b < p a := by
    rw [← Nat.min_eq_left hle, ← List.take_take]
    exact hsorted.sublist (List.take_sublist _ _)
  obtain ⟨htopP, htopP_le⟩ := t.take_topPKeep (hle.trans hsize) hsorted'
  unfold windowKeep front
  rw [htopP, hminP, take_topKKeep]
  exact ⟨rfl, htopP_le.trans hle⟩

/-! ## Weights and probabilities -/

theorem invT_pos (t : Truncation K) : 0 < t.invT := by
  unfold invT
  split_ifs with htemp
  · positivity
  · positivity

omit [IsStrictOrderedRing K] in
theorem mass_pos (i : ℕ) : 0 < t.mass e logits i := e.pos _

/-- A greater logit weighs more. -/
theorem mass_lt {i j : ℕ} (h : logit logits i < logit logits j) :
    t.mass e logits i < t.mass e logits j := by
  apply e.strictMono
  apply mul_lt_mul_of_pos_right _ t.invT_pos
  exact sub_lt_sub_right h _

theorem sum_mass_pos {l : List ℕ} (h : l ≠ []) : 0 < (l.map (t.mass e logits)).sum := by
  apply List.sum_pos
  · intro x hx
    obtain ⟨i, -, rfl⟩ := List.mem_map.mp hx
    exact mass_pos i
  · simpa using h

/-! ## The loop -/

omit [IsStrictOrderedRing K] in
/-- A sorted window: its first `size` tokens are the first of `m`. -/
theorem sorted_window (nth : NthElement (logit logits))
    (hm : m.Pairwise fun a b => logit logits b < logit logits a) (hperm : idx.Perm m)
    (hsize : size ≤ m.length) :
    let chosen := if size < idx.length then nth.run size idx else idx
    (sortDesc (logit logits) (chosen.take size) ++ chosen.drop size).Perm m ∧
      (sortDesc (logit logits) (chosen.take size) ++ chosen.drop size).take size = m.take size := by
  intro chosen
  have hchosen : chosen.Perm m ∧ sortDesc (logit logits) (chosen.take size) = m.take size := by
    dsimp only [chosen]
    split_ifs with hlt
    · exact ⟨(nth.perm size idx).trans hperm, sortDesc_take nth hm hperm size⟩
    · have hlen : m.length ≤ size := hperm.length_eq ▸ not_lt.mp hlt
      refine ⟨hperm, ?_⟩
      rw [List.take_of_length_le (not_lt.mp hlt), List.take_of_length_le hlen]
      exact eq_of_sorted hm (pairwise_sortDesc _ _) ((perm_sortDesc _ _).trans hperm)
  constructor
  · refine ((perm_sortDesc _ _).append_right _).trans ?_
    rw [List.take_append_drop]
    exact hchosen.1
  · rw [hchosen.2, List.take_left' (by rw [List.length_take, Nat.min_eq_left hsize])]

/-- The loop ends with the front that the filters keep of the first `cap` tokens. -/
theorem widen_spec (t : Truncation K) {nth : NthElement (logit logits)} {cap fuel : ℕ}
    (hm : m.Pairwise fun a b => logit logits b < logit logits a)
    (hp : m.Pairwise fun a b => p b < p a) (hcap : cap ≤ m.length) (hperm : idx.Perm m)
    (hpos : 0 < size) (hsize : size ≤ cap) (hfuel : cap < fuel + size) :
    ∃ idx' keep, t.widen nth p cap fuel idx size = some (idx', keep) ∧
      idx'.take keep = t.front p (m.take cap) ∧ idx'.getD 0 0 = m.getD 0 0 := by
  induction fuel generalizing idx size with
  | zero => omega
  | succ fuel ih =>
      unfold widen
      rw [if_neg (not_lt.mpr hsize)]
      obtain ⟨hperm', hwindow⟩ := sorted_window nth hm hperm (hsize.trans hcap)
      dsimp only
      generalize hnext : sortDesc (logit logits)
        ((if size < idx.length then nth.run size idx else idx).take size) ++
          (if size < idx.length then nth.run size idx else idx).drop size = next at *
      have hle : size ≤ next.length := hperm'.length_eq ▸ hsize.trans hcap
      have hsorted : (next.take size).Pairwise fun a b => p b < p a := by
        rw [hwindow]
        exact hp.sublist (List.take_sublist _ _)
      obtain ⟨hkeep, hkeep_le⟩ := t.take_windowKeep hle hsorted
      have hlen : (t.front p (m.take size)).length = t.windowKeep p next size := by
        rw [← hwindow, ← hkeep, List.length_take]
        omega
      split_ifs with hexit
      · refine ⟨next, _, rfl, ?_, ?_⟩
        · rw [hkeep, hwindow]
          rcases hexit with hlt | hge
          · -- fewer tokens stay than the window holds, so a wider one keeps the same
            have hcut : m.take size = (m.take cap).take size := by
              rw [List.take_take, Nat.min_eq_left hsize]
            rw [hcut]
            apply (t.frontFilter_front p).eq_of_length_lt
            rw [← hcut, hlen]
            exact hlt
          · rw [le_antisymm hsize hge]
        · have hget := congrArg (fun l => l.getD 0 0) hwindow
          simpa [List.getD_eq_getElem?_getD, List.getElem?_take, hpos] using hget
      · refine ih hperm' ?_ (Nat.min_le_left _ _) ?_
        · omega
        · omega

/-! ## The vector -/

omit [Field K] [LinearOrder K] [IsStrictOrderedRing K] in
/-- Writing the entries of a list into a vector. -/
theorem getElem?_foldl_set (f : ℕ → K) (l : List ℕ) (out : List K) (j : ℕ) :
    (l.foldl (fun out i => out.set i (f i)) out)[j]? =
      if j ∈ l ∧ j < out.length then some (f j) else out[j]? := by
  induction l generalizing out with
  | nil => simp
  | cons a rest ih =>
      rw [List.foldl_cons, ih, List.length_set, List.getElem?_set]
      by_cases ha : a = j
      · subst ha
        by_cases hlt : a < out.length <;> simp [hlt]
      · simp [ha, Ne.symm ha]

theorem sum_map_pos {l : List ℕ} (hpos : ∀ i, 0 < p i) (h : l ≠ []) : 0 < (l.map p).sum := by
  apply List.sum_pos
  · intro x hx
    obtain ⟨i, -, rfl⟩ := List.mem_map.mp hx
    exact hpos i
  · simpa using h

/-- The vector that comes out, entry by entry. -/
theorem emit_eq (hpos : ∀ i, 0 < p i) (n : ℕ) (idx : List ℕ) (keep : ℕ) :
    emit p n idx keep = (List.range n).map fun i =>
      if idx.take keep = [] then (if idx.getD 0 0 = i then 1 else 0)
      else if i ∈ idx.take keep then p i / ((idx.take keep).map p).sum
      else 0 := by
  unfold emit
  rw [← List.sum_eq_foldl]
  generalize idx.take keep = kept
  dsimp only
  by_cases hnil : kept = []
  · subst hnil
    rw [if_pos (by simp)]
    apply List.ext_getElem?
    intro j
    generalize idx.getD 0 0 = first
    rw [List.getElem?_set, List.getElem?_map, List.getElem?_replicate]
    by_cases hfirst : first = j
    · subst hfirst
      by_cases hj : first < n <;> simp [hj]
    · by_cases hj : j < n <;> simp [hj, hfirst]
  · rw [if_neg (not_le.mpr (sum_map_pos hpos hnil))]
    apply List.ext_getElem?
    intro j
    rw [getElem?_foldl_set, List.length_replicate, List.getElem?_map, List.getElem?_replicate]
    by_cases hj : j < n
    · by_cases hkept : j ∈ kept <;> simp [hj, hkept, hnil, div_eq_mul_inv]
    · simp [hj]

/-! ## The two distributions -/

omit [IsStrictOrderedRing K] in
/-- `top_k` filters nothing from what it has filtered. -/
theorem front_take_cap (t : Truncation K) (p : ℕ → K) (order : List ℕ) :
    t.front p (order.take (t.cap order.length)) = t.front p order := by
  have htwice : t.topKFilter (t.topKFilter order) = t.topKFilter order := by
    unfold topKFilter
    split_ifs
    · rw [List.take_take, Nat.min_self]
    · rfl
  unfold front
  rw [← topKFilter_eq, htwice]

omit [IsStrictOrderedRing K] in
/-- The two ways to sum the weights. -/
theorem sum_eq_fullMass (t : Truncation K) (e : Weight K) (h : logits.Nodup)
    (nth : NthElement (logit logits)) :
    ((if t.normalizeTopK logits.length then
        (nth.run (t.cap logits.length) (List.range logits.length)).take (t.cap logits.length)
      else List.range logits.length).map (t.mass e logits)).sum = t.fullMass e logits := by
  have hall : ((List.range logits.length).map (t.mass e logits)).sum =
      ((vocabulary logits).map (t.mass e logits)).sum :=
    (((perm_vocabulary logits).map _).sum_eq).symm
  unfold fullMass
  rw [topKFilter_eq, length_vocabulary]
  split_ifs with hnormalize
  · simp only [normalizeTopK, decide_eq_true_eq] at hnormalize
    rw [hnormalize.1]
    dsimp only
    rw [← sortDesc_take nth (strict_vocabulary h) (perm_vocabulary logits).symm]
    exact (((perm_sortDesc _ _).map _).sum_eq).symm
  · simp only [normalizeTopK, decide_eq_true_eq, not_and, not_lt] at hnormalize
    rw [hall]
    cases horder : t.filterOrder with
    | joint => rfl
    | topKFirst =>
        dsimp only
        rw [List.take_of_length_le]
        rw [length_vocabulary]
        exact hnormalize horder

theorem fullMass_pos (t : Truncation K) (e : Weight K) (hn : 0 < logits.length) :
    0 < t.fullMass e logits := by
  have hne : vocabulary logits ≠ [] := by
    rw [← List.length_pos_iff, length_vocabulary]
    exact hn
  unfold fullMass
  split
  · exact sum_mass_pos hne
  · apply sum_mass_pos
    rw [topKFilter_eq, ← List.length_pos_iff, List.length_take, length_vocabulary]
    exact lt_min (t.cap_pos hn) hn

omit [IsStrictOrderedRing K] in
/-- Without an active filter every token stays. -/
theorem filters_of_not_needSort (t : Truncation K) (h : t.needSort logits.length = false)
    (p : ℕ → K) : t.topKFilter (vocabulary logits) = vocabulary logits ∧
      t.front p (vocabulary logits) = vocabulary logits := by
  simp only [needSort, decide_eq_false_iff_not, not_or] at h
  obtain ⟨htopK, htopP, hminP⟩ := h
  have hcap : t.topKFilter (vocabulary logits) = vocabulary logits := by
    rw [topKFilter_eq, length_vocabulary]
    apply List.take_of_length_le
    rw [length_vocabulary]
    unfold cap
    split_ifs with hcut
    · exact absurd ⟨hcut.1, by omega⟩ htopK
    · exact le_rfl
  refine ⟨hcap, ?_⟩
  unfold front topPFilter minPFilter
  rw [if_neg htopP, if_neg hminP, hcap]

/-- Without an active filter the softmax is already the result. -/
theorem fullSort_of_not_needSort (t : Truncation K) (e : Weight K) (hn : 0 < logits.length)
    (h : t.needSort logits.length = false) :
    t.fullSortDistribution e logits = (List.range logits.length).map (t.share e logits) := by
  obtain ⟨htopK, hfront⟩ := t.filters_of_not_needSort h (t.share e logits)
  have hkept : t.kept e logits = vocabulary logits := hfront
  have hmass : t.fullMass e logits = ((vocabulary logits).map (t.mass e logits)).sum := by
    unfold fullMass
    rw [htopK]
    split <;> rfl
  have hone : ((vocabulary logits).map (t.share e logits)).sum = 1 := by
    unfold share
    simp only [div_eq_mul_inv]
    rw [List.sum_map_mul_right, ← hmass]
    exact mul_inv_cancel₀ (t.fullMass_pos e hn).ne'
  have hne : vocabulary logits ≠ [] := by
    rw [← List.length_pos_iff, length_vocabulary]
    exact hn
  unfold fullSortDistribution
  dsimp only
  rw [hkept, hone]
  apply List.map_congr_left
  intro i hi
  rw [if_neg hne, if_pos ((perm_vocabulary logits).mem_iff.mpr hi), div_one]

omit [IsStrictOrderedRing K] in
/-- What the loop begins with: tokens that hold the first `cap` of the vocabulary. -/
theorem start_spec (t : Truncation K) (h : logits.Nodup) (hn : 0 < logits.length)
    (nth : NthElement (logit logits)) :
    let n := logits.length
    let idx := if t.normalizeTopK n then (nth.run (t.cap n) (List.range n)).take (t.cap n) else []
    let start := if idx = [] then List.range n else idx
    ∃ c, t.cap n ≤ c ∧ start.Perm ((vocabulary logits).take c) := by
  intro n idx start
  by_cases hnormalize : t.normalizeTopK n = true
  · have hidx : idx = (nth.run (t.cap n) (List.range n)).take (t.cap n) := if_pos hnormalize
    have hperm : idx.Perm ((vocabulary logits).take (t.cap n)) := by
      rw [hidx, ← sortDesc_take nth (strict_vocabulary h) (perm_vocabulary logits).symm]
      exact (perm_sortDesc _ _).symm
    have hne : idx ≠ [] := by
      rw [← List.length_pos_iff, hperm.length_eq, List.length_take, length_vocabulary]
      exact lt_min (t.cap_pos hn) hn
    refine ⟨t.cap n, le_rfl, ?_⟩
    dsimp only [start]
    rw [if_neg hne]
    exact hperm
  · have hidx : idx = [] := if_neg hnormalize
    refine ⟨n, t.cap_le n, ?_⟩
    dsimp only [start]
    rw [if_pos hidx, List.take_of_length_le (by rw [length_vocabulary])]
    exact (perm_vocabulary logits).symm

/-- **The window gives the distribution of the whole vocabulary sorted.** -/
theorem samplingDistribution_eq (t : Truncation K) (e : Weight K) (logits : List K)
    (nth : NthElement (logit logits)) (hdistinct : logits.Nodup) :
    ∃ rounds, ∀ fuel ≥ rounds,
      t.samplingDistribution e logits nth fuel = some (t.fullSortDistribution e logits) := by
  refine ⟨logits.length, fun fuel hfuel => ?_⟩
  rcases Nat.eq_zero_or_pos logits.length with hn | hn
  · unfold samplingDistribution fullSortDistribution
    rw [if_pos hn, hn]
    rfl
  have hfull := t.fullMass_pos e hn
  have hnorm : (fun i => t.mass e logits i * (1 / if 0 < t.fullMass e logits
      then t.fullMass e logits else 1)) = t.share e logits := by
    funext i
    rw [if_pos hfull]
    exact mul_one_div _ _
  have hsum := t.sum_eq_fullMass e hdistinct nth
  have hbranch : ∀ l : List ℕ, (if t.normalizeTopK logits.length then
      (if t.normalizeTopK logits.length then l else []) else List.range logits.length) =
        if t.normalizeTopK logits.length then l else List.range logits.length := by
    intro l
    split_ifs <;> rfl
  unfold samplingDistribution
  rw [if_neg hn.ne']
  dsimp only
  rw [hbranch, ← List.sum_eq_foldl, hsum, hnorm]
  cases hsort : t.needSort logits.length with
  | false =>
      rw [if_pos (by decide), t.fullSort_of_not_needSort e hn hsort]
  | true =>
      rw [if_neg (by decide)]
      have hshare : ∀ i, 0 < t.share e logits i := fun i => div_pos (mass_pos i) hfull
      have hstrict := strict_vocabulary hdistinct
      have hlikely : (vocabulary logits).Pairwise fun a b =>
          t.share e logits b < t.share e logits a :=
        hstrict.imp fun h => div_lt_div_of_pos_right (mass_lt h) hfull
      obtain ⟨c, hc, hperm⟩ := t.start_spec hdistinct hn nth
      have hcap := t.cap_pos hn
      have hcap_le := t.cap_le logits.length
      have hlen : t.cap logits.length ≤ ((vocabulary logits).take c).length := by
        rw [List.length_take, length_vocabulary]
        exact le_min hc hcap_le
      have hsize : (if min (t.cap logits.length) 128 = 0 then min (t.cap logits.length) 1
          else min (t.cap logits.length) 128) = min (t.cap logits.length) 128 := by
        rw [if_neg]
        omega
      rw [hsize]
      obtain ⟨idx, keep, hwiden, hkeep, hfirst⟩ := t.widen_spec (p := t.share e logits)
        (hstrict.sublist (List.take_sublist c _)) (hlikely.sublist (List.take_sublist c _)) hlen
        hperm (by omega) (min_le_left (t.cap logits.length) 128)
        (show t.cap logits.length < fuel + min (t.cap logits.length) 128 by omega)
      have hkept : idx.take keep = t.kept e logits := by
        rw [hkeep, List.take_take, Nat.min_eq_left hc, ← length_vocabulary logits, front_take_cap]
        rfl
      rw [hwiden, Option.map_some, emit_eq hshare, hkept]
      unfold fullSortDistribution
      congr 1
      apply List.map_congr_left
      intro i _
      have hhead : (idx.getD 0 0 = i) = ((vocabulary logits).head? = some i) := by
        rw [hfirst]
        cases hvoc : vocabulary logits with
        | nil =>
            have := length_vocabulary logits
            rw [hvoc] at this
            exact absurd hn (by simp [← this])
        | cons a rest =>
            cases c with
            | zero => omega
            | succ c => simp
      simp only [hhead]

/-- A positive increasing function: `1 + x` above zero, `1 / (1 - x)` below. -/
def hyperbola : Weight ℚ where
  exp x := if 0 ≤ x then 1 + x else 1 / (1 - x)
  strictMono := by
    intro x y hxy
    dsimp only
    split_ifs with hx hy hy
    · linarith
    · linarith
    · have hlt : 1 / (1 - x) < 1 := by
        rw [div_lt_one (by linarith)]
        linarith
      linarith
    · exact one_div_lt_one_div_of_lt (by linarith) (by linarith)
  pos x := by
    split_ifs with hx
    · linarith
    · exact one_div_pos.mpr (by linarith)

/-- One token more than the first window has, all of them about as likely. -/
def manyLogits : List ℚ := (List.range 129).map fun i : ℕ => 1 - (i : ℚ) / 128

/-- The cut-off of `min_p` is below all of them. -/
def lowMinP : Truncation ℚ := ⟨1, 1, 0, 1 / 1000, .joint⟩

theorem maxv_of_le {l : ℚ} {rest : List ℚ} (h : ∀ x ∈ rest, x ≤ l) : maxv (l :: rest) = l := by
  change rest.foldl (fun best x => if x > best then x else best) l = l
  induction rest with
  | nil => rfl
  | cons x rest ih =>
      obtain ⟨hx, hrest⟩ := List.forall_mem_cons.mp h
      rw [List.foldl_cons, if_neg (not_lt.mpr hx)]
      exact ih hrest

theorem nodup_manyLogits : manyLogits.Nodup := by
  refine List.nodup_range.map fun i j hij => ?_
  have hcast : (i : ℚ) = j := by linarith [hij]
  exact_mod_cast hcast

/-- A window of 128 tokens is not enough for them. -/
theorem kept_manyLogits : (lowMinP.kept hyperbola manyLogits).length = 129 := by
  have hmax : maxv manyLogits = 1 := by
    unfold manyLogits
    rw [List.range_succ_eq_map, List.map_cons, maxv_of_le]
    · norm_num
    · intro x hx
      obtain ⟨i, -, rfl⟩ := List.mem_map.mp hx
      have hnonneg : (0 : ℚ) ≤ i / 128 := by positivity
      norm_num
      exact hnonneg
  have hlogit : ∀ i ∈ vocabulary manyLogits, 0 ≤ logit manyLogits i ∧ logit manyLogits i ≤ 1 := by
    intro i hi
    have hlt : i < 129 := List.mem_range.mp ((perm_vocabulary manyLogits).mem_iff.mp hi)
    have hvalue : logit manyLogits i = 1 - (i : ℚ) / 128 := by
      unfold logit manyLogits
      rw [List.getD_eq_getElem _ _ (by simpa using hlt), List.getElem_map, List.getElem_range]
    have hcast : (i : ℚ) ≤ 128 := by exact_mod_cast Nat.le_of_lt_succ hlt
    rw [hvalue]
    constructor
    · linarith [div_le_one_of_le₀ hcast (by norm_num)]
    · linarith [div_nonneg (Nat.cast_nonneg (α := ℚ) i) (by norm_num : (0 : ℚ) ≤ 128)]
  -- A logit is at most one below the largest, so a weight is at least a half.
  have hmass : ∀ i ∈ vocabulary manyLogits, 1 / 2 ≤ lowMinP.mass hyperbola manyLogits i ∧
      lowMinP.mass hyperbola manyLogits i ≤ 1 := by
    intro i hi
    obtain ⟨hlow, hhigh⟩ := hlogit i hi
    have hinv : lowMinP.invT = 1 := by
      unfold invT lowMinP
      norm_num
    unfold mass
    rw [hmax, hinv, mul_one]
    constructor
    · exact (by norm_num [hyperbola] : 1 / 2 ≤ hyperbola.exp (-1)).trans
        (hyperbola.strictMono.monotone (by linarith))
    · exact (hyperbola.strictMono.monotone (by linarith)).trans (by norm_num [hyperbola] : hyperbola.exp 0 ≤ 1)
  have hshare : ∀ a ∈ vocabulary manyLogits, ∀ b ∈ vocabulary manyLogits,
      lowMinP.share hyperbola manyLogits a * lowMinP.minP ≤ lowMinP.share hyperbola manyLogits b := by
    intro a ha b hb
    have hfull : 0 < lowMinP.fullMass hyperbola manyLogits :=
      lowMinP.fullMass_pos hyperbola (by simp [manyLogits])
    unfold share
    rw [div_mul_eq_mul_div]
    refine div_le_div_of_nonneg_right ?_ hfull.le
    have hcutoff : lowMinP.minP = 1 / 1000 := rfl
    rw [hcutoff]
    linarith [(hmass a ha).2, (hmass b hb).1]
  have hkept : lowMinP.kept hyperbola manyLogits = vocabulary manyLogits := by
    show (lowMinP.topPFilter _ (lowMinP.minPFilter _ (vocabulary manyLogits))) = _
    unfold topPFilter minPFilter
    rw [if_neg (by norm_num [lowMinP]), if_pos (by norm_num [lowMinP])]
    cases hvocabulary : vocabulary manyLogits with
    | nil => rfl
    | cons first rest =>
        rw [hvocabulary] at hshare
        exact List.takeWhile_eq_self_iff.mpr fun i hi => decide_eq_true (hshare first List.mem_cons_self i hi)
  rw [hkept, length_vocabulary]
  rfl

/-- Four tokens, three of them kept by `top_k` and fewer by the other filters; and many tokens, for
which the window is widened. -/
theorem samplingDistribution_four : (∃ rounds,
    samplingDistribution ⟨1, 3 / 4, 3, 1 / 4, .topKFirst⟩ hyperbola [0, 1, 3, 2]
      (NthElement.bySorting _) rounds =
        some (fullSortDistribution ⟨1, 3 / 4, 3, 1 / 4, .topKFirst⟩ hyperbola [0, 1, 3, 2])) ∧
    (lowMinP.kept hyperbola manyLogits).length = 129 ∧
    ∃ rounds, lowMinP.samplingDistribution hyperbola manyLogits (NthElement.bySorting _) rounds =
      some (lowMinP.fullSortDistribution hyperbola manyLogits) := by
  obtain ⟨rounds, h⟩ := samplingDistribution_eq ⟨1, 3 / 4, 3, 1 / 4, .topKFirst⟩ hyperbola
    [0, 1, 3, 2] (NthElement.bySorting _) (by decide)
  obtain ⟨rounds', h'⟩ := samplingDistribution_eq lowMinP hyperbola manyLogits (NthElement.bySorting _) nodup_manyLogits
  exact ⟨⟨rounds, h rounds le_rfl⟩, kept_manyLogits, rounds', h' rounds' le_rfl⟩

end Truncation

end Qw3.Sampling
