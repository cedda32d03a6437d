import Mathlib.Data.Finset.Card
import Mathlib.Order.Interval.Finset.Nat
import Qw3.Lib.SortUnique

/-!
# Admission of complete evidence

`kvmem_file_evidence.hpp`: the blocks of a whole read join the blocks that are kept,
or none of them does.

* `admitCompleteEvidenceRanges`, `admitCompleteEvidenceBlocks` — the source's two ways
  to admit: of many ranges at once, and of one.
* `Admitted` — what an admission leaves.
* `evidenceAdmission` — **all or nothing**, and the same of one range either way.
-/

namespace Qw3.Policy.Evidence

open Finset

/-! ## The source's functions -/

/-- `std::sort`, `std::unique` and `erase`. -/
def normalize (ids : List ℕ) : List ℕ := sortUnique (fun a b => decide (a < b)) ids

/-- The ids of a range. -/
def blocks (first «end» : ℕ) : List ℕ := List.range' first («end» - first)

/-- The block that the budget leaves besides the reserve. -/
def limit (budgetBlocks reserve : ℕ) : ℕ := if budgetBlocks > reserve then budgetBlocks - reserve else 0

/-- The loop over the ranges; one that is empty or leaves the prompt ends it. -/
def combine (promptBlocks : ℕ) : List ℕ → List (ℕ × ℕ) → Option (List ℕ)
  | combined, [] => some combined
  | combined, (first, «end») :: ranges =>
      if first ≥ «end» ∨ «end» > promptBlocks then none
      else combine promptBlocks (combined ++ blocks first «end») ranges

/-- `kvmem_admit_complete_evidence_ranges`: the verdict, and `kept` after the call. -/
def admitCompleteEvidenceRanges (kept : List ℕ) (ranges : List (ℕ × ℕ)) (promptBlocks budgetBlocks reserve : ℕ) :
    Bool × List ℕ :=
  match combine promptBlocks kept ranges with
  | none => (false, kept)
  | some combined =>
      if (normalize combined).length = kept.length then (true, kept)
      else if (normalize combined).length > limit budgetBlocks reserve then (false, kept)
      else (true, normalize combined)

/-- The loop that counts the blocks of a range that `std::binary_search` does not find
in `kept`, which is sorted. -/
def countExtra (kept : List ℕ) (ids : List ℕ) : ℕ := ids.foldl (fun extra i => extra + if i ∈ kept then 0 else 1) 0

/-- `kvmem_admit_complete_evidence_blocks`: the verdict, and `kept` after the call. -/
def admitCompleteEvidenceBlocks (kept : List ℕ) (first «end» promptBlocks budgetBlocks retrievalReserve : ℕ) :
    Bool × List ℕ :=
  if first ≥ «end» ∨ «end» > promptBlocks then (false, kept)
  else
    let extra := countExtra kept (blocks first «end»)
    let limit := limit budgetBlocks retrievalReserve
    if extra = 0 then (true, kept)
    else if kept.length > limit ∨ extra > limit - kept.length then (false, kept)
    else (true, normalize (kept ++ blocks first «end»))

/-! ## What is admitted -/

/-- The blocks of the ranges, beside those that are kept. -/
def Wanted (kept : List ℕ) (ranges : List (ℕ × ℕ)) (i : ℕ) : Prop := i ∈ kept ∨ ∃ r ∈ ranges, r.1 ≤ i ∧ i < r.2

/-- What an admission leaves: all of the ranges, in order, within the limit. -/
structure Admitted (kept : List ℕ) (ranges : List (ℕ × ℕ)) (limit : ℕ) (result : List ℕ) : Prop where
  sorted : result.Pairwise (· < ·)
  mem_iff : ∀ i, i ∈ result ↔ Wanted kept ranges i
  length_le : result.length ≤ max kept.length limit

theorem mem_blocks {first «end» i : ℕ} : i ∈ blocks first «end» ↔ first ≤ i ∧ i < «end» := by
  unfold blocks
  rw [List.mem_range'_1]
  omega

theorem mem_normalize {ids : List ℕ} {i : ℕ} : i ∈ normalize ids ↔ i ∈ ids := mem_sortUnique

variable {kept combined : List ℕ} {ranges : List (ℕ × ℕ)} {promptBlocks budgetBlocks reserve : ℕ}

theorem mem_combine (h : combine promptBlocks kept ranges = some combined) (i : ℕ) :
    i ∈ combined ↔ Wanted kept ranges i := by
  induction ranges generalizing kept with
  | nil =>
      obtain rfl := Option.some.inj h
      simp [Wanted]
  | cons r ranges ih =>
      unfold combine at h
      split_ifs at h
      rw [ih h]
      unfold Wanted
      rw [List.mem_append, mem_blocks, List.exists_mem_cons_iff, or_assoc]

/-- When no block is new, the blocks are those that are kept. -/
theorem normalize_eq_kept (hkept : kept.Pairwise (· < ·)) (hsub : ∀ i ∈ kept, i ∈ combined)
    (h : (normalize combined).length = kept.length) : normalize combined = kept := by
  refine sortUnique_eq hkept fun i => ?_
  have hnodup : kept.Nodup := hkept.imp ne_of_lt
  have hcard : combined.toFinset.card ≤ kept.toFinset.card := by
    rw [List.toFinset_card_of_nodup hnodup, ← h]
    exact (length_sortUnique combined).ge
  have heq : kept.toFinset = combined.toFinset :=
    eq_of_subset_of_card_le (fun i hi => List.mem_toFinset.mpr (hsub i (List.mem_toFinset.mp hi))) hcard
  rw [← List.mem_toFinset, ← heq, List.mem_toFinset]

/-- An admission of ranges admits all of them, or changes nothing. -/
theorem admitRanges_spec (hkept : kept.Pairwise (· < ·)) :
    let r := admitCompleteEvidenceRanges kept ranges promptBlocks budgetBlocks reserve
    (r.1 = false → r.2 = kept) ∧ (r.1 = true → Admitted kept ranges (budgetBlocks - reserve) r.2) := by
  have hlimit : limit budgetBlocks reserve = budgetBlocks - reserve := by
    unfold limit
    split_ifs <;> omega
  unfold admitCompleteEvidenceRanges
  cases hcombine : combine promptBlocks kept ranges with
  | none => exact ⟨fun _ => rfl, nofun⟩
  | some combined =>
      have hmem := mem_combine hcombine
      dsimp only
      split_ifs with hsame hover
      · refine ⟨nofun, fun _ => ⟨hkept, fun i => ?_, le_max_left ..⟩⟩
        have heq := normalize_eq_kept hkept (fun i hi => (hmem i).mpr (.inl hi)) hsame
        have hiff : i ∈ normalize combined ↔ i ∈ combined := mem_normalize
        rw [heq] at hiff
        exact hiff.trans (hmem i)
      · exact ⟨fun _ => rfl, nofun⟩
      · refine ⟨nofun, fun _ => ⟨pairwise_sortUnique_lt _, fun i => ?_, ?_⟩⟩
        · rw [mem_normalize, hmem]
        · exact (Nat.not_lt.mp hover).trans (hlimit.le.trans (le_max_right ..))

theorem countExtra_eq (kept ids : List ℕ) (h : ids.Nodup) :
    countExtra kept ids = (ids.toFinset \ kept.toFinset).card := by
  have hsum : ∀ (ids : List ℕ) (n : ℕ),
      ids.foldl (fun extra i => extra + if i ∈ kept then 0 else 1) n = n + (ids.filter (· ∉ kept)).length := by
    intro ids
    induction ids with
    | nil => exact fun n => rfl
    | cons i ids ih =>
        intro n
        rw [List.foldl_cons, ih, List.filter_cons]
        by_cases hi : i ∈ kept
        · simp [hi]
        · simp [hi]
          omega
  unfold countExtra
  rw [hsum, Nat.zero_add, ← List.toFinset_card_of_nodup (h.filter _)]
  congr 1
  ext i
  simp

/-- Counting the new blocks is the same as comparing the lengths. -/
theorem length_normalize_append (hkept : kept.Pairwise (· < ·)) (first «end» : ℕ) :
    (normalize (kept ++ blocks first «end»)).length = kept.length + countExtra kept (blocks first «end») := by
  have hnodup : kept.Nodup := hkept.imp ne_of_lt
  have hblocks : (blocks first «end»).Nodup := List.nodup_range'
  rw [countExtra_eq _ _ hblocks, ← List.toFinset_card_of_nodup hnodup]
  unfold normalize
  rw [length_sortUnique, List.toFinset_append, ← union_sdiff_self_eq_union, card_union_of_disjoint disjoint_sdiff]

/-- **Evidence is admitted all or not at all.**  An admission of ranges leaves what is
kept or adds the blocks of all ranges to it, in order and within the limit; and of one
range both ways to admit give the same. -/
theorem evidenceAdmission (kept : List ℕ) (hkept : kept.Pairwise (· < ·)) (promptBlocks budgetBlocks reserve : ℕ) :
    (∀ ranges,
      let r := admitCompleteEvidenceRanges kept ranges promptBlocks budgetBlocks reserve
      (r.1 = false → r.2 = kept) ∧ (r.1 = true → Admitted kept ranges (budgetBlocks - reserve) r.2)) ∧
    ∀ first «end», admitCompleteEvidenceRanges kept [(first, «end»)] promptBlocks budgetBlocks reserve =
      admitCompleteEvidenceBlocks kept first «end» promptBlocks budgetBlocks reserve := by
  refine ⟨fun ranges => admitRanges_spec hkept, fun first «end» => ?_⟩
  unfold admitCompleteEvidenceRanges admitCompleteEvidenceBlocks combine combine
  have hlength := length_normalize_append hkept first «end»
  split_ifs with hrange
  · rfl
  · dsimp only
    rw [hlength]
    split_ifs <;> first | rfl | omega

theorem evidenceAdmission_sample :
    (∀ ranges,
      let r := admitCompleteEvidenceRanges [1, 4] ranges 8 5 1
      (r.1 = false → r.2 = [1, 4]) ∧ (r.1 = true → Admitted [1, 4] ranges (5 - 1) r.2)) ∧
    ∀ first «end», admitCompleteEvidenceRanges [1, 4] [(first, «end»)] 8 5 1 =
      admitCompleteEvidenceBlocks [1, 4] first «end» 8 5 1 :=
  evidenceAdmission [1, 4] (by decide) 8 5 1

end Qw3.Policy.Evidence
