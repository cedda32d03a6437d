import Mathlib.Data.Finset.Card
import Mathlib.Order.Bounds.Basic
import Mathlib.Order.Interval.Finset.Nat

/-!
# The bounded live tail

`kvmem_refresh_policy.hpp`: as much of the live tail as the budget leaves room for is
pinned beside the blocks that are mandatory anyway.

* `boundedTailPinFromBlock` — the source's.
* `Fits` — what its counter stands for: the mandatory blocks together with a tail.
* `boundedTailPin_isLeast` — **the longest tail that fits**, and the sentinel where no
  tail does.
-/

namespace Qw3.Policy.TailPin

open Finset

/-! ## The source's function -/

/-- `0xffffffffu`. -/
def noTail : ℕ := 0xffffffff

/-- The loop over `base_mandatory_blocks`: the marks, and how many blocks are marked. -/
def mark (blockCount : ℕ) (base : List UInt32) : List Bool × ℕ :=
  base.foldl (fun p id =>
    if id.toNat < blockCount ∧ p.1.getD id.toNat false = false then (p.1.set id.toNat true, p.2 + 1) else p)
    (List.replicate blockCount false, 0)

/-- What a block adds to the union when it is pinned. -/
def cost (mandatory : List Bool) (id : ℕ) : ℕ := if mandatory.getD id false then 0 else 1

/-- The loop that drops the first block of the tail. -/
def shrink (blockCount budget : ℕ) (mandatory : List Bool) (start unionCount : ℕ) : ℕ :=
  if start < blockCount ∧ unionCount > budget then
    shrink blockCount budget mandatory (start + 1) (unionCount - cost mandatory start)
  else start
termination_by blockCount - start

/-- `kvmem_bounded_tail_pin_from_block`.  No counter exceeds `block_count`, so none of
them wraps. -/
def boundedTailPinFromBlock (blockCount budgetBlocks desiredTailBlocks : UInt32) (base : List UInt32) : ℕ :=
  let n := blockCount.toNat
  let budget := budgetBlocks.toNat
  if n = 0 ∨ budget = 0 then noTail
  else
    let (mandatory, mandatoryCount) := mark n base
    if mandatoryCount > budget then noTail
    else
      let start := n - min desiredTailBlocks.toNat n
      let unionCount := (List.range' start (n - start)).foldl (fun u id => u + cost mandatory id) mandatoryCount
      let start := shrink n budget mandatory start unionCount
      if start = n then noTail else start

/-! ## What is counted -/

/-- The mandatory blocks that there are. -/
def mandatoryBlocks (n : ℕ) (base : List UInt32) : Finset ℕ := {id ∈ (base.map UInt32.toNat).toFinset | id < n}

/-- The tail from `b` on fits beside the mandatory blocks. -/
def Fits (n budget : ℕ) (mandatory : Finset ℕ) (b : ℕ) : Prop := (mandatory ∪ Ico b n).card ≤ budget

/-- The marks are those of a set of blocks. -/
structure Marks (n : ℕ) (mandatory : Finset ℕ) (marks : List Bool) : Prop where
  length_eq : marks.length = n
  getD_iff : ∀ id < n, marks.getD id false = true ↔ id ∈ mandatory

theorem Marks.set {n id : ℕ} {mandatory : Finset ℕ} {marks : List Bool} (h : Marks n mandatory marks) :
    Marks n (insert id mandatory) (marks.set id true) := by
  refine ⟨List.length_set.trans h.length_eq, fun x hx => ?_⟩
  rw [List.getD_eq_getElem?_getD, List.getElem?_set, mem_insert, ← h.getD_iff x hx,
    List.getD_eq_getElem?_getD, h.length_eq]
  rcases eq_or_ne id x with rfl | hne
  · simp [hx]
  · simp [hne, hne.symm]

theorem mark_spec (n : ℕ) (base : List UInt32) :
    Marks n (mandatoryBlocks n base) (mark n base).1 ∧ (mark n base).2 = (mandatoryBlocks n base).card := by
  have hloop : ∀ (ids : List UInt32) (set : Finset ℕ) (p : List Bool × ℕ), Marks n set p.1 → p.2 = set.card →
      let q := ids.foldl (fun p id =>
        if id.toNat < n ∧ p.1.getD id.toNat false = false then (p.1.set id.toNat true, p.2 + 1) else p) p
      Marks n (set ∪ mandatoryBlocks n ids) q.1 ∧ q.2 = (set ∪ mandatoryBlocks n ids).card := by
    intro ids
    induction ids with
    | nil =>
        intro set p hmarks hcount
        simpa [mandatoryBlocks] using ⟨hmarks, hcount⟩
    | cons id ids ih =>
        intro set p hmarks hcount
        rw [List.foldl_cons]
        by_cases hnew : id.toNat < n ∧ p.1.getD id.toNat false = false
        · have hid : id.toNat ∉ set := by
            rw [← hmarks.getD_iff _ hnew.1, hnew.2]
            exact Bool.false_ne_true
          have hset : set ∪ mandatoryBlocks n (id :: ids) = insert id.toNat set ∪ mandatoryBlocks n ids := by
            ext x
            simp only [mandatoryBlocks, List.map_cons, List.toFinset_cons, mem_union, mem_filter, mem_insert]
            have := hnew.1
            grind
          rw [if_pos hnew, hset]
          exact ih _ _ hmarks.set (by rw [card_insert_of_notMem hid, hcount])
        · have hset : set ∪ mandatoryBlocks n (id :: ids) = set ∪ mandatoryBlocks n ids := by
            ext x
            simp only [mandatoryBlocks, List.map_cons, List.toFinset_cons, mem_union, mem_filter, mem_insert]
            constructor
            · rintro (hx | ⟨rfl | hx, hlt⟩)
              · exact .inl hx
              · left
                rw [← hmarks.getD_iff _ hlt]
                simpa using not_and.mp hnew hlt
              · exact .inr ⟨hx, hlt⟩
            · rintro (hx | ⟨hx, hlt⟩)
              · exact .inl hx
              · exact .inr ⟨.inr hx, hlt⟩
          rw [if_neg hnew, hset]
          exact ih _ _ hmarks hcount
  have h := hloop base ∅ (List.replicate n false, 0)
    ⟨List.length_replicate, fun id hid => by simp [hid]⟩ rfl
  rwa [empty_union] at h

variable {n budget b : ℕ} {mandatory : Finset ℕ} {marks : List Bool}

/-- The first block of a tail adds to the union what it costs. -/
theorem Marks.card_union (h : Marks n mandatory marks) (hb : b < n) :
    (mandatory ∪ Ico b n).card = (mandatory ∪ Ico (b + 1) n).card + cost marks b := by
  have hinsert : mandatory ∪ Ico b n = insert b (mandatory ∪ Ico (b + 1) n) := by
    ext x
    rw [mem_insert, mem_union, mem_union, mem_Ico, mem_Ico, or_left_comm]
    exact or_congr_right (by omega)
  rw [hinsert]
  unfold cost
  split_ifs with hmem
  · rw [insert_eq_of_mem (mem_union_left _ ((h.getD_iff b hb).mp hmem))]
    rfl
  · rw [card_insert_of_notMem]
    rw [mem_union, not_or, ← h.getD_iff b hb, mem_Ico]
    exact ⟨hmem, fun hlt => Nat.not_succ_le_self b hlt.1⟩

theorem Marks.foldl_cost (h : Marks n mandatory marks) (hb : b ≤ n) :
    (List.range' b (n - b)).foldl (fun u id => u + cost marks id) mandatory.card = (mandatory ∪ Ico b n).card := by
  have hsum : ∀ (ids : List ℕ) (u : ℕ), ids.foldl (fun u id => u + cost marks id) u = u + (ids.map (cost marks)).sum := by
    intro ids
    induction ids with
    | nil => exact fun u => rfl
    | cons id ids ih =>
        intro u
        rw [List.foldl_cons, ih, List.map_cons, List.sum_cons, Nat.add_assoc]
  rw [hsum]
  induction hb using Nat.decreasingInduction with
  | self => simp
  | of_succ b hlt ih =>
      have hlen : n - b = n - (b + 1) + 1 := by omega
      rw [h.card_union hlt, ← ih, hlen, List.range'_succ, List.map_cons, List.sum_cons]
      omega

/-- The loop stops at the first tail that fits. -/
theorem Marks.shrink_spec (budget : ℕ) (h : Marks n mandatory marks) {u : ℕ} (hb : b ≤ n) (hu : u = (mandatory ∪ Ico b n).card) :
    let r := shrink n budget marks b u
    b ≤ r ∧ r ≤ n ∧ (r < n → Fits n budget mandatory r) ∧ ∀ x, b ≤ x → x < r → ¬ Fits n budget mandatory x := by
  induction hk : n - b generalizing b u with
  | zero =>
      unfold shrink
      have hnot : ¬ (b < n ∧ u > budget) := fun hlt => absurd hlt.1 (by omega)
      rw [if_neg hnot]
      exact ⟨le_rfl, hb, fun hlt => absurd hlt (by omega), fun x hx hlt => absurd hlt (Nat.not_lt.mpr hx)⟩
  | succ k ih =>
      have hlt : b < n := by omega
      unfold shrink
      split_ifs with hover
      · have hcount : u - cost marks b = (mandatory ∪ Ico (b + 1) n).card := by
          rw [hu, h.card_union hlt, Nat.add_sub_cancel]
        obtain ⟨hle, hn, hfits, hleast⟩ := ih hlt hcount (by omega)
        refine ⟨Nat.le_of_succ_le hle, hn, hfits, fun x hx hxr => ?_⟩
        rcases Nat.eq_or_lt_of_le hx with rfl | hx
        · unfold Fits
          rw [← hu]
          exact Nat.not_le.mpr hover.2
        · exact hleast x hx hxr
      · refine ⟨le_rfl, hb, fun _ => ?_, fun x hx hxb => absurd hxb (Nat.not_lt.mpr hx)⟩
        unfold Fits
        rw [← hu]
        exact Nat.not_lt.mp fun hgt => hover ⟨hlt, hgt⟩

/-- A tail to choose: no longer than desired, not empty, and it fits. -/
def Candidate (blockCount budgetBlocks desiredTailBlocks : UInt32) (base : List UInt32) (b : ℕ) : Prop :=
  let n := blockCount.toNat
  n - min desiredTailBlocks.toNat n ≤ b ∧ b < n ∧ Fits n budgetBlocks.toNat (mandatoryBlocks n base) b

/-- **The longest tail that fits.**  The result is the least block from which the tail
fits beside the mandatory blocks; the sentinel says that there is none, or that there
are no blocks, or no budget. -/
theorem boundedTailPin_isLeast (blockCount budgetBlocks desiredTailBlocks : UInt32) (base : List UInt32) :
    let r := boundedTailPinFromBlock blockCount budgetBlocks desiredTailBlocks base
    (r = noTail ↔ blockCount = 0 ∨ budgetBlocks = 0 ∨ ∀ b, ¬ Candidate blockCount budgetBlocks desiredTailBlocks base b) ∧
      (r ≠ noTail → IsLeast {b | Candidate blockCount budgetBlocks desiredTailBlocks base b} r) := by
  have hzero : ∀ x : UInt32, x.toNat = 0 ↔ x = 0 := fun x => UInt32.toNat_inj (b := 0)
  have hsmall : blockCount.toNat ≤ noTail := Nat.le_of_lt_succ blockCount.toNat_lt
  obtain ⟨hmarks, hcount⟩ := mark_spec blockCount.toNat base
  have hunion := fun b hb => hmarks.foldl_cost (b := b) hb
  rw [← hcount] at hunion
  unfold boundedTailPinFromBlock
  unfold Candidate
  generalize hn : blockCount.toNat = n at *
  generalize hbudget : budgetBlocks.toNat = budget at *
  generalize desiredTailBlocks.toNat = desired
  dsimp only
  split_ifs with hempty hfull hnone
  · refine ⟨iff_of_true rfl ?_, fun h => absurd rfl h⟩
    rw [← hzero, ← hzero, hn, hbudget, ← or_assoc]
    exact .inl hempty
  · -- The mandatory blocks alone are too many.
    refine ⟨iff_of_true rfl (.inr (.inr ?_)), fun h => absurd rfl h⟩
    rintro b ⟨-, -, hfits⟩
    have hle : (mandatoryBlocks n base).card ≤ budget := (card_le_card subset_union_left).trans hfits
    rw [hcount] at hfull
    exact absurd hle (Nat.not_le.mpr hfull)
  · obtain ⟨-, -, -, hleast⟩ := hmarks.shrink_spec budget (Nat.sub_le ..)
      (hunion _ (Nat.sub_le n (min desired n)))
    refine ⟨iff_of_true rfl (.inr (.inr ?_)), fun h => absurd rfl h⟩
    rintro b ⟨hstart, hlt, hfits⟩
    exact hleast b hstart (hlt.trans_eq hnone.symm) hfits
  · obtain ⟨hstart, hle, hfits, hleast⟩ := hmarks.shrink_spec budget (Nat.sub_le ..)
      (hunion _ (Nat.sub_le n (min desired n)))
    have hlt := lt_of_le_of_ne hle hnone
    have hcandidate := And.intro hstart (And.intro hlt (hfits hlt))
    refine ⟨iff_of_false (hlt.trans_le hsmall).ne ?_, fun _ => ⟨hcandidate, ?_⟩⟩
    · rw [← hzero, ← hzero, hn, hbudget, ← or_assoc, not_or]
      exact ⟨hempty, fun hall => hall _ hcandidate⟩
    · rintro b ⟨hb, -, hb'⟩
      by_contra hlt'
      exact hleast b hb (Nat.not_le.mp hlt') hb'

end Qw3.Policy.TailPin
