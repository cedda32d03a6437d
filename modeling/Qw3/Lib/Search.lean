import Mathlib.Data.List.Infix

/-!
# Words in a text

* `OccursAt w t i` — the word `w` stands in the text `t` at position `i`.
* `find` — the first such position; `find_eq_some_iff`, `find_eq_none_iff`.
* `OccursAt.straddle` — a word that runs past the end of a text begins with
  that end; `overlap` finds the longest end that a word begins with.
-/

universe u

namespace Search

variable {α : Type u}

/-- A word stands in a text at a position. -/
def OccursAt (w t : List α) (i : ℕ) : Prop := w <+: t.drop i

instance [DecidableEq α] (w t : List α) (i : ℕ) : Decidable (OccursAt w t i) :=
  inferInstanceAs (Decidable (w <+: t.drop i))

variable {w t a b : List α} {i j : ℕ}

theorem OccursAt.le (h : OccursAt w t i) (hw : w ≠ []) : i + w.length ≤ t.length := by
  have hpos : 0 < w.length := List.length_pos_iff.mpr hw
  have hlen := h.length_le
  rw [List.length_drop] at hlen
  omega

theorem OccursAt.append (h : OccursAt w t i) (more : List α) : OccursAt w (t ++ more) i := by
  unfold OccursAt at h ⊢
  rw [List.drop_append]
  exact h.trans (List.prefix_append _ _)

/-- What stands inside the first part of a text needs no more of it. -/
theorem OccursAt.of_append (h : OccursAt w (t ++ b) i) (hle : i + w.length ≤ t.length) :
    OccursAt w t i := by
  unfold OccursAt at h ⊢
  rw [List.drop_append_of_le_length (by omega)] at h
  refine List.prefix_of_prefix_length_le h (List.prefix_append _ _) ?_
  rw [List.length_drop]
  omega

/-- Positions counted from the end of what comes before. -/
theorem occursAt_append_left : OccursAt w (a ++ t) (a.length + i) ↔ OccursAt w t i := by
  unfold OccursAt
  rw [List.drop_length_add_append]

theorem occursAt_iff_append (hi : i ≤ t.length) :
    OccursAt w t i ↔ ∃ b, t = t.take i ++ w ++ b := by
  constructor
  · rintro ⟨b, hb⟩
    refine ⟨b, ?_⟩
    rw [List.append_assoc, hb, List.take_append_drop]
  · rintro ⟨b, hb⟩
    rw [hb]
    refine ⟨b, ?_⟩
    rw [List.append_assoc, List.drop_append, List.length_take, min_eq_left hi, Nat.sub_self,
      List.drop_eq_nil_of_le (by rw [List.length_take]; omega), List.nil_append, List.drop_zero]

theorem isInfix_iff_occursAt : w <:+: t ↔ ∃ i, OccursAt w t i := by
  constructor
  · rintro ⟨a, b, rfl⟩
    refine ⟨a.length, ?_⟩
    rw [List.append_assoc, ← Nat.add_zero a.length, occursAt_append_left]
    exact List.prefix_append _ _
  · rintro ⟨i, h⟩
    exact h.isInfix.trans (List.drop_suffix i t).isInfix

/-- A word that runs past the end of a text begins with that end. -/
theorem OccursAt.straddle (h : OccursAt w (t ++ b) i) (hi : i ≤ t.length)
    (hlt : t.length ≤ i + w.length) : t.drop i <+: w := by
  unfold OccursAt at h
  rw [List.drop_append_of_le_length hi] at h
  refine List.prefix_of_prefix_length_le (List.prefix_append _ _) h ?_
  rw [List.length_drop]
  omega

variable [DecidableEq α]

/-- Where a word first stands in a text. -/
def find (w : List α) : List α → Option ℕ
  | [] => if w = [] then some 0 else none
  | c :: rest => if w <+: c :: rest then some 0 else (find w rest).map (· + 1)

theorem find_cons (w rest : List α) (c : α) :
    find w (c :: rest) = if w <+: c :: rest then some 0 else (find w rest).map (· + 1) := rfl

/-- The first place from a position on. -/
def findFrom (w t : List α) (pos : ℕ) : Option ℕ := (find w (t.drop pos)).map (pos + ·)

theorem find_eq_none_iff : find w t = none ↔ ∀ i, ¬ OccursAt w t i := by
  induction t with
  | nil =>
      simp only [find, OccursAt, List.drop_nil, List.prefix_nil, forall_const]
      split <;> simp_all
  | cons c rest ih =>
      rw [find_cons]
      split
      next h => simpa using ⟨0, h⟩
      next h =>
        rw [Option.map_eq_none_iff, ih]
        constructor
        · intro hrest i
          cases i with
          | zero => exact h
          | succ i => exact hrest i
        · intro hall i
          exact hall (i + 1)

theorem find_eq_some_iff :
    find w t = some i ↔ i ≤ t.length ∧ OccursAt w t i ∧ ∀ j < i, ¬ OccursAt w t j := by
  induction t generalizing i with
  | nil =>
      simp only [find, OccursAt, List.drop_nil, List.prefix_nil, List.length_nil]
      by_cases hw : w = []
      · rw [if_pos hw]
        simp only [Option.some.injEq, hw, not_true_eq_false, true_and, imp_false, not_lt]
        constructor
        · rintro rfl
          exact ⟨le_rfl, Nat.zero_le⟩
        · rintro ⟨h, -⟩
          omega
      · simp [hw]
  | cons c rest ih =>
      rw [find_cons]
      split
      next h =>
        rw [Option.some.injEq]
        constructor
        · rintro rfl
          exact ⟨Nat.zero_le _, h, fun j hj => absurd hj (Nat.not_lt_zero j)⟩
        · rintro ⟨-, -, hfirst⟩
          by_contra hne
          exact hfirst 0 (by omega) h
      next h =>
        rw [Option.map_eq_some_iff]
        constructor
        · rintro ⟨k, hk, rfl⟩
          obtain ⟨hle, hat, hfirst⟩ := ih.mp hk
          refine ⟨Nat.succ_le_succ hle, hat, ?_⟩
          intro j hj
          cases j with
          | zero => exact h
          | succ j => exact hfirst j (by omega)
        · rintro ⟨hle, hat, hfirst⟩
          cases i with
          | zero => exact absurd hat h
          | succ i =>
              refine ⟨i, ih.mpr ⟨Nat.le_of_succ_le_succ hle, hat, ?_⟩, rfl⟩
              intro j hj
              exact hfirst (j + 1) (by omega)

theorem findFrom_eq_some (hw : w ≠ []) (h : findFrom w t j = some i) :
    j ≤ i ∧ OccursAt w t i ∧ i + w.length ≤ t.length := by
  obtain ⟨k, hk, rfl⟩ := Option.map_eq_some_iff.mp h
  obtain ⟨-, hat, -⟩ := find_eq_some_iff.mp hk
  have hat : OccursAt w t (j + k) := by
    unfold OccursAt at hat ⊢
    rwa [List.drop_drop] at hat
  exact ⟨Nat.le_add_right _ _, hat, hat.le hw⟩

/-- What is found stays found when more follows. -/
theorem find_append_of_some (hw : w ≠ []) (h : find w t = some i) (b : List α) :
    find w (t ++ b) = some i := by
  obtain ⟨hle, hat, hfirst⟩ := find_eq_some_iff.mp h
  have hend := hat.le hw
  refine find_eq_some_iff.mpr ⟨by rw [List.length_append]; omega, hat.append b, ?_⟩
  intro j hj hat'
  exact hfirst j hj (hat'.of_append (by omega))

/-- What comes after a beginning decides where a word is found, when the word
stands at no position of the beginning. -/
theorem find_append_left (hclear : ∀ j < a.length, ¬ OccursAt w (a ++ b) j) :
    find w (a ++ b) = (find w b).map (a.length + ·) := by
  cases hf : find w b with
  | none =>
      rw [Option.map_none, find_eq_none_iff]
      intro j hat
      rcases Nat.lt_or_ge j a.length with hj | hj
      · exact hclear j hj hat
      · rw [show j = a.length + (j - a.length) by omega, occursAt_append_left] at hat
        exact find_eq_none_iff.mp hf _ hat
  | some k =>
      obtain ⟨hle, hat, hfirst⟩ := find_eq_some_iff.mp hf
      rw [Option.map_some, find_eq_some_iff]
      refine ⟨?_, occursAt_append_left.mpr hat, ?_⟩
      · rw [List.length_append]
        omega
      · intro j hj hat'
        rcases Nat.lt_or_ge j a.length with hlt | hge
        · exact hclear j hlt hat'
        · rw [show j = a.length + (j - a.length) by omega, occursAt_append_left] at hat'
          exact hfirst _ (by omega) hat'

/-! ## Ends of a text that begin a word -/

/-- The length of the longest end of a text, of more than `floor` and at most
`limit`, that a word begins with; `floor` when there is none. -/
def overlap (w t : List α) (floor : ℕ) : ℕ → ℕ
  | 0 => floor
  | n + 1 =>
      if n + 1 ≤ floor then floor
      else if t.drop (t.length - (n + 1)) = w.take (n + 1) then n + 1
      else overlap w t floor n

variable {floor limit n : ℕ}

theorem overlap_succ (w t : List α) (floor n : ℕ) : overlap w t floor (n + 1) =
    if n + 1 ≤ floor then floor
    else if t.drop (t.length - (n + 1)) = w.take (n + 1) then n + 1
    else overlap w t floor n := rfl

theorem le_overlap : floor ≤ overlap w t floor limit := by
  induction limit with
  | zero => exact le_rfl
  | succ n ih =>
      rw [overlap_succ]
      split_ifs <;> omega

theorem overlap_le : overlap w t floor limit ≤ max floor limit := by
  induction limit with
  | zero => exact le_max_left _ _
  | succ n ih =>
      rw [overlap_succ]
      split_ifs <;> omega

/-- What `overlap` found is there. -/
theorem overlap_eq (h : overlap w t floor limit ≠ floor) :
    t.drop (t.length - overlap w t floor limit) = w.take (overlap w t floor limit) := by
  induction limit with
  | zero => exact absurd rfl h
  | succ n ih =>
      rw [overlap_succ] at h ⊢
      split_ifs with hfloor heq
      · rw [if_pos hfloor] at h
        exact absurd rfl h
      · exact heq
      · rw [if_neg hfloor, if_neg heq] at h
        exact ih h

/-- No longer end begins the word. -/
theorem overlap_max (hlt : overlap w t floor limit < n) (hn : n ≤ limit) :
    t.drop (t.length - n) ≠ w.take n := by
  induction limit with
  | zero => omega
  | succ m ih =>
      rw [overlap_succ] at hlt
      split_ifs at hlt with hfloor heq
      · omega
      · omega
      · rcases Nat.lt_or_ge m n with hm | hm
        · obtain rfl : n = m + 1 := by omega
          exact heq
        · exact ih hlt hm

/-! ## The end that is held back -/

/-- The length of the longest end of a text that begins a word and is not all of
it. -/
def heldBack (w t : List α) : ℕ := overlap w t 0 (min t.length (w.length - 1))

theorem heldBack_le : heldBack w t ≤ t.length :=
  overlap_le.trans (max_le (Nat.zero_le _) (min_le_left _ _))

theorem heldBack_lt (hw : w ≠ []) : heldBack w t < w.length := by
  have hpos : 0 < w.length := List.length_pos_iff.mpr hw
  have hle : heldBack w t ≤ w.length - 1 :=
    overlap_le.trans (max_le (Nat.zero_le _) (min_le_right _ _))
  omega

theorem heldBack_spec : t.drop (t.length - heldBack w t) = w.take (heldBack w t) := by
  rcases Nat.eq_zero_or_pos (heldBack w t) with hzero | hpos
  · rw [hzero, Nat.sub_zero, List.drop_length, List.take_zero]
  · exact overlap_eq hpos.ne'

theorem heldBack_max (hlt : heldBack w t < n) (hn : n ≤ t.length) (hw : n < w.length) :
    t.drop (t.length - n) ≠ w.take n :=
  overlap_max hlt (le_min hn (by omega))

theorem heldBack_eq (hn : n ≤ t.length) (hw : n < w.length)
    (hspec : t.drop (t.length - n) = w.take n)
    (hmax : ∀ m, n < m → m ≤ t.length → m < w.length → t.drop (t.length - m) ≠ w.take m) :
    heldBack w t = n := by
  rcases Nat.lt_trichotomy (heldBack w t) n with hlt | heq | hgt
  · exact absurd hspec (heldBack_max hlt hn hw)
  · exact heq
  · have hne : w ≠ [] := by
      rintro rfl
      exact Nat.not_lt_zero n hw
    exact absurd heldBack_spec (hmax _ hgt heldBack_le (heldBack_lt hne))

/-- What is held back of a text's end is held back of the text. -/
theorem heldBack_drop (hw : w ≠ []) (h : n ≤ t.length - heldBack w t) :
    heldBack w (t.drop n) = heldBack w t := by
  have hle := heldBack_le (w := w) (t := t)
  have hdrop : ∀ m, m ≤ t.length - n →
      (t.drop n).drop ((t.drop n).length - m) = t.drop (t.length - m) := by
    intro m hm
    rw [List.drop_drop, List.length_drop]
    congr 1
    omega
  refine heldBack_eq ?_ (heldBack_lt hw) ?_ ?_
  · rw [List.length_drop]
    omega
  · rw [hdrop _ (by omega)]
    exact heldBack_spec
  · intro m hlt hm hmw
    rw [List.length_drop] at hm
    rw [hdrop m hm]
    exact heldBack_max hlt (by omega) hmw

/-- More text moves what is held back on. -/
theorem sub_heldBack_le (hw : w ≠ []) :
    t.length - heldBack w t ≤ (t ++ b).length - heldBack w (t ++ b) := by
  by_contra hlt
  have hle := heldBack_le (w := w) (t := t ++ b)
  have hspec := heldBack_spec (w := w) (t := t ++ b)
  have hmarker := heldBack_lt (t := t ++ b) hw
  generalize heldBack w (t ++ b) = m at hlt hle hspec hmarker
  rw [List.length_append] at hlt hle hspec
  have hfrom : t.length + b.length - m ≤ t.length := by omega
  -- the end of the longer text begins in the shorter one, and further back
  refine heldBack_max (w := w) (t := t) (n := m - b.length) (by omega) (by omega) (by omega) ?_
  rw [List.drop_append_of_le_length hfrom] at hspec
  have htake := congrArg (List.take (m - b.length)) hspec
  rw [List.take_take, min_eq_left (Nat.sub_le _ _),
    List.take_append_of_le_length (by rw [List.length_drop]; omega),
    List.take_of_length_le (by rw [List.length_drop]; omega)] at htake
  rw [← htake]
  congr 1
  omega

/-- A word that stands nowhere in a text begins, with what comes after, in what is
held back. -/
theorem le_of_occursAt (hnone : find w t = none) (hat : OccursAt w (t ++ b) i) :
    t.length - heldBack w t ≤ i := by
  by_contra hlt
  have hi : i < t.length := by omega
  have hrun : t.length < i + w.length := by
    by_contra hle
    exact find_eq_none_iff.mp hnone i (hat.of_append (by omega))
  have hpre := hat.straddle hi.le hrun.le
  have hlen : (t.drop i).length = t.length - i := List.length_drop
  refine heldBack_max (w := w) (t := t) (n := t.length - i) (by omega) (by omega) (by omega) ?_
  rw [show t.length - (t.length - i) = i by omega, ← hlen]
  exact List.prefix_iff_eq_take.mp hpre

end Search
