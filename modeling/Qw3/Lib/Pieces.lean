import Mathlib.Data.List.Basic
import Mathlib.Order.Monotone.Defs
import Mathlib.Tactic.Common
import Mathlib.Tactic.Ring

/-!
# Offsets in a text that is rewritten piece by piece

* `Pieces` — the pieces of a text, each with what it is rewritten to; `source` and
  `image` are the two texts.
* `carry` — where an offset of the one text is in the other.  Inside a piece that is
  changed it is rounded, down or up.
* `carry_append` — it is exact at the edges of the pieces; `carry_mono`.
* `carry_covers`, `carry_unchanged_iff` — an interval is carried to one that covers the
  changed pieces it meets and keeps the rest as it is.
* `exists_carry` — what some pieces are rewritten to is covered by where their elements
  are carried.
-/

universe u

/-- The pieces of a text and what they are rewritten to. -/
abbrev Pieces (α : Type u) := List (List α × List α)

namespace Pieces

variable {α : Type u}

/-- The text. -/
def source (L : Pieces α) : List α := (L.map Prod.fst).flatten

/-- The text that it is rewritten to. -/
def image (L : Pieces α) : List α := (L.map Prod.snd).flatten

@[simp] theorem source_nil : source ([] : Pieces α) = [] := rfl

@[simp] theorem image_nil : image ([] : Pieces α) = [] := rfl

@[simp] theorem source_cons (p : List α × List α) (L : Pieces α) : source (p :: L) = p.1 ++ source L := rfl

@[simp] theorem image_cons (p : List α × List α) (L : Pieces α) : image (p :: L) = p.2 ++ image L := rfl

theorem source_append (K L : Pieces α) : source (K ++ L) = source K ++ source L := by
  unfold source
  rw [List.map_append, List.flatten_append]

theorem image_append (K L : Pieces α) : image (K ++ L) = image K ++ image L := by
  unfold image
  rw [List.map_append, List.flatten_append]

variable [DecidableEq α]

/-- Where an offset in a piece is in what the piece is rewritten to. -/
def place (upper : Bool) (p : List α × List α) (x : ℕ) : ℕ :=
  if x = 0 then 0
  else if x = p.1.length then p.2.length
  else if p.1 = p.2 then x
  else if upper then p.2.length else 0

/-- Where an offset is. -/
def carry (upper : Bool) : Pieces α → ℕ → ℕ
  | [], _ => 0
  | p :: L, x => if x ≤ p.1.length then place upper p x else p.2.length + carry upper L (x - p.1.length)

variable {upper : Bool} {p : List α × List α} {K L : Pieces α} {x y : ℕ}

theorem place_le (hx : x ≤ p.1.length) : place upper p x ≤ p.2.length := by
  unfold place
  split_ifs with h₀ h₁ h₂
  · exact Nat.zero_le _
  · exact le_rfl
  · rwa [← h₂]
  · exact le_rfl
  · exact Nat.zero_le _

theorem place_mono (hxy : x ≤ y) (hy : y ≤ p.1.length) : place upper p x ≤ place upper p y := by
  by_cases hend : y = p.1.length
  · by_cases hzero : y = 0
    · rw [show x = y by omega]
    · have : place upper p y = p.2.length := by
        unfold place
        rw [if_neg hzero, if_pos hend]
      rw [this]
      exact place_le (hxy.trans hy)
  · unfold place
    split_ifs <;> omega

@[simp] theorem carry_zero : carry upper L 0 = 0 := by
  cases L with
  | nil => rfl
  | cons p L =>
      rw [carry, if_pos (Nat.zero_le _), place, if_pos rfl]

theorem carry_le : carry upper L x ≤ (image L).length := by
  induction L generalizing x with
  | nil => exact le_rfl
  | cons p L ih =>
      rw [carry, image_cons, List.length_append]
      split_ifs with hx
      · exact (place_le hx).trans (Nat.le_add_right _ _)
      · exact Nat.add_le_add_left ih _

/-- An offset is carried monotonely. -/
theorem carry_mono : Monotone (carry upper L) := by
  induction L with
  | nil => exact fun _ _ _ => le_rfl
  | cons p L ih =>
      intro x y hxy
      rw [carry, carry]
      split_ifs with hx hy
      · exact place_mono hxy hy
      · exact (place_le hx).trans (Nat.le_add_right _ _)
      · omega
      · exact Nat.add_le_add_left (ih (Nat.sub_le_sub_right hxy _)) _

theorem place_false_le_true : place false p x ≤ place true p x := by
  unfold place
  by_cases h₀ : x = 0
  · rw [if_pos h₀, if_pos h₀]
  by_cases h₁ : x = p.1.length
  · rw [if_neg h₀, if_neg h₀, if_pos h₁, if_pos h₁]
  by_cases h₂ : p.1 = p.2
  · rw [if_neg h₀, if_neg h₀, if_neg h₁, if_neg h₁, if_pos h₂, if_pos h₂]
  · rw [if_neg h₀, if_neg h₁, if_neg h₂, if_neg Bool.false_ne_true]
    exact Nat.zero_le _

/-- Rounding down stays below rounding up. -/
theorem carry_false_le_true : carry false L x ≤ carry true L x := by
  induction L generalizing x with
  | nil => exact le_rfl
  | cons p L ih =>
      rw [carry, carry]
      split_ifs with hx
      · exact place_false_le_true
      · exact Nat.add_le_add_left ih _

/-- A piece that is not changed. -/
theorem place_same (c : List α) (x : ℕ) : place upper (c, c) x = x := by
  unfold place
  by_cases h₀ : x = 0
  · rw [if_pos h₀, h₀]
  by_cases h₁ : x = c.length
  · rw [if_neg h₀, if_pos h₁, h₁]
  · rw [if_neg h₀, if_neg h₁, if_pos rfl]

/-- Offsets behind some pieces. -/
theorem carry_append (hK : ∀ p ∈ K, p.1 ≠ []) (x : ℕ) :
    carry upper (K ++ L) ((source K).length + x) = (image K).length + carry upper L x := by
  induction K with
  | nil => rw [List.nil_append, source_nil, image_nil, List.length_nil, Nat.zero_add, Nat.zero_add]
  | cons p K ih =>
      have hp := List.length_pos_iff.mpr (hK p List.mem_cons_self)
      have hrest := ih fun q hq => hK q (List.mem_cons_of_mem _ hq)
      rw [List.cons_append, carry, source_cons, image_cons, List.length_append, List.length_append]
      split_ifs with hx
      · -- the pieces end here
        have hnil : K = [] := by
          cases K with
          | nil => rfl
          | cons q K =>
              have hq := List.length_pos_iff.mpr (hK q (List.mem_cons_of_mem _ List.mem_cons_self))
              rw [source_cons, List.length_append] at hx
              omega
        subst hnil
        obtain rfl : x = 0 := by
          rw [source_nil, List.length_nil] at hx
          omega
        rw [source_nil, image_nil, List.length_nil, carry_zero, place, if_neg (by omega),
          if_pos (by omega)]
        omega
      · rw [show p.1.length + (source K).length + x - p.1.length = (source K).length + x by omega,
          hrest]
        omega

/-- An edge between two pieces is carried exactly. -/
theorem carry_edge (hK : ∀ p ∈ K, p.1 ≠ []) :
    carry upper (K ++ L) (source K).length = (image K).length := by
  have h : carry upper (K ++ L) ((source K).length + 0) = (image K).length + carry upper L 0 :=
    carry_append hK 0
  rwa [carry_zero, Nat.add_zero, Nat.add_zero] at h

/-- An offset in a piece that is not changed is carried exactly. -/
theorem carry_unchanged (hK : ∀ p ∈ K, p.1 ≠ []) {c : List α} (hx : x ≤ c.length) :
    carry upper (K ++ (c, c) :: L) ((source K).length + x) = (image K).length + x := by
  rw [carry_append hK, carry, if_pos hx, place_same]

/-- Where no piece is changed an offset stays where it is. -/
theorem carry_same (hsame : ∀ p ∈ L, p.1 = p.2) (hx : x ≤ (source L).length) : carry upper L x = x := by
  induction L generalizing x with
  | nil => exact (Nat.le_zero.mp hx).symm
  | cons p L ih =>
      obtain ⟨c, d⟩ := p
      obtain rfl : c = d := hsame (c, d) List.mem_cons_self
      have hlength : x ≤ c.length + (source L).length := by rwa [source_cons, List.length_append] at hx
      rw [carry]
      dsimp only
      split_ifs with hle
      · exact place_same c x
      · rw [ih (fun q hq => hsame q (List.mem_cons_of_mem _ hq)) (by omega)]
        omega

/-- An interval that meets a changed piece is carried to one that covers what the piece is
rewritten to. -/
theorem carry_covers (hK : ∀ p ∈ K, p.1 ≠ []) (hne : p.1 ≠ []) (hp : p.1 ≠ p.2) {b e : ℕ}
    (hb : b < (source K).length + p.1.length) (he : (source K).length < e) :
    carry false (K ++ p :: L) b ≤ (image K).length ∧
      (image K).length + p.2.length ≤ carry true (K ++ p :: L) e := by
  have hinside : ∀ upper x, 0 < x → x < p.1.length →
      carry upper (K ++ p :: L) ((source K).length + x) =
        (image K).length + if upper then p.2.length else 0 := by
    intro upper x hpos hlt
    rw [carry_append hK, carry, if_pos hlt.le, place, if_neg (by omega), if_neg (by omega), if_neg hp]
  constructor
  · rcases Nat.lt_or_ge (source K).length b with hlt | hle
    · have h := hinside false (b - (source K).length) (by omega) (by omega)
      rw [show (source K).length + (b - (source K).length) = b by omega] at h
      rw [h]
      exact (Nat.add_zero _).le
    · calc carry false (K ++ p :: L) b ≤ carry false (K ++ p :: L) (source K).length := carry_mono hle
        _ = (image K).length := carry_edge hK
  · rcases Nat.lt_or_ge e ((source K).length + p.1.length) with hlt | hle
    · have h := hinside true (e - (source K).length) (by omega) (by omega)
      rw [show (source K).length + (e - (source K).length) = e by omega] at h
      rw [h]
      exact le_rfl
    · have hend : carry true (K ++ p :: L) ((source K).length + p.1.length) =
          (image K).length + p.2.length := by
        rw [carry_append hK, carry, if_pos le_rfl, place,
          if_neg (List.length_pos_iff.mpr hne).ne', if_pos rfl]
      rw [← hend]
      exact carry_mono hle

/-- **Every byte of what some pieces are rewritten to comes from a byte of them**: the interval
of that byte alone is carried to one that has it. -/
theorem exists_carry (hK : ∀ p ∈ K, p.1 ≠ []) {T M : Pieces α} (hT : ∀ p ∈ T, p.1 ≠ [])
    (hx : x < (image T).length) :
    ∃ j < (source T).length, carry false (K ++ (T ++ M)) ((source K).length + j) ≤ (image K).length + x ∧
      (image K).length + x < carry true (K ++ (T ++ M)) ((source K).length + (j + 1)) := by
  induction T generalizing K x with
  | nil => exact absurd hx (Nat.not_lt_zero x)
  | cons p T ih =>
      have hp : p.1 ≠ [] := hT p List.mem_cons_self
      have hpos : 0 < p.1.length := List.length_pos_iff.mpr hp
      rw [source_cons, List.length_append]
      rw [image_cons, List.length_append] at hx
      rcases Nat.lt_or_ge x p.2.length with hlt | hge
      · -- the byte is in what the first piece is rewritten to
        by_cases hsame : p.1 = p.2
        · have hlength : p.1.length = p.2.length := congrArg List.length hsame
          obtain ⟨c, d⟩ := p
          obtain rfl : c = d := hsame
          refine ⟨x, by omega, ?_⟩
          rw [List.cons_append, carry_unchanged hK (by dsimp only at hlt; omega),
            carry_unchanged hK (by dsimp only at hlt; omega)]
          omega
        · refine ⟨0, by omega, ?_⟩
          have hcovers := carry_covers (L := T ++ M) hK hp hsame (b := (source K).length)
            (e := (source K).length + (0 + 1)) (by omega) (by omega)
          rw [List.cons_append]
          refine ⟨hcovers.1.trans (Nat.le_add_right _ _), ?_⟩
          exact lt_of_lt_of_le (Nat.add_lt_add_left hlt _) hcovers.2
      · -- it is in what the others are rewritten to
        have hK' : ∀ q ∈ K ++ [p], q.1 ≠ [] := by
          intro q hq
          rcases List.mem_append.mp hq with hq | hq
          · exact hK q hq
          · rwa [List.mem_singleton.mp hq]
        obtain ⟨j, hj, hbegin, hend⟩ := ih hK' (fun q hq => hT q (List.mem_cons_of_mem _ hq))
          (x := x - p.2.length) (by omega)
        rw [source_append, image_append, source_cons, source_nil, image_cons, image_nil, List.append_nil,
          List.append_nil, List.length_append, List.length_append, List.append_assoc] at hbegin hend
        refine ⟨p.1.length + j, by omega, ?_, ?_⟩
        · rw [← Nat.add_assoc]
          exact hbegin.trans (by omega)
        · rw [Nat.add_assoc p.1.length, ← Nat.add_assoc]
          exact lt_of_le_of_lt (by omega) hend

/-- An interval is carried to one that has exactly its own part of a piece that is not
changed. -/
theorem carry_unchanged_iff (hK : ∀ p ∈ K, p.1 ≠ []) {c : List α} (hx : x < c.length) {b e : ℕ} :
    (carry false (K ++ (c, c) :: L) b ≤ (image K).length + x ∧
        (image K).length + x < carry true (K ++ (c, c) :: L) e) ↔
      b ≤ (source K).length + x ∧ (source K).length + x < e := by
  have hat : ∀ upper, carry upper (K ++ (c, c) :: L) ((source K).length + x) = (image K).length + x :=
    fun _ => carry_unchanged hK hx.le
  have hnext : ∀ upper, carry upper (K ++ (c, c) :: L) ((source K).length + x + 1) =
      (image K).length + x + 1 := fun _ => carry_unchanged hK hx
  refine and_congr ⟨?_, ?_⟩ ⟨?_, ?_⟩
  · intro h
    by_contra hlt
    have hmono : carry false (K ++ (c, c) :: L) ((source K).length + x + 1) ≤
        carry false (K ++ (c, c) :: L) b := carry_mono (not_le.mp hlt)
    rw [hnext] at hmono
    omega
  · intro h
    rw [← hat false]
    exact carry_mono h
  · intro h
    by_contra hge
    have hmono : carry true (K ++ (c, c) :: L) e ≤
        carry true (K ++ (c, c) :: L) ((source K).length + x) := carry_mono (not_lt.mp hge)
    rw [hat] at hmono
    omega
  · intro h
    have hmono : carry true (K ++ (c, c) :: L) ((source K).length + x + 1) ≤
        carry true (K ++ (c, c) :: L) e := carry_mono h
    rw [hnext] at hmono
    omega

end Pieces
