import Mathlib.Data.List.Basic

/-!
# Backtracking regexes

* `Regex` — regexes over an alphabet, with greedy quantifiers and negative lookahead.
* `Regex.rests` — what every way to match leaves, the preferred way first.
* `Regex.first` — what a backtracking matcher leaves.
* `Regex.search`, `Regex.split` — leftmost matching, once and over a whole text.
-/

namespace Qw3

/-- Regexes; the quantifiers are greedy. -/
inductive Regex (α : Type)
  | char (p : α → Bool)
  | seq (r t : Regex α)
  | alt (r t : Regex α)
  | opt (r : Regex α)
  | star (r : Regex α)
  | notAhead (r : Regex α)

namespace Regex

variable {α : Type} {p : α → Bool} {r t u : Regex α} {s rest : List α}

/-- One or more. -/
def plus (r : Regex α) : Regex α := seq r (star r)

/-- The iterations of a quantifier; one that moves on by nothing is not made. -/
def iterate (f : List α → List (List α)) : ℕ → List α → List (List α)
  | 0, s => [s]
  | n + 1, s => ((f s).filter fun rest => rest.length < s.length).flatMap (iterate f n) ++ [s]

/-- What each way to match leaves of a text; a backtracking matcher tries them in this
order. -/
def rests : Regex α → List α → List (List α)
  | char _, [] => []
  | char p, c :: s => if p c then [s] else []
  | seq r t, s => (rests r s).flatMap (rests t)
  | alt r t, s => rests r s ++ rests t s
  | opt r, s => rests r s ++ [s]
  | star r, s => iterate (rests r) s.length s
  | notAhead r, s => if rests r s = [] then [s] else []

/-- What the first way to match leaves. -/
def first (r : Regex α) (s : List α) : Option (List α) := (rests r s).head?

@[simp] theorem rests_char_nil : rests (char p) [] = [] := rfl

@[simp] theorem rests_char_cons (c : α) : rests (char p) (c :: s) = if p c then [s] else [] := rfl

theorem rests_seq : rests (seq r t) s = (rests r s).flatMap (rests t) := rfl

theorem rests_opt : rests (opt r) s = rests r s ++ [s] := rfl

theorem rests_notAhead : rests (notAhead r) s = if rests r s = [] then [s] else [] := rfl

/-! ## Quantifiers -/

/-- More turns than the text is long change nothing. -/
theorem iterate_succ (f : List α → List (List α)) {n : ℕ} (h : s.length ≤ n) :
    iterate f (n + 1) s = iterate f n s := by
  induction n generalizing s with
  | zero =>
      have hnone : (f s).filter (fun rest => rest.length < s.length) = [] := by
        rw [List.filter_eq_nil_iff]
        intro rest _
        rw [decide_eq_true_eq]
        omega
      change ((f s).filter fun rest => rest.length < s.length).flatMap _ ++ [s] = [s]
      rw [hnone]
      rfl
  | succ n ih =>
      rw [iterate, iterate]
      congr 1
      apply List.flatMap_congr
      intro rest hrest
      have hlt := of_decide_eq_true (List.mem_filter.mp hrest).2
      exact ih (by omega)

theorem iterate_eq (f : List α → List (List α)) {n : ℕ} (h : s.length ≤ n) :
    iterate f n s = iterate f s.length s := by
  induction h with
  | refl => rfl
  | step h ih => rw [Nat.succ_eq_add_one, iterate_succ f h, ih]

/-- A quantifier, one iteration unfolded. -/
theorem rests_star : rests (star r) s =
    ((rests r s).filter fun rest => rest.length < s.length).flatMap (rests (star r)) ++ [s] := by
  change iterate (rests r) s.length s = _
  rw [← iterate_succ (rests r) (Nat.le_refl s.length), iterate]
  congr 1
  apply List.flatMap_congr
  intro rest hrest
  have hlt := of_decide_eq_true (List.mem_filter.mp hrest).2
  exact iterate_eq (rests r) (Nat.le_of_lt hlt)

theorem rests_star_char_cons (c : α) : rests (star (char p)) (c :: s) =
    (if p c then rests (star (char p)) s else []) ++ [c :: s] := by
  rw [rests_star, rests_char_cons]
  split_ifs
  · rw [List.filter_cons_of_pos (by simp), List.filter_nil, List.flatMap_singleton]
  · rfl

theorem rests_star_ne_nil : rests (star r) s ≠ [] := by
  rw [rests_star]
  exact List.append_ne_nil_of_right_ne_nil _ (List.cons_ne_nil _ _)

/-! ## The first way to match -/

@[simp] theorem first_char_nil : first (char p) [] = none := rfl

@[simp] theorem first_char_cons (c : α) : first (char p) (c :: s) = if p c then some s else none := by
  unfold first
  rw [rests_char_cons]
  split_ifs
  · rfl
  · rfl

theorem first_alt : first (alt r t) s = (first r s).or (first t s) := List.head?_append

@[simp] theorem first_seq_char_nil : first (seq (char p) t) [] = none := rfl

@[simp] theorem first_seq_char_cons (c : α) :
    first (seq (char p) t) (c :: s) = if p c then first t s else none := by
  unfold first
  rw [rests_seq, rests_char_cons]
  split_ifs
  · rw [List.flatMap_singleton]
  · rfl

theorem first_seq_opt : first (seq (opt r) t) s = (first (seq r t) s).or (first t s) := by
  unfold first
  rw [rests_seq, rests_opt, List.flatMap_append, List.head?_append, List.flatMap_singleton]
  rfl

theorem first_seq_seq : first (seq (seq r t) u) s = first (seq r (seq t u)) s := by
  unfold first
  rw [rests_seq, rests_seq, List.flatMap_assoc]
  rfl

theorem first_notAhead : first (notAhead r) s = if first r s = none then some s else none := by
  unfold first
  rw [rests_notAhead]
  by_cases hr : rests r s = []
  · rw [if_pos hr, if_pos (List.head?_eq_none_iff.mpr hr)]
    rfl
  · rw [if_neg hr, if_neg (mt List.head?_eq_none_iff.mp hr)]
    rfl

/-- Zero or more characters, and then something: the longest run first. -/
theorem first_seq_star_char_cons (c : α) : first (seq (star (char p)) t) (c :: s) =
    if p c then (first (seq (star (char p)) t) s).or (first t (c :: s)) else first t (c :: s) := by
  unfold first
  rw [rests_seq, rests_star_char_cons, List.flatMap_append, List.head?_append, List.flatMap_singleton]
  split_ifs
  · rfl
  · rfl

/-- A run of characters is matched to its end. -/
theorem first_star_char : first (star (char p)) s = some (s.dropWhile p) := by
  induction s with
  | nil => rfl
  | cons c s ih =>
      unfold first at ih ⊢
      rw [rests_star_char_cons, List.head?_append]
      by_cases hc : p c
      · rw [if_pos hc, ih, List.dropWhile_cons_of_pos hc]
        rfl
      · rw [if_neg hc, List.dropWhile_cons_of_neg hc]
        rfl

theorem first_plus_char_cons (c : α) :
    first (plus (char p)) (c :: s) = if p c then some (s.dropWhile p) else none := by
  unfold plus
  rw [first_seq_char_cons, first_star_char]

/-- What can always match follows what is matched first. -/
theorem first_seq_of_ne_nil (h : ∀ s, rests t s ≠ []) :
    first (seq r t) s = (first r s).bind (first t) := by
  unfold first
  rw [rests_seq]
  cases rests r s with
  | nil => rfl
  | cons rest others =>
      rw [List.flatMap_cons, List.head?_append, List.head?_cons, Option.bind_some]
      cases hrest : rests t rest with
      | nil => exact absurd hrest (h rest)
      | cons _ _ => rfl

/-! ## Leftmost matching -/

/-- The leftmost match: what is before it, what matches, and what is left. -/
def search (r : Regex α) : List α → Option (List α × List α × List α)
  | [] => (first r []).map fun rest => ([], [], rest)
  | c :: s =>
      match first r (c :: s) with
      | some rest => some ([], (c :: s).take ((c :: s).length - rest.length), rest)
      | none => (search r s).map fun (before, found, rest) => (c :: before, found, rest)

/-- The matches that leftmost matching finds one after the other, each with what is before
it, and what is left; one turn a character is enough for matches that move on. -/
def findAll (r : Regex α) : ℕ → List α → List (List α × List α) × List α
  | 0, s => ([], s)
  | fuel + 1, s =>
      match search r s with
      | none => ([], s)
      | some (before, found, rest) =>
          let others := findAll r fuel rest
          ((before, found) :: others.1, others.2)

/-- A match at the front is the leftmost one. -/
theorem search_of_first {k : ℕ} (hs : s ≠ []) (h : first r s = some (s.drop k)) (hk : k ≤ s.length) :
    search r s = some ([], s.take k, s.drop k) := by
  cases s with
  | nil => exact absurd rfl hs
  | cons c s =>
      unfold search
      rw [h]
      dsimp only
      rw [List.length_drop, Nat.sub_sub_self hk]

/-- What is matched first is what is left after a number of characters. -/
theorem findAll_cons {k fuel : ℕ} (hs : s ≠ []) (h : first r s = some (s.drop k)) (hk : k ≤ s.length) :
    findAll r (fuel + 1) s =
      (([], s.take k) :: (findAll r fuel (s.drop k)).1, (findAll r fuel (s.drop k)).2) := by
  rw [findAll, search_of_first hs h hk]

end Regex

end Qw3
