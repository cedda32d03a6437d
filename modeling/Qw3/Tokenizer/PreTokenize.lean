import Qw3.Lib.Regex
import Qw3.Tokenizer.Utf8

/-!
# The pre-tokenizer

`qwen_pre_tokenize` of `tokenizer.cpp`, and the regex that its comment documents.

* `pieceLength` — one turn of its loop; `qwenPreTokenize` — the pieces.
* `qwenRegex` — the alternation, with the same classes.
* `first_qwenRegex` — one turn finds what the regex matches first.
* `qwenPreTokenize_spec` — the pieces are the matches of the regex, one after the other.
-/

namespace Qw3.Tokenizer

/-- The tables of `qwen_unicode_tables.hpp`, for the code points that are not ASCII. -/
structure UnicodeClasses where
  letters : Cp → Bool
  marks : Cp → Bool
  numbers : Cp → Bool
  spaces : Cp → Bool
  letters_marks : ∀ cp, letters cp = true → marks cp = false
  letters_numbers : ∀ cp, letters cp = true → numbers cp = false
  letters_spaces : ∀ cp, letters cp = true → spaces cp = false
  marks_numbers : ∀ cp, marks cp = true → numbers cp = false
  marks_spaces : ∀ cp, marks cp = true → spaces cp = false
  numbers_spaces : ∀ cp, numbers cp = true → spaces cp = false

def asciiDigit (c : Cp) : Bool := 0x30 ≤ c ∧ c ≤ 0x39

def asciiAlpha (c : Cp) : Bool := (0x61 ≤ c ∧ c ≤ 0x7A) ∨ (0x41 ≤ c ∧ c ≤ 0x5A)

/-- A blank, a tab, a carriage return, a newline, a vertical tab or a form feed. -/
def asciiSpace (c : Cp) : Bool := c ∈ [0x20, 0x09, 0x0D, 0x0A, 0x0B, 0x0C]

section Classes

variable (u : UnicodeClasses)

def cpIsLetter (cp : Cp) : Bool := if cp < 0x80 then asciiAlpha cp else u.letters cp

def cpIsNumber (cp : Cp) : Bool := if cp < 0x80 then asciiDigit cp else u.numbers cp

def cpIsMark (cp : Cp) : Bool := if cp < 0x80 then false else u.marks cp

def cpIsSpace (cp : Cp) : Bool := if cp < 0x80 then asciiSpace cp else u.spaces cp

def cpIsLetterOrMark (cp : Cp) : Bool := cpIsLetter u cp || cpIsMark u cp

/-- What is no space, letter, mark or number. -/
def cpIsSymbol (cp : Cp) : Bool := !cpIsSpace u cp && !cpIsLetterOrMark u cp && !cpIsNumber u cp

/-- A carriage return or a newline. -/
def cpIsNewline (cp : Cp) : Bool := cp = 0x0D || cp = 0x0A

/-! ## The loop -/

/-- `fold`: the letter that a code point is compared as; `0` for none. -/
def fold (c : Cp) : Cp :=
  if c = 0x017F then 0x73
  else if c < 0x80 then (if 0x41 ≤ c ∧ c ≤ 0x5A then c + 0x20 else c)
  else 0

/-- `cp(pos + i)`, where `rest` is the text from `pos` on. -/
def cpAt (rest : List Cp) (i : ℕ) : Cp := rest.getD i 0xFFFFFFFF

/-- A class, at `pos + i`. -/
def isAt (p : Cp → Bool) (rest : List Cp) (i : ℕ) : Bool := i < rest.length && p (cpAt rest i)

/-- `while (p(pos)) ++pos`: how far it goes. -/
def runLength (p : Cp → Bool) (rest : List Cp) : ℕ := (rest.takeWhile p).length

/-- The length of an English contraction; `0` where there is none. -/
def contractionLength (rest : List Cp) : ℕ :=
  if cpAt rest 0 = 0x27 ∧ 1 < rest.length then
    let a := fold (cpAt rest 1)
    let b := if 2 < rest.length then fold (cpAt rest 2) else 0
    if a = 0x73 ∨ a = 0x74 ∨ a = 0x6D ∨ a = 0x64 then 2
    else if (a = 0x72 ∧ b = 0x65) ∨ (a = 0x76 ∧ b = 0x65) ∨ (a = 0x6C ∧ b = 0x6C) then 3
    else 0
  else 0

/-- The loop over the white space: its length, and the end of the last newline in it, or
`0`. -/
def scanWhitespace : List Cp → ℕ → ℕ → ℕ × ℕ
  | [], whitespace, last => (whitespace, last)
  | w :: rest, whitespace, last =>
      if cpIsSpace u w then
        scanWhitespace rest (whitespace + 1) (if cpIsNewline w then whitespace + 1 else last)
      else (whitespace, last)

/-- One turn of the loop: the length of the next piece. -/
def pieceLength (rest : List Cp) : ℕ :=
  let c0 := cpAt rest 0
  if contractionLength rest ≠ 0 then contractionLength rest
  -- an optional joiner and letters or marks
  else if c0 ≠ 0x0D ∧ c0 ≠ 0x0A ∧ ¬ isAt (cpIsNumber u) rest 0 ∧
      (isAt (cpIsLetterOrMark u) rest 0 ∨ isAt (cpIsLetterOrMark u) rest 1) then
    1 + runLength (cpIsLetterOrMark u) (rest.drop 1)
  else if isAt (cpIsNumber u) rest 0 then 1
  else
    -- an optional blank, symbols and newlines
    let punct := if c0 = 0x20 then 1 else 0
    if isAt (cpIsSymbol u) rest punct then
      let stop := punct + runLength (cpIsSymbol u) (rest.drop punct)
      stop + runLength cpIsNewline (rest.drop stop)
    else
      let (whitespace, lastNewlineEnd) := scanWhitespace u rest 0 0
      if lastNewlineEnd > 0 then lastNewlineEnd
      -- the last blank before more text is left to the next piece
      else if whitespace > 1 ∧ whitespace < rest.length then whitespace - 1
      else if whitespace > 0 then whitespace
      else 1

/-- `add_piece`: the bytes of code points that lie side by side, if there are any. -/
def addPiece (text : Bytes) (group : List Codepoint) : List Bytes :=
  match group.head?, group.getLast? with
  | some first, some last => [substr text first.byteBegin last.byteEnd]
  | _, _ => []

/-- The loop, over the code points that are left. -/
def piecesOf (text : Bytes) : ℕ → List Codepoint → List Bytes
  | 0, _ => []
  | fuel + 1, rest =>
      match rest with
      | [] => []
      | c :: cs =>
          let length := pieceLength u ((c :: cs).map Codepoint.value)
          addPiece text ((c :: cs).take length) ++ piecesOf text fuel ((c :: cs).drop length)

/-- `qwen_pre_tokenize`; each turn moves on, so that as many turns as there are code points
are enough. -/
def qwenPreTokenize (text : Bytes) : List Bytes :=
  piecesOf u text (codepoints text).length (codepoints text)

/-! ## The regex -/

open Regex

/-- A letter, whatever its case is. -/
def caseless (letter : Cp) : Regex Cp := char fun c => fold c = letter

/-- `(?i:'s|'t|'re|'ve|'m|'ll|'d)` -/
def contractions : Regex Cp :=
  seq (char (· = 0x27)) (alt (caseless 0x73) (alt (caseless 0x74)
    (alt (seq (caseless 0x72) (caseless 0x65)) (alt (seq (caseless 0x76) (caseless 0x65))
      (alt (caseless 0x6D) (alt (seq (caseless 0x6C) (caseless 0x6C)) (caseless 0x64)))))))

/-- `[^\r\n\p{L}\p{N}]?[\p{L}\p{M}]+` -/
def words : Regex Cp :=
  seq (opt (char fun c => !cpIsNewline c && !cpIsLetter u c && !cpIsNumber u c))
    (plus (char (cpIsLetterOrMark u)))

/-- `\p{N}` -/
def numbers : Regex Cp := char (cpIsNumber u)

/-- ` ?[^\s\p{L}\p{M}\p{N}]+[\r\n]*` -/
def symbols : Regex Cp :=
  seq (opt (char (· = 0x20))) (seq (plus (char (cpIsSymbol u))) (star (char cpIsNewline)))

/-- `\s*[\r\n]+` -/
def newlines : Regex Cp := seq (star (char (cpIsSpace u))) (plus (char cpIsNewline))

/-- `\s+(?!\S)` -/
def trailing : Regex Cp :=
  seq (plus (char (cpIsSpace u))) (notAhead (char fun c => !cpIsSpace u c))

/-- `\s+` -/
def whitespace : Regex Cp := plus (char (cpIsSpace u))

/-- The regex of the pre-tokenizer. -/
def qwenRegex : Regex Cp :=
  alt contractions (alt (words u) (alt (numbers u) (alt (symbols u) (alt (newlines u)
    (alt (trailing u) (whitespace u))))))

/-! ## The classes -/

variable {u} {c : Cp} {s rest : List Cp}

theorem cpIsSpace_of_newline (h : cpIsNewline c = true) : cpIsSpace u c = true := by
  unfold cpIsNewline at h
  rw [Bool.or_eq_true, decide_eq_true_eq, decide_eq_true_eq] at h
  rcases h with rfl | rfl
  · rfl
  · rfl

theorem cpIsNumber_of_letterOrMark (h : cpIsLetterOrMark u c = true) : cpIsNumber u c = false := by
  unfold cpIsLetterOrMark cpIsLetter cpIsMark at h
  unfold cpIsNumber
  split_ifs at h ⊢ with hascii
  · rw [Bool.or_false] at h
    have halpha := of_decide_eq_true h
    apply decide_eq_false
    bv_omega
  · rcases Bool.or_eq_true _ _ ▸ h with h | h
    · exact u.letters_numbers c h
    · exact u.marks_numbers c h

theorem cpIsLetterOrMark_of_newline (h : cpIsNewline c = true) : cpIsLetterOrMark u c = false := by
  unfold cpIsNewline at h
  rw [Bool.or_eq_true, decide_eq_true_eq, decide_eq_true_eq] at h
  rcases h with rfl | rfl
  · rfl
  · rfl

theorem cpIsSymbol_blank : cpIsSymbol u 0x20 = false := rfl

/-! ## Places in a text -/

@[simp] theorem cpAt_zero : cpAt (c :: s) 0 = c := rfl

@[simp] theorem cpAt_succ (i : ℕ) : cpAt (c :: s) (i + 1) = cpAt s i := rfl

@[simp] theorem isAt_zero (p : Cp → Bool) : isAt p (c :: s) 0 = p c := by
  unfold isAt
  rw [cpAt_zero, decide_eq_true (by simp), Bool.true_and]

@[simp] theorem isAt_succ (p : Cp → Bool) (i : ℕ) : isAt p (c :: s) (i + 1) = isAt p s i := by
  unfold isAt
  rw [cpAt_succ, List.length_cons]
  simp only [Nat.add_lt_add_iff_right]

@[simp] theorem isAt_nil (p : Cp → Bool) (i : ℕ) : isAt p [] i = false := rfl

theorem dropWhile_eq_drop (p : Cp → Bool) (s : List Cp) : s.dropWhile p = s.drop (runLength p s) := by
  unfold runLength
  induction s with
  | nil => rfl
  | cons c s ih =>
      by_cases hc : p c = true
      · rw [List.dropWhile_cons_of_pos hc, List.takeWhile_cons_of_pos hc, ih]
        rfl
      · rw [List.dropWhile_cons_of_neg hc, List.takeWhile_cons_of_neg hc]
        rfl

theorem runLength_le (p : Cp → Bool) (s : List Cp) : runLength p s ≤ s.length :=
  (List.takeWhile_sublist p).length_le

/-- One or more characters of a class, at a place. -/
theorem first_plus (p : Cp → Bool) (s : List Cp) :
    first (plus (char p)) s = if isAt p s 0 then some (s.dropWhile p) else none := by
  cases s with
  | nil => rfl
  | cons c s =>
      rw [first_plus_char_cons, isAt_zero]
      split_ifs with hc
      · rw [List.dropWhile_cons_of_pos hc]
      · rfl

/-! ## The alternatives, one by one -/

theorem contractionLength_of_ne (h : c ≠ 0x27) : contractionLength (c :: s) = 0 := by
  unfold contractionLength
  rw [cpAt_zero, if_neg fun hquote => h hquote.1]

/-- The length of a contraction, from the letters after the quote. -/
theorem contractionLength_quote (s : List Cp) : contractionLength (0x27 :: s) =
    match s with
    | [] => 0
    | a :: s =>
        if fold a = 0x73 ∨ fold a = 0x74 ∨ fold a = 0x6D ∨ fold a = 0x64 then 2
        else match s with
          | [] => 0
          | b :: _ => if (fold a = 0x72 ∧ fold b = 0x65) ∨ (fold a = 0x76 ∧ fold b = 0x65) ∨
              (fold a = 0x6C ∧ fold b = 0x6C) then 3 else 0 := by
  unfold contractionLength
  rw [cpAt_zero, cpAt_succ]
  cases s with
  | nil => rfl
  | cons a s =>
      rw [if_pos ⟨rfl, by simp⟩, cpAt_zero, cpAt_succ, cpAt_succ]
      dsimp only
      by_cases htwo : fold a = 0x73 ∨ fold a = 0x74 ∨ fold a = 0x6D ∨ fold a = 0x64
      · rw [if_pos htwo, if_pos htwo]
      · rw [if_neg htwo, if_neg htwo]
        cases s with
        | nil => simp
        | cons b s => simp

theorem contractionLength_le (rest : List Cp) : contractionLength rest ≤ rest.length := by
  cases rest with
  | nil => rfl
  | cons c s =>
      by_cases hquote : c = 0x27
      · rw [hquote, contractionLength_quote]
        rcases s with - | ⟨a, - | ⟨b, s⟩⟩
        · exact Nat.zero_le _
        · dsimp only
          split_ifs
          · exact le_refl 2
          · exact Nat.zero_le _
        · dsimp only
          split_ifs
          · exact Nat.le_add_left 2 _
          · exact Nat.le_add_left 3 _
          · exact Nat.zero_le _
      · rw [contractionLength_of_ne hquote]
        exact Nat.zero_le _

theorem first_contractions (rest : List Cp) : first contractions rest =
    if contractionLength rest ≠ 0 then some (rest.drop (contractionLength rest)) else none := by
  cases rest with
  | nil => rfl
  | cons c s =>
      unfold contractions caseless
      rw [first_seq_char_cons]
      by_cases hquote : c = 0x27
      · rw [hquote, contractionLength_quote, if_pos (by decide)]
        simp only [first_alt]
        rcases s with - | ⟨a, - | ⟨b, s⟩⟩
        · rfl
        · simp only [first_char_cons, first_seq_char_cons, first_char_nil, decide_eq_true_eq, ite_self]
          generalize fold a = x
          by_cases hx : x = 0x73 ∨ x = 0x74 ∨ x = 0x6D ∨ x = 0x64
          · rw [if_pos hx]
            rcases hx with rfl | rfl | rfl | rfl
            · rfl
            · rfl
            · rfl
            · rfl
          · rw [if_neg hx]
            simp only [not_or] at hx
            rw [if_neg hx.1, if_neg hx.2.1, if_neg hx.2.2.1, if_neg hx.2.2.2]
            rfl
        · simp only [first_char_cons, first_seq_char_cons, decide_eq_true_eq]
          generalize fold a = x
          generalize fold b = y
          by_cases hx : x = 0x73 ∨ x = 0x74 ∨ x = 0x6D ∨ x = 0x64
          · rw [if_pos hx]
            rcases hx with rfl | rfl | rfl | rfl
            · rfl
            · rfl
            · rfl
            · rfl
          · rw [if_neg hx]
            by_cases hxy : (x = 0x72 ∧ y = 0x65) ∨ (x = 0x76 ∧ y = 0x65) ∨ (x = 0x6C ∧ y = 0x6C)
            · rw [if_pos hxy]
              rcases hxy with ⟨rfl, rfl⟩ | ⟨rfl, rfl⟩ | ⟨rfl, rfl⟩
              · rfl
              · rfl
              · rfl
            · rw [if_neg hxy]
              simp only [not_or, not_and] at hx hxy
              simp only [hx, if_false, Option.none_or]
              split_ifs with h₁ h₂ h₃ h₄ h₅ h₆
              all_goals simp_all
      · rw [contractionLength_of_ne hquote, if_neg (by rwa [decide_eq_true_eq])]
        rfl

/-- The first match of the words, in closed form. -/
theorem first_words (rest : List Cp) : first (words u) rest =
    if cpAt rest 0 ≠ 0x0D ∧ cpAt rest 0 ≠ 0x0A ∧ ¬ isAt (cpIsNumber u) rest 0 ∧
      (isAt (cpIsLetterOrMark u) rest 0 ∨ isAt (cpIsLetterOrMark u) rest 1) then
      some (rest.drop (1 + runLength (cpIsLetterOrMark u) (rest.drop 1)))
    else none := by
  cases rest with
  | nil => rfl
  | cons c s =>
      unfold words
      rw [first_seq_opt, first_seq_char_cons, first_plus, first_plus, cpAt_zero, isAt_zero, isAt_zero,
        isAt_succ, List.drop_succ_cons, List.drop_zero, Nat.add_comm 1, List.drop_succ_cons,
        ← dropWhile_eq_drop]
      by_cases hc : cpIsLetterOrMark u c = true
      · -- the letters begin here, with or without a mark as the joiner
        have hnewline : cpIsNewline c = false := by
          rw [Bool.eq_false_iff]
          intro h
          rw [cpIsLetterOrMark_of_newline h] at hc
          cases hc
        have hnumber := cpIsNumber_of_letterOrMark hc
        unfold cpIsNewline at hnewline
        rw [Bool.or_eq_false_iff, decide_eq_false_iff_not, decide_eq_false_iff_not] at hnewline
        have hcond : c ≠ 0x0D ∧ c ≠ 0x0A ∧ ¬ cpIsNumber u c = true ∧
            (cpIsLetterOrMark u c = true ∨ isAt (cpIsLetterOrMark u) s 0 = true) :=
          ⟨hnewline.1, hnewline.2, by rw [hnumber]; decide, Or.inl hc⟩
        rw [if_pos hc, if_pos hcond, List.dropWhile_cons_of_pos hc]
        split_ifs
        · rfl
        · rfl
        · rfl
      · rw [if_neg hc, Option.or_none]
        have hletter : cpIsLetter u c = false := by
          unfold cpIsLetterOrMark at hc
          rw [Bool.not_eq_true, Bool.or_eq_false_iff] at hc
          exact hc.1
        rw [← ite_and]
        apply if_congr _ rfl rfl
        unfold cpIsNewline
        rw [hletter]
        simp only [Bool.and_eq_true, Bool.not_eq_true', Bool.or_eq_false_iff, decide_eq_false_iff_not,
          hc, Bool.false_eq_true, false_or, Bool.not_eq_true, and_assoc, true_and, Bool.not_false, ne_eq]

/-- The first match of the symbols, in closed form. -/
theorem first_symbols (rest : List Cp) : first (symbols u) rest =
    let punct := if cpAt rest 0 = 0x20 then 1 else 0
    if isAt (cpIsSymbol u) rest punct then
      let stop := punct + runLength (cpIsSymbol u) (rest.drop punct)
      some (rest.drop (stop + runLength cpIsNewline (rest.drop stop)))
    else none := by
  have hrun : ∀ s, first (seq (plus (char (cpIsSymbol u))) (star (char cpIsNewline))) s =
      if isAt (cpIsSymbol u) s 0 then some ((s.dropWhile (cpIsSymbol u)).dropWhile cpIsNewline) else none := by
    intro s
    rw [first_seq_of_ne_nil fun s => rests_star_ne_nil, first_plus]
    split_ifs
    · exact first_star_char
    · rfl
  cases rest with
  | nil => rfl
  | cons c s =>
      unfold symbols
      rw [first_seq_opt, first_seq_char_cons, hrun, hrun, cpAt_zero, isAt_zero]
      dsimp only
      by_cases hblank : c = 0x20
      · have hsymbol : ¬ cpIsSymbol u c = true := by
          rw [hblank, cpIsSymbol_blank]
          decide
        rw [if_pos (decide_eq_true hblank), if_neg hsymbol, Option.or_none, if_pos hblank, isAt_succ]
        apply if_congr Iff.rfl _ rfl
        rw [List.drop_succ_cons, List.drop_zero, Nat.add_comm 1, Nat.add_right_comm, List.drop_succ_cons,
          List.drop_succ_cons, dropWhile_eq_drop, dropWhile_eq_drop, List.drop_drop]
      · rw [if_neg (by rwa [decide_eq_true_eq]), Option.none_or, if_neg hblank, isAt_zero]
        apply if_congr Iff.rfl _ rfl
        rw [List.drop_zero, Nat.zero_add, dropWhile_eq_drop, dropWhile_eq_drop, List.drop_drop]

/-- The loop over the white space finds the longest white space that ends in newlines. -/
theorem first_newlines_scan (rest : List Cp) (w l : ℕ) :
    (first (newlines u) rest = none ∧ (scanWhitespace u rest w l).2 = l) ∨
      ∃ k, 0 < k ∧ k ≤ rest.length ∧ first (newlines u) rest = some (rest.drop k) ∧
        (scanWhitespace u rest w l).2 = w + k := by
  unfold newlines
  induction rest generalizing w l with
  | nil => exact Or.inl ⟨rfl, rfl⟩
  | cons c s ih =>
      rw [first_seq_star_char_cons, first_plus_char_cons]
      unfold scanWhitespace
      by_cases hspace : cpIsSpace u c = true
      · rw [if_pos hspace, if_pos hspace]
        rcases ih (w + 1) (if cpIsNewline c = true then w + 1 else l) with
          ⟨hnone, hscan⟩ | ⟨k, hk, hle, hsome, hscan⟩
        · rw [hnone, hscan, Option.none_or]
          by_cases hnewline : cpIsNewline c = true
          · -- no newline follows, or the rest would match
            have hrest : s.dropWhile cpIsNewline = s := by
              cases s with
              | nil => rfl
              | cons c' s =>
                  rw [List.dropWhile_cons_of_neg]
                  intro hnext
                  rw [first_seq_star_char_cons, if_pos (cpIsSpace_of_newline hnext), first_plus_char_cons,
                    if_pos hnext] at hnone
                  exact absurd (Option.or_eq_none_iff.mp hnone).2 (by exact Option.some_ne_none _)
            rw [if_pos hnewline, if_pos hnewline, hrest]
            exact Or.inr ⟨1, Nat.zero_lt_one, by simp, rfl, rfl⟩
          · rw [if_neg hnewline, if_neg hnewline]
            exact Or.inl ⟨rfl, rfl⟩
        · rw [hsome, hscan]
          refine Or.inr ⟨k + 1, Nat.succ_pos k, ?_, rfl, by omega⟩
          rw [List.length_cons]
          omega
      · have hnewline : ¬ cpIsNewline c = true := fun h => hspace (cpIsSpace_of_newline h)
        rw [if_neg hspace, if_neg hspace, if_neg hnewline]
        exact Or.inl ⟨rfl, rfl⟩

theorem scanWhitespace_fst (rest : List Cp) (w l : ℕ) :
    (scanWhitespace u rest w l).1 = w + runLength (cpIsSpace u) rest := by
  unfold runLength
  induction rest generalizing w l with
  | nil => rfl
  | cons c s ih =>
      unfold scanWhitespace
      by_cases hspace : cpIsSpace u c = true
      · rw [if_pos hspace, ih, List.takeWhile_cons_of_pos hspace, List.length_cons]
        omega
      · rw [if_neg hspace, List.takeWhile_cons_of_neg hspace]
        rfl

/-- White space that is not followed by text: all of it at the end, else all but the last
blank. -/
theorem first_star_space (s : List Cp) :
    first (seq (star (char (cpIsSpace u))) (notAhead (char fun c => !cpIsSpace u c))) s =
      if runLength (cpIsSpace u) s = s.length then some []
      else if runLength (cpIsSpace u) s = 0 then none
      else some (s.drop (runLength (cpIsSpace u) s - 1)) := by
  unfold runLength
  induction s with
  | nil => rfl
  | cons c s ih =>
      rw [first_seq_star_char_cons, first_notAhead, first_char_cons]
      by_cases hspace : cpIsSpace u c = true
      · have hle := runLength_le (cpIsSpace u) s
        unfold runLength at hle
        rw [if_pos hspace, ih, List.takeWhile_cons_of_pos hspace, List.length_cons, List.length_cons, hspace]
        generalize (s.takeWhile (cpIsSpace u)).length = run at hle ⊢
        by_cases hall : run = s.length
        · rw [if_pos hall, if_pos (congrArg (· + 1) hall)]
          rfl
        · have hmore : ¬ run + 1 = s.length + 1 := fun h => hall (Nat.succ.inj h)
          rw [if_neg hall, if_neg hmore, if_neg (Nat.succ_ne_zero run)]
          cases run with
          | zero => rfl
          | succ run => rfl
      · rw [if_neg hspace, List.takeWhile_cons_of_neg hspace]
        rw [Bool.not_eq_true] at hspace
        rw [hspace]
        rfl

theorem runLength_pos {p : Cp → Bool} {k : ℕ} (h : isAt p rest k = true) :
    0 < runLength p (rest.drop k) := by
  unfold isAt at h
  rw [Bool.and_eq_true, decide_eq_true_eq] at h
  obtain ⟨hlt, hp⟩ := h
  unfold cpAt at hp
  rw [List.getD_eq_getElem _ _ hlt] at hp
  unfold runLength
  rw [List.drop_eq_getElem_cons hlt, List.takeWhile_cons_of_pos hp]
  exact Nat.succ_pos _

/-- What begins no word, is no number and begins no symbols is white space. -/
theorem space_of_not
    (hword : ¬ (cpAt (c :: s) 0 ≠ 0x0D ∧ cpAt (c :: s) 0 ≠ 0x0A ∧ ¬ isAt (cpIsNumber u) (c :: s) 0 = true ∧
      (isAt (cpIsLetterOrMark u) (c :: s) 0 = true ∨ isAt (cpIsLetterOrMark u) (c :: s) 1 = true)))
    (hnumber : ¬ cpIsNumber u c = true)
    (hsymbol : ¬ isAt (cpIsSymbol u) (c :: s) (if cpAt (c :: s) 0 = 0x20 then 1 else 0) = true) :
    cpIsSpace u c = true := by
  rw [cpAt_zero, isAt_zero, isAt_zero] at hword
  rw [cpAt_zero] at hsymbol
  by_cases hblank : c = 0x20
  · rw [hblank]
    rfl
  · rw [if_neg hblank, isAt_zero] at hsymbol
    by_contra hspace
    by_cases hletter : cpIsLetterOrMark u c = true
    · refine hword ⟨?_, ?_, hnumber, Or.inl hletter⟩
      · rintro rfl
        exact hspace rfl
      · rintro rfl
        exact hspace rfl
    · rw [Bool.not_eq_true] at hspace hletter hnumber
      apply hsymbol
      unfold cpIsSymbol
      rw [hspace, hletter, hnumber]
      rfl

/-- **One turn of the loop finds what the regex matches first.** -/
theorem first_qwenRegex (hrest : rest ≠ []) :
    0 < pieceLength u rest ∧ pieceLength u rest ≤ rest.length ∧
      first (qwenRegex u) rest = some (rest.drop (pieceLength u rest)) := by
  obtain ⟨c, s, rfl⟩ := List.exists_cons_of_ne_nil hrest
  unfold qwenRegex pieceLength
  simp only [first_alt]
  rw [first_contractions, first_words, first_symbols]
  by_cases hcontraction : contractionLength (c :: s) ≠ 0
  · rw [if_pos hcontraction, if_pos hcontraction]
    exact ⟨Nat.pos_of_ne_zero hcontraction, contractionLength_le _, rfl⟩
  rw [if_neg hcontraction, if_neg hcontraction, Option.none_or]
  by_cases hword : cpAt (c :: s) 0 ≠ 0x0D ∧ cpAt (c :: s) 0 ≠ 0x0A ∧ ¬ isAt (cpIsNumber u) (c :: s) 0 ∧
      (isAt (cpIsLetterOrMark u) (c :: s) 0 ∨ isAt (cpIsLetterOrMark u) (c :: s) 1)
  · rw [if_pos hword, if_pos hword]
    have hrun := runLength_le (cpIsLetterOrMark u) s
    refine ⟨Nat.lt_add_right _ Nat.zero_lt_one, ?_, rfl⟩
    rw [List.drop_succ_cons, List.drop_zero, List.length_cons]
    omega
  rw [if_neg hword, if_neg hword, Option.none_or]
  unfold numbers
  rw [first_char_cons, isAt_zero]
  by_cases hnumber : cpIsNumber u c = true
  · rw [if_pos hnumber, if_pos hnumber]
    exact ⟨Nat.zero_lt_one, Nat.succ_le_succ (Nat.zero_le _), rfl⟩
  rw [if_neg hnumber, if_neg hnumber, Option.none_or]
  dsimp only
  by_cases hsymbol : isAt (cpIsSymbol u) (c :: s) (if cpAt (c :: s) 0 = 0x20 then 1 else 0) = true
  · rw [if_pos hsymbol, if_pos hsymbol]
    generalize (if cpAt (c :: s) 0 = 0x20 then 1 else 0) = punct at hsymbol ⊢
    have hpos := runLength_pos hsymbol
    have hrun := runLength_le (cpIsSymbol u) ((c :: s).drop punct)
    have hrun' := runLength_le cpIsNewline
      ((c :: s).drop (punct + runLength (cpIsSymbol u) ((c :: s).drop punct)))
    rw [List.length_drop] at hrun hrun'
    exact ⟨by omega, by omega, rfl⟩
  rw [if_neg hsymbol, if_neg hsymbol, Option.none_or]
  have hspace : cpIsSpace u c = true := space_of_not hword hnumber hsymbol
  have hlast := first_newlines_scan (u := u) (c :: s) 0 0
  have hwhitespace := scanWhitespace_fst (u := u) (c :: s) 0 0
  generalize scanWhitespace u (c :: s) 0 0 = scanned at hlast hwhitespace
  rcases hlast with ⟨hnone, hscan⟩ | ⟨k, hk, hle, hsome, hscan⟩
  · have hrun : runLength (cpIsSpace u) (c :: s) = runLength (cpIsSpace u) s + 1 := by
      unfold runLength
      rw [List.takeWhile_cons_of_pos hspace, List.length_cons]
    have hle := runLength_le (cpIsSpace u) s
    have hwhole : first (plus (char (cpIsSpace u))) (c :: s) =
        some (s.drop (runLength (cpIsSpace u) s)) := by
      rw [first_plus_char_cons, if_pos hspace, dropWhile_eq_drop]
    unfold trailing whitespace
    rw [hnone, hscan, if_neg (Nat.lt_irrefl 0), Option.none_or, hwhitespace, hrun, hwhole]
    unfold plus
    rw [first_seq_seq, first_seq_char_cons, if_pos hspace, first_star_space, List.length_cons]
    generalize runLength (cpIsSpace u) s = run at hle ⊢
    rw [Nat.zero_add]
    by_cases hall : run = s.length
    · -- the text ends with the white space
      have hlast : ¬ (run + 1 > 1 ∧ run + 1 < s.length + 1) := by
        omega
      rw [if_pos hall, if_neg hlast, if_pos (Nat.succ_pos run), hall]
      refine ⟨Nat.succ_pos _, le_rfl, ?_⟩
      rw [List.drop_succ_cons, List.drop_length]
      rfl
    · rw [if_neg hall]
      by_cases hone : run = 0
      · rw [if_pos hone, hone, if_neg (fun h => absurd h.1 (by decide)), if_pos Nat.zero_lt_one]
        exact ⟨Nat.zero_lt_one, Nat.succ_le_succ (Nat.zero_le _), rfl⟩
      · rw [if_neg hone, if_pos (by omega)]
        refine ⟨by omega, by omega, ?_⟩
        obtain ⟨k, rfl⟩ := Nat.exists_eq_succ_of_ne_zero hone
        rfl
  · rw [hsome, hscan, Nat.zero_add, if_pos hk]
    exact ⟨hk, hle, rfl⟩

/-! ## The pieces -/

theorem addPiece_of_tiles (text : Bytes) {pos stop : ℕ} {group : List Codepoint}
    (h : Tiles pos group stop) (hne : group ≠ []) : addPiece text group = [substr text pos stop] := by
  have hlast : ∀ {pos : ℕ} {group : List Codepoint}, Tiles pos group stop → group ≠ [] →
      ∃ last, group.getLast? = some last ∧ last.byteEnd = stop := by
    intro pos group h hne
    induction group generalizing pos with
    | nil => exact absurd rfl hne
    | cons c cs ih =>
        cases cs with
        | nil => exact ⟨c, rfl, h.2.2⟩
        | cons d cs =>
            obtain ⟨last, hlast, hend⟩ := ih h.2.2 (List.cons_ne_nil _ _)
            exact ⟨last, by rw [List.getLast?_cons_cons, hlast], hend⟩
  obtain ⟨last, hget, hend⟩ := hlast h hne
  obtain ⟨c, cs, rfl⟩ := List.exists_cons_of_ne_nil hne
  unfold addPiece
  rw [hget, List.head?_cons]
  dsimp only
  rw [hend, h.1]

theorem piecesOf_cons (text : Bytes) (fuel : ℕ) (c : Codepoint) (cs : List Codepoint) :
    piecesOf u text (fuel + 1) (c :: cs) =
      addPiece text ((c :: cs).take (pieceLength u ((c :: cs).map Codepoint.value))) ++
        piecesOf u text fuel ((c :: cs).drop (pieceLength u ((c :: cs).map Codepoint.value))) := rfl

theorem first_qwenRegex_nil : first (qwenRegex u) [] = none := rfl

/-- The loop, from a place on. -/
theorem piecesOf_spec {text : Bytes} {pos fuel : ℕ} {cps : List Codepoint}
    (htiles : Tiles pos cps text.length) (hfuel : cps.length ≤ fuel) :
    ∃ groups : List (List Codepoint),
      findAll (qwenRegex u) fuel (cps.map Codepoint.value) =
        (groups.map fun group => ([], group.map Codepoint.value), []) ∧
      groups.flatten = cps ∧ (∀ group ∈ groups, group ≠ []) ∧
      piecesOf u text fuel cps = groups.flatMap (addPiece text) ∧
      (piecesOf u text fuel cps).flatten = substr text pos text.length ∧
      ∀ piece ∈ piecesOf u text fuel cps, piece ≠ [] := by
  induction fuel generalizing pos cps with
  | zero =>
      have hnil : cps = [] := List.length_eq_zero_iff.mp (Nat.le_zero.mp hfuel)
      subst hnil
      have hpos : pos = text.length := htiles
      refine ⟨[], rfl, rfl, fun _ h => absurd h List.not_mem_nil, rfl, ?_,
        fun _ h => absurd h List.not_mem_nil⟩
      unfold substr
      rw [hpos, Nat.sub_self, List.take_zero]
      rfl
  | succ fuel ih =>
      cases cps with
      | nil =>
          have hpos : pos = text.length := htiles
          refine ⟨[], ?_, rfl, fun _ h => absurd h List.not_mem_nil, rfl, ?_,
            fun _ h => absurd h List.not_mem_nil⟩
          · rw [List.map_nil, findAll, search, first_qwenRegex_nil]
            rfl
          · unfold substr
            rw [hpos, Nat.sub_self, List.take_zero]
            rfl
      | cons c cs =>
          have hne : (c :: cs).map Codepoint.value ≠ [] := List.cons_ne_nil _ _
          obtain ⟨hk, hle, hfirst⟩ := first_qwenRegex (u := u) hne
          rw [piecesOf_cons]
          generalize pieceLength u ((c :: cs).map Codepoint.value) = k at hk hle hfirst ⊢
          rw [List.length_map] at hle
          have hgroup : (c :: cs).take k ≠ [] := by
            rw [Ne, List.take_eq_nil_iff, not_or]
            exact ⟨hk.ne', List.cons_ne_nil _ _⟩
          obtain ⟨middle, htaken, hdropped⟩ :=
            Tiles.of_append ((List.take_append_drop k (c :: cs)).symm ▸ htiles)
          obtain ⟨groups, hfind, hflatten, hgroups, hpieces, htext, hnonempty⟩ :=
            ih hdropped (by rw [List.length_drop]; omega)
          have hpiece := addPiece_of_tiles text htaken hgroup
          refine ⟨(c :: cs).take k :: groups, ?_, ?_, ?_, ?_, ?_, ?_⟩
          · rw [findAll_cons hne hfirst (by rwa [List.length_map]), ← List.map_drop, hfind,
              ← List.map_take, List.map_cons]
          · rw [List.flatten_cons, hflatten, List.take_append_drop]
          · exact List.forall_mem_cons.mpr ⟨hgroup, hgroups⟩
          · rw [List.flatMap_cons, hpieces]
          · rw [List.flatten_append, hpiece, htext, List.flatten_singleton,
              substr_append htaken.le hdropped.le]
          · rw [hpiece, List.singleton_append, List.forall_mem_cons]
            refine ⟨?_, hnonempty⟩
            intro hnil
            have hlength := @length_substr text pos _ hdropped.le
            rw [hnil, List.length_nil] at hlength
            have hlt := htaken.lt hgroup
            omega

/-- **The pre-tokenizer is its regex**: the pieces are not empty and make up the text, and
on the code points they are the matches that leftmost matching finds one after the other,
with nothing between them. -/
theorem qwenPreTokenize_spec (u : UnicodeClasses) (text : Bytes) :
    (∀ piece ∈ qwenPreTokenize u text, piece ≠ []) ∧ (qwenPreTokenize u text).flatten = text ∧
      ∃ groups : List (List Codepoint), groups.flatten = codepoints text ∧
        (∀ group ∈ groups, group ≠ []) ∧ qwenPreTokenize u text = groups.flatMap (addPiece text) ∧
        findAll (qwenRegex u) (codepoints text).length ((codepoints text).map Codepoint.value) =
          (groups.map fun group => ([], group.map Codepoint.value), []) := by
  obtain ⟨groups, hfind, hflatten, hgroups, hpieces, htext, hnonempty⟩ :=
    piecesOf_spec (u := u) (tiles_codepoints text) le_rfl
  refine ⟨hnonempty, ?_, groups, hflatten, hgroups, hpieces, hfind⟩
  unfold qwenPreTokenize
  rw [htext]
  unfold substr
  rw [List.drop_zero, Nat.sub_zero, List.take_length]

/-- Tables without a code point: only ASCII is classified. -/
def UnicodeClasses.ascii : UnicodeClasses where
  letters _ := false
  marks _ := false
  numbers _ := false
  spaces _ := false
  letters_marks _ _ := rfl
  letters_numbers _ _ := rfl
  letters_spaces _ _ := rfl
  marks_numbers _ _ := rfl
  marks_spaces _ _ := rfl
  numbers_spaces _ _ := rfl

example : qwenPreTokenize .ascii (bytes "a  +  b's 12\n") =
    ["a", " ", " +", " ", " b", "'s", " ", "1", "2", "\n"].map bytes := by decide

end Classes

end Qw3.Tokenizer
