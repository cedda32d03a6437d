import Mathlib.Data.List.DropRight
import Qw3.Lib.Search
import Qw3.Lib.Text
import Qw3.Stream.Bytes

/-!
# The summary of a thinking block

`thinking_compaction.hpp`: a summary is generated piece by piece.  Each piece is
checked against the end of the text so far, and the text is checked once more when it
is complete.

* `thinkingSummaryPieceAllowed`, `thinkingSummaryHasPartialMarker`,
  `normalizeThinkingSummary` — the source's.
* `Generated` — what pieces that are allowed one after another make.
* `Generated.clear` — no marker comes about, however it is cut.
* `thinkingSummary` — **the last check agrees**, up to what trimming lays bare.
-/

namespace Qw3.Policy.ThinkingSummary

open Qw3.Stream Qw3.Text Search

/-! ## The source's functions -/

/-- `summary_forbidden_markers`. -/
def summaryForbiddenMarkers : List Bytes :=
  [utf8 "<|", utf8 "<think", utf8 "</think", utf8 "<tool", utf8 "</tool", utf8 "<function", utf8 "</function",
    utf8 "<parameter", utf8 "</parameter", utf8 "```"]

/-- `text.find(marker) != npos`. -/
def has (marker text : Bytes) : Bool := (find marker text).isSome

/-- `tail_bytes`. -/
def tailBytes : ℕ := 11

/-- `thinking_summary_piece_allowed`. -/
def thinkingSummaryPieceAllowed (prefixText piece : Bytes) : Bool :=
  let tail := prefixText.drop (if prefixText.length > tailBytes then prefixText.length - tailBytes else 0) ++ piece
  if summaryForbiddenMarkers.any (has · tail) then false else !piece.isEmpty

/-- `thinking_summary_has_partial_marker`. -/
def thinkingSummaryHasPartialMarker (text : Bytes) : Bool :=
  summaryForbiddenMarkers.any fun marker =>
    (List.range' 2 (marker.length - 2)).any fun n =>
      decide (text.length ≥ n) && text.drop (text.length - n) == marker.take n

/-- `std::isspace` in the C locale. -/
def space (c : UInt8) : Bool := c == 32 || (9 ≤ c && c ≤ 13)

/-- The text without the white space at its ends. -/
def trim (text : Bytes) : Bytes := (text.rdropWhile space).dropWhile space

/-- `normalize_thinking_summary`: the text, and the reason to reject it; a text that is
rejected comes out empty. -/
def normalizeThinkingSummary (text : Bytes) (terminated : Bool) : Bytes × String :=
  if !terminated then ([], "unterminated")
  else
    let text := trim text
    if text.isEmpty then ([], "empty")
    else if has (utf8 "<|") text then ([], "chat-marker")
    else if has (utf8 "<think") text || has (utf8 "</think") text then ([], "thinking-marker")
    else if has (utf8 "<tool") text || has (utf8 "</tool") text then ([], "tool-marker")
    else if [utf8 "<function", utf8 "</function", utf8 "<parameter", utf8 "</parameter"].any (has · text) then
      ([], "tool-marker")
    else if has (utf8 "```") text then ([], "code-fence")
    else if thinkingSummaryHasPartialMarker text then ([], "partial-marker")
    else (text, "")

/-! ## Texts without a marker -/

/-- No marker stands in a text. -/
def Clear (text : Bytes) : Prop := ∀ marker ∈ summaryForbiddenMarkers, ¬ marker <:+: text

/-- What is generated: each piece is allowed after the pieces before it. -/
inductive Generated : Bytes → Prop
  | nil : Generated []
  | piece {text piece : Bytes} : Generated text → thinkingSummaryPieceAllowed text piece = true →
      Generated (text ++ piece)

theorem has_iff {marker text : Bytes} : has marker text = true ↔ marker <:+: text := by
  unfold has
  rw [Option.isSome_iff_ne_none, ne_eq, find_eq_none_iff, isInfix_iff_occursAt, not_forall_not]

/-- A marker fits into the tail and one byte. -/
theorem length_marker {marker : Bytes} (h : marker ∈ summaryForbiddenMarkers) :
    marker ≠ [] ∧ marker.length ≤ tailBytes + 1 := by
  have hall : ∀ marker ∈ summaryForbiddenMarkers, marker ≠ [] ∧ marker.length ≤ tailBytes + 1 := by decide
  exact hall marker h

/-- A word that comes about when a text goes on stands in its last bytes and what
follows. -/
theorem infix_drop_append {w text more : Bytes} {n : ℕ} (hw : w.length ≤ n + 1)
    (hclear : ¬ w <:+: text) (h : w <:+: text ++ more) : w <:+: text.drop (text.length - n) ++ more := by
  obtain ⟨i, hi⟩ := isInfix_iff_occursAt.mp h
  have hpast : text.length < i + w.length := by
    by_contra hle
    exact hclear (isInfix_iff_occursAt.mpr ⟨i, hi.of_append (Nat.not_lt.mp hle)⟩)
  refine isInfix_iff_occursAt.mpr ⟨i - (text.length - n), ?_⟩
  have hsplit : text ++ more = text.take (text.length - n) ++ (text.drop (text.length - n) ++ more) := by
    rw [← List.append_assoc, List.take_append_drop]
  have htake : (text.take (text.length - n)).length = text.length - n := by
    rw [List.length_take]
    omega
  rw [hsplit, show i = (text.take (text.length - n)).length + (i - (text.length - n)) by omega] at hi
  exact occursAt_append_left.mp hi

theorem Clear.piece {text piece : Bytes} (h : Clear text) (hp : thinkingSummaryPieceAllowed text piece = true) :
    Clear (text ++ piece) := by
  intro marker hmarker hpiece
  have hlength := (length_marker hmarker).2
  have htail := infix_drop_append hlength (h marker hmarker) hpiece
  have hfrom : (if text.length > tailBytes then text.length - tailBytes else 0) = text.length - tailBytes := by
    split_ifs <;> omega
  unfold thinkingSummaryPieceAllowed at hp
  rw [hfrom] at hp
  dsimp only at hp
  split_ifs at hp with hany
  exact hany (List.any_eq_true.mpr ⟨marker, hmarker, has_iff.mpr htail⟩)

/-- However a marker is cut into pieces, one of them is not allowed. -/
theorem Generated.clear {text : Bytes} (h : Generated text) : Clear text := by
  induction h with
  | nil =>
      intro marker hmarker hpiece
      exact (length_marker hmarker).1 (List.infix_nil.mp hpiece)
  | piece _ hp ih => exact ih.piece hp

/-! ## The last check -/

theorem trim_isInfix (text : Bytes) : trim text <:+: text :=
  (List.dropWhile_suffix _).isInfix.trans (List.rdropWhile_prefix _ text).isInfix

theorem Clear.of_infix {text part : Bytes} (h : Clear text) (hpart : part <:+: text) : Clear part :=
  fun marker hmarker hpiece => h marker hmarker (hpiece.trans hpart)

/-- Of a text without a marker the last check asks only how it ends. -/
theorem Clear.normalize {text : Bytes} (h : Clear text) (hspace : trim text ≠ []) :
    normalizeThinkingSummary text true =
      if thinkingSummaryHasPartialMarker (trim text) then ([], "partial-marker") else (trim text, "") := by
  have hclear := h.of_infix (trim_isInfix text)
  have hno : ∀ marker ∈ summaryForbiddenMarkers, has marker (trim text) = false := fun marker hmarker =>
    Bool.eq_false_iff.mpr fun hhas => hclear marker hmarker (has_iff.mp hhas)
  have hempty : (trim text).isEmpty = false := by
    rw [List.isEmpty_eq_false_iff]
    exact hspace
  have hall := hno
  simp only [summaryForbiddenMarkers, List.forall_mem_cons] at hall
  obtain ⟨h0, h1, h2, h3, h4, h5, h6, h7, h8, h9, -⟩ := hall
  unfold normalizeThinkingSummary
  simp only [hempty, h0, h1, h2, h3, h4, h5, h6, h7, h8, h9, List.any_cons, List.any_nil]
  rfl

theorem trim_eq_nil {text : Bytes} : trim text = [] ↔ ∀ c ∈ text, space c = true := by
  unfold trim
  rw [List.dropWhile_eq_nil_iff]
  constructor
  · intro h
    by_cases hnil : text.rdropWhile space = []
    · exact List.rdropWhile_eq_nil_iff.mp hnil
    · -- What trimming the end leaves does not end in white space.
      exact absurd (h _ (List.getLast_mem hnil)) (List.rdropWhile_last_not space text hnil)
  · intro h c hc
    exact h c ((List.rdropWhile_prefix _ text).subset hc)

/-- A text that does not end in white space ends as its trimmed part does. -/
theorem partialMarker_trim {text : Bytes} (hend : ∀ c ∈ text.getLast?, space c = false)
    (h : thinkingSummaryHasPartialMarker (trim text) = true) : thinkingSummaryHasPartialMarker text = true := by
  have hright : text.rdropWhile space = text := by
    rw [List.rdropWhile_eq_self_iff]
    intro hne
    rw [Bool.not_eq_true]
    exact hend _ (List.getLast?_eq_getLast_of_ne_nil hne)
  have hsuffix : trim text <:+ text := by
    unfold trim
    rw [hright]
    exact List.dropWhile_suffix _
  obtain ⟨front, hfront⟩ := hsuffix
  obtain ⟨marker, hmarker, hany⟩ := List.any_eq_true.mp h
  obtain ⟨n, hn, hends⟩ := List.any_eq_true.mp hany
  rw [Bool.and_eq_true, decide_eq_true_iff] at hends
  refine List.any_eq_true.mpr ⟨marker, hmarker, List.any_eq_true.mpr ⟨n, hn, ?_⟩⟩
  rw [Bool.and_eq_true, decide_eq_true_iff, ← hfront, List.length_append]
  refine ⟨hends.1.trans (Nat.le_add_left ..), ?_⟩
  have hle := hends.1
  rw [Nat.add_sub_assoc hle, List.drop_length_add_append]
  exact hends.2

/-- **The last check agrees.**  What is generated has no marker in it.  Where it is not all
white space, the last check returns it trimmed if what is left does not end in a part of
a marker; that is so, in particular, where the text itself neither ends in such a part
nor in white space. -/
theorem thinkingSummary {text : Bytes} (h : Generated text) :
    (∀ marker ∈ summaryForbiddenMarkers, ¬ marker <:+: text) ∧
      ((¬ ∀ c ∈ text, space c = true) →
        (thinkingSummaryHasPartialMarker (trim text) = false →
          normalizeThinkingSummary text true = (trim text, "")) ∧
        ((∀ c ∈ text.getLast?, space c = false) → thinkingSummaryHasPartialMarker text = false →
          normalizeThinkingSummary text true = (trim text, ""))) := by
  refine ⟨h.clear, fun hspace => ?_⟩
  have hnormalize := h.clear.normalize (mt trim_eq_nil.mp hspace)
  have hreturned (hpart : thinkingSummaryHasPartialMarker (trim text) = false) :
      normalizeThinkingSummary text true = (trim text, "") := by
    rw [hnormalize, hpart]
    rfl
  refine ⟨hreturned, fun hend hpart => hreturned ?_⟩
  by_contra hnot
  rw [Bool.not_eq_false] at hnot
  rw [partialMarker_trim hend hnot] at hpart
  cases hpart

/-- Two pieces, with a `<` that begins no marker. -/
def sampleText : Bytes := [] ++ utf8 "Keep x < " ++ utf8 "5 "

theorem thinkingSummary_sample :
    (∀ marker ∈ summaryForbiddenMarkers, ¬ marker <:+: sampleText) ∧
      ((¬ ∀ c ∈ sampleText, space c = true) →
        (thinkingSummaryHasPartialMarker (trim sampleText) = false →
          normalizeThinkingSummary sampleText true = (trim sampleText, "")) ∧
        ((∀ c ∈ sampleText.getLast?, space c = false) → thinkingSummaryHasPartialMarker sampleText = false →
          normalizeThinkingSummary sampleText true = (trim sampleText, ""))) :=
  thinkingSummary (.piece (.piece .nil (by decide)) (by decide))

/-- White space after a part of a marker hides it from the check of the whole text, and
the last check trims it. -/
theorem hidden_part_rejected : ∃ text, Generated text ∧ thinkingSummaryHasPartialMarker text = false ∧
    (¬ ∀ c ∈ text, space c = true) ∧ normalizeThinkingSummary text true = ([], "partial-marker") ∧
    trim text = utf8 "Compare x <t" :=
  ⟨[] ++ utf8 "Compare x <t" ++ utf8 "\n", .piece (.piece .nil (by decide)) (by decide), by decide, by decide, by decide,
    by decide⟩

end Qw3.Policy.ThinkingSummary
