import Mathlib.Data.List.Basic
import Qw3.Stream.Bytes

/-!
# Valid UTF-8

* `ValidUtf8` — the encoding of some characters.
* `ValidUtf8.split` — a valid text that is cut where no continuation byte follows
  is cut into valid texts; `ValidUtf8.split_ascii` cuts at an ASCII byte.
-/

namespace Qw3.Stream

/-- The encoding of some characters. -/
def ValidUtf8 (text : Bytes) : Prop :=
  ∃ chars : List Char, text = chars.flatMap String.utf8EncodeChar

/-- A byte that continues no sequence, or nothing. -/
def AtBoundary (text : Bytes) : Prop := ∀ c ∈ text.head?, utf8Cont c = false

/-- A character is a byte that continues nothing and bytes that do; an ASCII byte
is a character by itself. -/
theorem utf8EncodeChar_shape (c : Char) : ∃ b bs, String.utf8EncodeChar c = b :: bs ∧
    utf8Cont b = false ∧ (∀ x ∈ bs, utf8Cont x = true) ∧ (isAscii b = true → bs = []) := by
  have hfirst : ∀ x : UInt8, x.IsUTF8FirstByte → utf8Cont x = false := by
    have hall : ∀ n : Fin 256, (UInt8.ofFin n) &&& 0x80 = 0 ∨ (UInt8.ofFin n) &&& 0xE0 = 0xC0 ∨
        (UInt8.ofFin n) &&& 0xF0 = 0xE0 ∨ (UInt8.ofFin n) &&& 0xF8 = 0xF0 →
        utf8Cont (UInt8.ofFin n) = false := by decide +kernel
    exact fun x => hall x.toFin
  have hcont : ∀ x : UInt8, utf8Cont (x &&& 0x3F ||| 0x80) = true := by
    have hall : ∀ n : Fin 256, utf8Cont ((UInt8.ofFin n) &&& 0x3F ||| 0x80) = true := by
      decide +kernel
    exact fun x => hall x.toFin
  have hlead : ∀ x : UInt8, isAscii (x &&& 0x1F ||| 0xC0) = false ∧
      isAscii (x &&& 0x0F ||| 0xE0) = false ∧ isAscii (x &&& 0x07 ||| 0xF0) = false := by
    have hall : ∀ n : Fin 256, isAscii ((UInt8.ofFin n) &&& 0x1F ||| 0xC0) = false ∧
        isAscii ((UInt8.ofFin n) &&& 0x0F ||| 0xE0) = false ∧
        isAscii ((UInt8.ofFin n) &&& 0x07 ||| 0xF0) = false := by decide +kernel
    exact fun x => hall x.toFin
  have hzero : ∀ b bs, String.utf8EncodeChar c = b :: bs → utf8Cont b = false := by
    intro b bs heq
    have h := UInt8.isUTF8FirstByte_getElem_zero_utf8EncodeChar (c := c)
    simp only [heq, List.getElem_cons_zero] at h
    exact hfirst b h
  match hsize : c.utf8Size, c.utf8Size_pos, c.utf8Size_le_four with
  | 1, _, _ =>
      have heq := String.utf8EncodeChar_eq_singleton hsize
      exact ⟨_, _, heq, hzero _ _ heq, by simp, fun _ => rfl⟩
  | 2, _, _ =>
      have heq := String.utf8EncodeChar_eq_cons_cons hsize
      refine ⟨_, _, heq, hzero _ _ heq, ?_, ?_⟩
      · intro x hx
        rw [List.mem_singleton.mp hx]
        exact hcont _
      · intro h
        rw [(hlead _).1] at h
        cases h
  | 3, _, _ =>
      have heq := String.utf8EncodeChar_eq_cons_cons_cons hsize
      refine ⟨_, _, heq, hzero _ _ heq, ?_, ?_⟩
      · intro x hx
        simp only [List.mem_cons, List.not_mem_nil, or_false] at hx
        rcases hx with rfl | rfl
        · exact hcont _
        · exact hcont _
      · intro h
        rw [(hlead _).2.1] at h
        cases h
  | 4, _, _ =>
      have heq := String.utf8EncodeChar_eq_cons_cons_cons_cons hsize
      refine ⟨_, _, heq, hzero _ _ heq, ?_, ?_⟩
      · intro x hx
        simp only [List.mem_cons, List.not_mem_nil, or_false] at hx
        rcases hx with rfl | rfl | rfl
        · exact hcont _
        · exact hcont _
        · exact hcont _
      · intro h
        rw [(hlead _).2.2] at h
        cases h

theorem validUtf8_nil : ValidUtf8 [] := ⟨[], rfl⟩

/-- A valid text that is cut before a byte that continues nothing is cut into
valid texts. -/
theorem ValidUtf8.split {a b : Bytes} (h : ValidUtf8 (a ++ b)) (hb : AtBoundary b) :
    ValidUtf8 a ∧ ValidUtf8 b := by
  obtain ⟨chars, heq⟩ := h
  induction chars generalizing a with
  | nil =>
      obtain ⟨rfl, rfl⟩ := List.append_eq_nil_iff.mp heq
      exact ⟨validUtf8_nil, validUtf8_nil⟩
  | cons c chars ih =>
      rw [List.flatMap_cons] at heq
      rcases List.append_eq_append_iff.mp heq with ⟨rest, hchar, hrest⟩ | ⟨rest, ha, hrest⟩
      · cases rest with
        | nil =>
            rw [List.append_nil] at hchar
            exact ⟨⟨[c], by rw [List.flatMap_singleton, hchar]⟩, ⟨chars, hrest⟩⟩
        | cons x rest =>
            cases a with
            | nil => exact ⟨validUtf8_nil, c :: chars, heq⟩
            | cons y a =>
                -- the cut would lie inside of a character
                obtain ⟨y', bs, hshape, -, hcont, -⟩ := utf8EncodeChar_shape c
                rw [hshape, List.cons_append, List.cons.injEq] at hchar
                have hx := hcont x (by rw [hchar.2]; simp)
                rw [hb x (by rw [hrest]; rfl)] at hx
                cases hx
      · obtain ⟨⟨front, hfront⟩, hback⟩ := ih hrest.symm
        refine ⟨⟨c :: front, ?_⟩, hback⟩
        rw [List.flatMap_cons, ← hfront, ha]

theorem atBoundary_ascii {c : UInt8} (hc : isAscii c = true) (b : Bytes) : AtBoundary (c :: b) := by
  rintro x ⟨⟩
  cases hcont : utf8Cont c with
  | false => rfl
  | true =>
      rw [not_ascii_of_cont hcont] at hc
      cases hc

/-- An ASCII byte cuts a valid text into valid texts. -/
theorem ValidUtf8.split_ascii {a b : Bytes} {c : UInt8} (h : ValidUtf8 (a ++ c :: b))
    (hc : isAscii c = true) : ValidUtf8 a ∧ ValidUtf8 b := by
  obtain ⟨ha, chars, heq⟩ := h.split (atBoundary_ascii hc b)
  refine ⟨ha, ?_⟩
  cases chars with
  | nil => cases heq
  | cons d chars =>
      obtain ⟨x, bs, hshape, -, -, hascii⟩ := utf8EncodeChar_shape d
      rw [List.flatMap_cons, hshape, List.cons_append, List.cons.injEq] at heq
      rw [hascii (heq.1 ▸ hc), List.nil_append] at heq
      exact ⟨chars, heq.2⟩

end Qw3.Stream
