import Mathlib.Data.List.Infix
import Mathlib.Tactic.DeriveFintype

/-!
# Bytes and UTF-8 sequences

* `utf8ExpectedLen`, `utf8Cont`, `replacementChar` — the source's.
* `IsSequence` — a lead byte and as many continuation bytes as it declares;
  `Complete` — such sequences one after another.
-/

namespace Qw3.Stream

/-- A byte string. -/
abbrev Bytes := List UInt8

/-- `replacement_char`. -/
def replacementChar : Bytes := [0xEF, 0xBF, 0xBD]

/-- `utf8_expected_len`. -/
def utf8ExpectedLen (c : UInt8) : ℕ :=
  if c < 0x80 then 1
  else if c &&& 0xE0 = 0xC0 then 2
  else if c &&& 0xF0 = 0xE0 then 3
  else if c &&& 0xF8 = 0xF0 then 4
  else 0

/-- `utf8_cont`. -/
def utf8Cont (c : UInt8) : Bool := c &&& 0xC0 = 0x80

/-- An ASCII byte. -/
def isAscii (c : UInt8) : Bool := c < 0x80

theorem utf8ExpectedLen_of_cont {c : UInt8} (h : utf8Cont c = true) : utf8ExpectedLen c = 0 := by
  have hall : ∀ n : Fin 256, utf8Cont (UInt8.ofFin n) = true →
      utf8ExpectedLen (UInt8.ofFin n) = 0 := by decide +kernel
  exact hall c.toFin h

theorem utf8ExpectedLen_of_ascii {c : UInt8} (h : isAscii c = true) : utf8ExpectedLen c = 1 := by
  unfold isAscii at h
  unfold utf8ExpectedLen
  rw [if_pos (of_decide_eq_true h)]

theorem not_ascii_of_len {c : UInt8} (h : utf8ExpectedLen c ≠ 1) : isAscii c = false := by
  cases hc : isAscii c with
  | true => exact absurd (utf8ExpectedLen_of_ascii hc) h
  | false => rfl

theorem not_ascii_of_cont {c : UInt8} (h : utf8Cont c = true) : isAscii c = false := by
  apply not_ascii_of_len
  rw [utf8ExpectedLen_of_cont h]
  exact Nat.zero_ne_one

/-- A structurally complete sequence: a lead byte and the continuation bytes
that it declares. -/
structure IsSequence (s : Bytes) : Prop where
  length_eq : ∀ c ∈ s.head?, s.length = utf8ExpectedLen c
  cont : ∀ b ∈ s.tail, utf8Cont b = true
  ne_nil : s ≠ []

/-- Structurally complete sequences, one after another. -/
inductive Complete : Bytes → Prop where
  | nil : Complete []
  | cons {s rest : Bytes} : IsSequence s → Complete rest → Complete (s ++ rest)

theorem isSequence_replacementChar : IsSequence replacementChar where
  length_eq := by
    rintro c ⟨⟩
    rfl
  cont := by decide +kernel
  ne_nil := List.cons_ne_nil _ _

theorem Complete.append {a b : Bytes} (ha : Complete a) (hb : Complete b) : Complete (a ++ b) := by
  induction ha with
  | nil => exact hb
  | cons hs _ ih =>
      rw [List.append_assoc]
      exact .cons hs ih

theorem IsSequence.complete {s : Bytes} (h : IsSequence s) : Complete s := by
  rw [← List.append_nil s]
  exact .cons h .nil

end Qw3.Stream
