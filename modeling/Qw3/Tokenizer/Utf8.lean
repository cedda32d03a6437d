import Mathlib.Data.List.GetD
import Mathlib.Order.Lattice

/-!
# Bytes and code points

`utf8_decode`, `utf8_encode` and the code points of a text of `tokenizer.cpp`.  A text
is any bytes; what is no UTF-8 is decoded as well.

* `codepoints` — the code points of a text, with their bytes.
* `Tiles` — code points that lie side by side; `tiles_codepoints`.
-/

namespace Qw3.Tokenizer

abbrev Byte := BitVec 8

abbrev Bytes := List Byte

/-- `uint32_t`, a code point. -/
abbrev Cp := BitVec 32

/-- The bytes of an ASCII text. -/
def bytes (s : String) : Bytes := s.toList.map fun c => BitVec.ofNat 8 c.toNat

/-- `text.substr(begin, end - begin)`. -/
def substr (text : Bytes) (begin' end' : ℕ) : Bytes := (text.drop begin').take (end' - begin')

/-- The low six bits of a byte, as part of a code point. -/
def tail6 (s : Bytes) (i : ℕ) : Cp := (s.getD i 0).setWidth 32 &&& 0x3F

/-- `utf8_decode`: the code point at `pos`, and the position after it. -/
def utf8Decode (s : Bytes) (pos : ℕ) : Cp × ℕ :=
  if pos ≥ s.length then (0, pos)
  else
    let c0 := s.getD pos 0
    if c0 < 0x80 then (c0.setWidth 32, pos + 1)
    else if c0 &&& 0xE0 = 0xC0 ∧ pos + 1 < s.length then
      (((c0.setWidth 32 &&& 0x1F) <<< 6) ||| tail6 s (pos + 1), pos + 2)
    else if c0 &&& 0xF0 = 0xE0 ∧ pos + 2 < s.length then
      (((c0.setWidth 32 &&& 0x0F) <<< 12) ||| (tail6 s (pos + 1) <<< 6) ||| tail6 s (pos + 2), pos + 3)
    else if c0 &&& 0xF8 = 0xF0 ∧ pos + 3 < s.length then
      (((c0.setWidth 32 &&& 0x07) <<< 18) ||| (tail6 s (pos + 1) <<< 12) ||| (tail6 s (pos + 2) <<< 6) |||
        tail6 s (pos + 3), pos + 4)
    else (c0.setWidth 32, pos + 1)

/-- `utf8_encode`. -/
def utf8Encode (cp : Cp) : Bytes :=
  if cp < 0x80 then [cp.setWidth 8]
  else if cp < 0x800 then [(0xC0 ||| (cp >>> 6)).setWidth 8, (0x80 ||| (cp &&& 0x3F)).setWidth 8]
  else if cp < 0x10000 then
    [(0xE0 ||| (cp >>> 12)).setWidth 8, (0x80 ||| ((cp >>> 6) &&& 0x3F)).setWidth 8,
      (0x80 ||| (cp &&& 0x3F)).setWidth 8]
  else
    [(0xF0 ||| (cp >>> 18)).setWidth 8, (0x80 ||| ((cp >>> 12) &&& 0x3F)).setWidth 8,
      (0x80 ||| ((cp >>> 6) &&& 0x3F)).setWidth 8, (0x80 ||| (cp &&& 0x3F)).setWidth 8]

/-- `Codepoint`. -/
structure Codepoint where
  value : Cp
  byteBegin : ℕ
  byteEnd : ℕ

/-- The loop over the code points, from `pos` on. -/
def codepointsFrom (text : Bytes) : ℕ → ℕ → List Codepoint
  | 0, _ => []
  | fuel + 1, pos =>
      if pos < text.length then
        let decoded := utf8Decode text pos
        ⟨decoded.1, pos, decoded.2⟩ :: codepointsFrom text fuel decoded.2
      else []

/-- `cpts`; each turn moves on, so that as many turns as there are bytes are enough. -/
def codepoints (text : Bytes) : List Codepoint := codepointsFrom text text.length 0

variable {text : Bytes} {pos stop : ℕ} {cs ds : List Codepoint}

/-- Decoding moves on, and not past the end. -/
theorem utf8Decode_lt (h : pos < text.length) :
    pos < (utf8Decode text pos).2 ∧ (utf8Decode text pos).2 ≤ text.length := by
  unfold utf8Decode
  rw [if_neg (by omega)]
  dsimp only
  split_ifs with h₁ h₂ h₃ h₄
  · exact ⟨Nat.lt_succ_self _, h⟩
  · exact ⟨by dsimp only; omega, by dsimp only; omega⟩
  · exact ⟨by dsimp only; omega, by dsimp only; omega⟩
  · exact ⟨by dsimp only; omega, by dsimp only; omega⟩
  · exact ⟨Nat.lt_succ_self _, h⟩

/-! ## Code points side by side -/

/-- Code points that lie side by side, from `pos` to `stop`. -/
def Tiles : ℕ → List Codepoint → ℕ → Prop
  | pos, [], stop => pos = stop
  | pos, c :: cs, stop => c.byteBegin = pos ∧ pos < c.byteEnd ∧ Tiles c.byteEnd cs stop

theorem Tiles.le (h : Tiles pos cs stop) : pos ≤ stop := by
  induction cs generalizing pos with
  | nil => exact h.le
  | cons c cs ih => exact h.2.1.le.trans (ih h.2.2)

theorem Tiles.lt (h : Tiles pos cs stop) (hcs : cs ≠ []) : pos < stop := by
  cases cs with
  | nil => exact absurd rfl hcs
  | cons c cs => exact h.2.1.trans_le h.2.2.le

theorem Tiles.of_append (h : Tiles pos (cs ++ ds) stop) :
    ∃ middle, Tiles pos cs middle ∧ Tiles middle ds stop := by
  induction cs generalizing pos with
  | nil => exact ⟨pos, rfl, h⟩
  | cons c cs ih =>
      obtain ⟨hbegin, hlt, hrest⟩ := h
      obtain ⟨middle, hcs, hds⟩ := ih hrest
      exact ⟨middle, ⟨hbegin, hlt, hcs⟩, hds⟩

/-- The code points of a text lie side by side and cover it. -/
theorem tiles_codepointsFrom {fuel : ℕ} (hpos : pos ≤ text.length) (hfuel : text.length ≤ pos + fuel) :
    Tiles pos (codepointsFrom text fuel pos) text.length := by
  induction fuel generalizing pos with
  | zero => exact le_antisymm hpos hfuel
  | succ fuel ih =>
      unfold codepointsFrom
      split_ifs with h
      · obtain ⟨hlt, hle⟩ := utf8Decode_lt h
        exact ⟨rfl, hlt, ih hle (by dsimp only; omega)⟩
      · exact le_antisymm hpos (not_lt.mp h)

theorem tiles_codepoints (text : Bytes) : Tiles 0 (codepoints text) text.length :=
  tiles_codepointsFrom (Nat.zero_le _) (Nat.le_add_left _ _)

/-- Neighbouring parts of a text make up the part that they cover. -/
theorem substr_append {a b c : ℕ} (hab : a ≤ b) (hbc : b ≤ c) :
    substr text a b ++ substr text b c = substr text a c := by
  unfold substr
  have hdrop : text.drop b = (text.drop a).drop (b - a) := by
    rw [List.drop_drop, Nat.add_sub_cancel' hab]
  have hlength : c - a = (b - a) + (c - b) := by
    omega
  rw [hdrop, hlength, List.take_add]

theorem length_substr {a b : ℕ} (hb : b ≤ text.length) : (substr text a b).length = b - a := by
  unfold substr
  rw [List.length_take, List.length_drop]
  omega

end Qw3.Tokenizer
