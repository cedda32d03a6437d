import Mathlib.Algebra.Group.Nat.Defs
import Mathlib.Data.List.Basic
import Qw3.Tokenizer.Utf8

/-!
# The alphabet of the vocabulary

`gpt2_bytes_to_unicode_table`, the byte maps and the walk of `decode_one` of
`tokenizer.cpp`: each byte stands in the vocabulary as a visible character.

* `charToByte_byteToChar` — the two maps are inverse.
* `decodeChars_chars` — the walk reads the bytes back from their characters.
-/

namespace Qw3.Tokenizer

/-- The bytes that are visible themselves, as the table begins. -/
def visibleBytes : List Byte :=
  ((List.range' 0x21 94) ++ (List.range' 0xA1 12) ++ (List.range' 0xAE 82)).map (BitVec.ofNat 8)

/-- `gpt2_bytes_to_unicode_table`. -/
def gpt2BytesToUnicodeTable : List Cp :=
  let grown := (List.range 256).foldl (fun (g : List Byte × List Cp × ℕ) b =>
    if BitVec.ofNat 8 b ∈ g.1 then g
    else (g.1 ++ [BitVec.ofNat 8 b], g.2.1 ++ [BitVec.ofNat 32 (256 + g.2.2)], g.2.2 + 1))
    (visibleBytes, visibleBytes.map (BitVec.setWidth 32), 0)
  (grown.1.zip grown.2.1).foldl (fun result entry => result.set entry.1.toNat entry.2)
    (List.replicate 256 0)

/-- `byte_to_char_`. -/
def byteToChar (b : Byte) : Bytes := utf8Encode (gpt2BytesToUnicodeTable.getD b.toNat 0)

/-- `char_to_byte_`: a later byte replaces an earlier one. -/
def charToByte (ch : Bytes) : Option Byte :=
  ((List.range 256).map (BitVec.ofNat 8)).reverse.find? fun b => byteToChar b = ch

/-- `bytes_to_chars`. -/
def bytesToChars (text : Bytes) : Bytes := text.flatMap byteToChar

/-- The walk over the characters of a token, from `pos` on. -/
def decodeChars (s : Bytes) : ℕ → ℕ → Bytes
  | 0, _ => []
  | fuel + 1, pos =>
      if pos < s.length then
        let stop := (utf8Decode s pos).2
        let ch := substr s pos stop
        (match charToByte ch with
          | some b => [b]
          | none => ch) ++ decodeChars s fuel stop
      else []

/-! ## The table -/

/-- The character of a byte. -/
def charOf (b : ℕ) : ℕ :=
  if b < 0x21 then 256 + b
  else if b < 0x7F then b
  else if b < 0xA1 then 256 + 33 + (b - 0x7F)
  else if b = 0xAD then 256 + 67
  else b

/-- A byte that has no character yet gets the next one. -/
def grow (g : List Byte × List Cp × ℕ) (b : ℕ) : List Byte × List Cp × ℕ :=
  if BitVec.ofNat 8 b ∈ g.1 then g
  else (g.1 ++ [BitVec.ofNat 8 b], g.2.1 ++ [BitVec.ofNat 32 (256 + g.2.2)], g.2.2 + 1)

theorem mem_ofNat {l : List ℕ} {b : ℕ} (hl : ∀ c ∈ l, c < 256) (hb : b < 256) :
    BitVec.ofNat 8 b ∈ l.map (BitVec.ofNat 8) ↔ b ∈ l := by
  constructor
  · intro h
    obtain ⟨c, hc, heq⟩ := List.mem_map.mp h
    have hnat := congrArg BitVec.toNat heq
    rw [BitVec.toNat_ofNat, BitVec.toNat_ofNat, Nat.mod_eq_of_lt (hl c hc), Nat.mod_eq_of_lt hb] at hnat
    rwa [← hnat]
  · exact List.mem_map_of_mem

theorem grow_known {known l : List ℕ} {codes : List Cp} {n : ℕ} (h : ∀ b ∈ l, b ∈ known) :
    l.foldl grow (known.map (BitVec.ofNat 8), codes, n) = (known.map (BitVec.ofNat 8), codes, n) := by
  induction l with
  | nil => rfl
  | cons b l ih =>
      have hknown : grow (known.map (BitVec.ofNat 8), codes, n) b = (known.map (BitVec.ofNat 8), codes, n) :=
        if_pos (List.mem_map_of_mem (h b List.mem_cons_self))
      rw [List.foldl_cons, hknown]
      exact ih fun c hc => h c (List.mem_cons_of_mem b hc)

theorem grow_fresh {known : List ℕ} {codes : List Cp} {n a k : ℕ} (hknown : ∀ c ∈ known, c < 256) (hle : a + k ≤ 256)
    (h : ∀ b ∈ List.range' a k, b ∉ known) :
    (List.range' a k).foldl grow (known.map (BitVec.ofNat 8), codes, n) =
      ((known ++ List.range' a k).map (BitVec.ofNat 8), codes ++ (List.range' (256 + n) k).map (BitVec.ofNat 32), n + k) := by
  induction k generalizing known codes n a with
  | zero =>
      rw [List.range'_zero, List.range'_zero, List.map_nil, List.append_nil, List.append_nil]
      rfl
  | succ k ih =>
      have hstep : grow (known.map (BitVec.ofNat 8), codes, n) a =
          ((known ++ [a]).map (BitVec.ofNat 8), codes ++ [BitVec.ofNat 32 (256 + n)], n + 1) := by
        have hnew : BitVec.ofNat 8 a ∉ known.map (BitVec.ofNat 8) := by
          rw [mem_ofNat hknown (by omega)]
          exact h a (by rw [List.mem_range'_1]; omega)
        rw [List.map_append]
        exact if_neg hnew
      have hlt : ∀ c ∈ known ++ [a], c < 256 := by
        intro c hc
        rcases List.mem_append.mp hc with hc | hc
        · exact hknown c hc
        · rw [List.mem_singleton.mp hc]
          omega
      have hrest : ∀ b ∈ List.range' (a + 1) k, b ∉ known ++ [a] := by
        intro b hb hmem
        rw [List.mem_range'_1] at hb
        rcases List.mem_append.mp hmem with hmem | hmem
        · exact h b (by rw [List.mem_range'_1]; omega) hmem
        · rw [List.mem_singleton.mp hmem] at hb
          omega
      rw [List.range'_succ, List.foldl_cons, hstep, ih hlt (by omega) hrest, List.append_assoc, List.append_assoc,
        @List.range'_succ (256 + n), List.map_cons, Nat.add_assoc n 1 k, Nat.add_comm 1 k]
      rfl

/-- The bytes in the order in which they get their characters. -/
def grownBytes : List ℕ :=
  List.range' 0x21 94 ++ List.range' 0xA1 12 ++ List.range' 0xAE 82 ++ List.range' 0 0x21 ++ List.range' 0x7F 34 ++
    List.range' 0xAD 1

/-- Every byte gets a character. -/
theorem mem_grownBytes {b : ℕ} : b ∈ grownBytes ↔ b < 256 := by
  simp only [grownBytes, List.mem_append, List.mem_range'_1]
  omega

/-- The entries of the table. -/
theorem grown_eq : (List.range 256).foldl grow (visibleBytes, visibleBytes.map (BitVec.setWidth 32), 0) =
    (grownBytes.map (BitVec.ofNat 8), grownBytes.map fun b => BitVec.ofNat 32 (charOf b), 68) := by
  have hrange : List.range 256 = List.range' 0 0x21 ++ List.range' 0x21 94 ++ List.range' 0x7F 34 ++ List.range' 0xA1 12 ++
      List.range' 0xAD 1 ++ List.range' 0xAE 82 := by decide +kernel
  have hcodes : visibleBytes.map (BitVec.setWidth 32) ++ (List.range' 256 0x21).map (BitVec.ofNat 32) ++
      (List.range' 289 34).map (BitVec.ofNat 32) ++ (List.range' 323 1).map (BitVec.ofNat 32) =
        grownBytes.map fun b => BitVec.ofNat 32 (charOf b) := by decide +kernel
  rw [hrange, List.foldl_append, List.foldl_append, List.foldl_append, List.foldl_append, List.foldl_append,
    ← hcodes]
  unfold visibleBytes
  -- the hidden bytes are new, the visible ones are not
  rw [grow_fresh ?_ (by decide) ?_, grow_known ?_, grow_fresh ?_ (by decide) ?_, grow_known ?_,
    grow_fresh ?_ (by decide) ?_, grow_known ?_]
  · rfl
  all_goals
    simp only [List.mem_append, List.mem_range'_1]
    omega

/-- Entries that depend on their place only. -/
theorem getElem?_foldl_set {α : Type} {f : ℕ → α} {l : List ℕ} {r : List α} {i : ℕ} (hi : i < r.length) :
    (l.foldl (fun r b => r.set b (f b)) r)[i]? = if i ∈ l then some (f i) else r[i]? := by
  induction l generalizing r with
  | nil => rfl
  | cons b l ih =>
      rw [List.foldl_cons, ih (by rwa [List.length_set])]
      by_cases hl : i ∈ l
      · rw [if_pos hl, if_pos (List.mem_cons_of_mem b hl)]
      · rw [if_neg hl]
        by_cases hb : b = i
        · rw [hb, List.getElem?_set_self hi, if_pos List.mem_cons_self]
        · rw [List.getElem?_set_ne hb, if_neg]
          rintro hmem
          rcases List.mem_cons.mp hmem with rfl | hmem
          · exact hb rfl
          · exact hl hmem

theorem length_foldl_set {α : Type} {f : ℕ → α} {l : List ℕ} {r : List α} :
    (l.foldl (fun r b => r.set b (f b)) r).length = r.length := by
  induction l generalizing r with
  | nil => rfl
  | cons b l ih => rw [List.foldl_cons, ih, List.length_set]

theorem table_eq : gpt2BytesToUnicodeTable = (List.range 256).map fun b => BitVec.ofNat 32 (charOf b) := by
  have hset : gpt2BytesToUnicodeTable =
      grownBytes.foldl (fun r b => r.set b (BitVec.ofNat 32 (charOf b))) (List.replicate 256 0) := by
    have hentries : gpt2BytesToUnicodeTable = ((grownBytes.map (BitVec.ofNat 8)).zip
        (grownBytes.map fun b => BitVec.ofNat 32 (charOf b))).foldl (fun result entry => result.set entry.1.toNat entry.2)
          (List.replicate 256 0) := by
      have hgrown := grown_eq
      unfold grow at hgrown
      unfold gpt2BytesToUnicodeTable
      rw [hgrown]
    rw [hentries, List.zip_map', List.foldl_map]
    refine List.foldl_ext _ _ _ fun r b hb => ?_
    rw [BitVec.toNat_ofNat, Nat.mod_eq_of_lt (mem_grownBytes.mp hb)]
  rw [hset]
  refine List.ext_getElem? fun i => ?_
  rcases Nat.lt_or_ge i 256 with hi | hi
  · rw [getElem?_foldl_set (by rwa [List.length_replicate]), if_pos (mem_grownBytes.mpr hi), List.getElem?_map,
      List.getElem?_range hi]
    rfl
  · rw [List.getElem?_eq_none (by rwa [length_foldl_set, List.length_replicate]),
      List.getElem?_eq_none (by rwa [List.length_map, List.length_range])]

theorem charOf_lt {b : ℕ} (hb : b < 256) : charOf b < 2 ^ 32 := by
  unfold charOf
  split_ifs
  all_goals omega

/-- Two bytes get two characters. -/
theorem charOf_injective {b c : ℕ} (hb : b < 256) (hc : c < 256) (h : charOf b = charOf c) : b = c := by
  unfold charOf at h
  split_ifs at h
  all_goals omega

theorem byteToChar_eq (b : Byte) : byteToChar b = utf8Encode (BitVec.ofNat 32 (charOf b.toNat)) := by
  unfold byteToChar
  rw [table_eq, List.getD_eq_getElem _ _ (by simpa using b.isLt), List.getElem_map, List.getElem_range]

/-- One byte that is ASCII, or two of which the first says so. -/
def IsChar (ch : Bytes) : Prop :=
  (ch.length = 1 ∧ ch.getD 0 0 < 0x80) ∨
    (ch.length = 2 ∧ ¬ ch.getD 0 0 < 0x80 ∧ ch.getD 0 0 &&& 0xE0 = 0xC0)

instance : DecidablePred IsChar := fun ch => by
  unfold IsChar
  infer_instance

/-- A character reads back as its code point. -/
theorem encoded_charOf : ∀ b < 256,
    IsChar (utf8Encode (BitVec.ofNat 32 (charOf b))) ∧
      (utf8Decode (utf8Encode (BitVec.ofNat 32 (charOf b))) 0).1 = BitVec.ofNat 32 (charOf b) := by
  decide +kernel

/-! ## The maps -/

variable {b c : Byte} {ch before after : Bytes}

theorem isChar_byteToChar (b : Byte) : IsChar (byteToChar b) := by
  rw [byteToChar_eq]
  exact (encoded_charOf _ b.isLt).1

theorem IsChar.length_pos (h : IsChar ch) : 0 < ch.length := by
  rcases h with ⟨hlength, -⟩ | ⟨hlength, -⟩
  · rw [hlength]
    exact Nat.zero_lt_one
  · rw [hlength]
    exact Nat.zero_lt_two

theorem length_byteToChar_pos (b : Byte) : 0 < (byteToChar b).length := (isChar_byteToChar b).length_pos

/-- A byte is known by its character. -/
theorem byteToChar_injective : Function.Injective byteToChar := by
  intro b c h
  rw [byteToChar_eq, byteToChar_eq] at h
  have hcode : BitVec.ofNat 32 (charOf b.toNat) = BitVec.ofNat 32 (charOf c.toNat) := by
    rw [← (encoded_charOf _ b.isLt).2, ← (encoded_charOf _ c.isLt).2, h]
  have hnat := congrArg BitVec.toNat hcode
  rw [BitVec.toNat_ofNat, BitVec.toNat_ofNat, Nat.mod_eq_of_lt (charOf_lt b.isLt),
    Nat.mod_eq_of_lt (charOf_lt c.isLt)] at hnat
  exact BitVec.eq_of_toNat_eq (charOf_injective b.isLt c.isLt hnat)

/-- **The two maps are inverse.** -/
theorem charToByte_byteToChar (b : Byte) : charToByte (byteToChar b) = some b := by
  have hmem : b ∈ ((List.range 256).map (BitVec.ofNat 8)).reverse := by
    rw [List.mem_reverse, List.mem_map]
    exact ⟨b.toNat, List.mem_range.mpr b.isLt, BitVec.ofNat_toNat 8 b⟩
  unfold charToByte
  cases hfind : ((List.range 256).map (BitVec.ofNat 8)).reverse.find?
      fun c => byteToChar c = byteToChar b with
  | none =>
      have hne := List.find?_eq_none.mp hfind b hmem
      exact absurd (decide_eq_true rfl) hne
  | some c =>
      have heq := List.find?_some hfind
      rw [decide_eq_true_eq] at heq
      rw [byteToChar_injective heq]

/-! ## The walk -/

/-- A character is read whole, whatever stands around it. -/
theorem utf8Decode_isChar (h : IsChar ch) (before after : Bytes) :
    (utf8Decode (before ++ (ch ++ after)) before.length).2 = before.length + ch.length := by
  have hpos := h.length_pos
  have hlength : (before ++ (ch ++ after)).length = before.length + (ch.length + after.length) := by
    rw [List.length_append, List.length_append]
  have hfirst : (before ++ (ch ++ after)).getD before.length 0 = ch.getD 0 0 := by
    rw [List.getD_append_right _ _ _ _ le_rfl, Nat.sub_self, List.getD_append _ _ _ _ hpos]
  unfold utf8Decode
  rw [hfirst, if_neg (by omega)]
  dsimp only
  rcases h with ⟨hone, hascii⟩ | ⟨htwo, hascii, hlead⟩
  · rw [if_pos hascii, hone]
  · rw [if_neg hascii, if_pos ⟨hlead, by omega⟩, htwo]

theorem substr_middle (before ch after : Bytes) :
    substr (before ++ (ch ++ after)) before.length (before.length + ch.length) = ch := by
  unfold substr
  rw [List.drop_left, Nat.add_sub_cancel_left, List.take_left]

theorem bytesToChars_cons (b : Byte) (text : Bytes) :
    bytesToChars (b :: text) = byteToChar b ++ bytesToChars text := rfl

theorem bytesToChars_eq (text : Bytes) :
    bytesToChars text = text.flatMap fun b => utf8Encode (BitVec.ofNat 32 (charOf b.toNat)) := by
  unfold bytesToChars
  rw [funext byteToChar_eq]

theorem bytesToChars_append (x y : Bytes) : bytesToChars (x ++ y) = bytesToChars x ++ bytesToChars y :=
  List.flatMap_append

theorem length_le_bytesToChars (text : Bytes) : text.length ≤ (bytesToChars text).length := by
  induction text with
  | nil => exact le_rfl
  | cons b text ih =>
      have hpos := length_byteToChar_pos b
      rw [bytesToChars_cons, List.length_append, List.length_cons]
      omega

theorem bytesToChars_ne_nil {text : Bytes} (h : text ≠ []) : bytesToChars text ≠ [] := by
  have hpos := List.length_pos_iff.mpr h
  exact List.length_pos_iff.mp (hpos.trans_le (length_le_bytesToChars text))

/-- One turn of the walk. -/
theorem decodeChars_byteToChar (before after : Bytes) (b : Byte) (fuel : ℕ) :
    decodeChars (before ++ (byteToChar b ++ after)) (fuel + 1) before.length =
      b :: decodeChars (before ++ (byteToChar b ++ after)) fuel (before ++ byteToChar b).length := by
  have hlt : before.length < (before ++ (byteToChar b ++ after)).length := by
    have hpos := length_byteToChar_pos b
    rw [List.length_append, List.length_append]
    omega
  rw [decodeChars, if_pos hlt]
  dsimp only
  rw [utf8Decode_isChar (isChar_byteToChar b), substr_middle, charToByte_byteToChar, List.length_append]
  rfl

/-- **The walk reads the bytes back from their characters.** -/
theorem decodeChars_chars {text : Bytes} {fuel : ℕ} (hfuel : text.length ≤ fuel) (before : Bytes) :
    decodeChars (before ++ bytesToChars text) fuel before.length = text := by
  induction text generalizing fuel before with
  | nil =>
      cases fuel with
      | zero => rfl
      | succ fuel =>
          rw [decodeChars, if_neg]
          rw [bytesToChars, List.flatMap_nil, List.append_nil]
          exact Nat.lt_irrefl _
  | cons b text ih =>
      obtain ⟨fuel, rfl⟩ : ∃ k, fuel = k + 1 := Nat.exists_eq_add_of_le' (Nat.succ_le_of_lt
        ((Nat.succ_pos _).trans_le hfuel))
      rw [bytesToChars_cons, decodeChars_byteToChar, ← List.append_assoc,
        ih (Nat.le_of_succ_le_succ hfuel)]

end Qw3.Tokenizer
