import Mathlib.Data.List.Basic

/-!
# Texts and their bytes

* `encode` — the UTF-8 bytes of characters; `decode` reads them back.
* `utf8` — the bytes of a `String`.
-/

namespace Qw3.Text

/-- The bytes of characters. -/
def encode (text : List Char) : List UInt8 := text.flatMap String.utf8EncodeChar

/-- The characters of valid bytes. -/
def decode (bytes : List UInt8) : Option (List Char) :=
  bytes.toByteArray.utf8Decode?.map Array.toList

/-- The bytes of a text. -/
def utf8 (s : String) : List UInt8 := encode s.toList

/-- What was encoded is decoded again. -/
theorem decode_encode (text : List Char) : decode (encode text) = some text := by
  unfold decode encode
  change Option.map Array.toList text.utf8Encode.utf8Decode? = some text
  rw [List.utf8Decode?_utf8Encode]
  rfl

theorem encode_injective : Function.Injective encode := by
  intro s t h
  have hs := decode_encode s
  rw [h, decode_encode] at hs
  exact (Option.some.inj hs).symm

theorem utf8_injective : Function.Injective utf8 := by
  intro s t h
  exact String.toList_inj.mp (encode_injective h)

@[simp] theorem encode_nil : encode [] = [] := rfl

@[simp] theorem encode_append (s t : List Char) : encode (s ++ t) = encode s ++ encode t :=
  List.flatMap_append

theorem utf8_append (s t : String) : utf8 (s ++ t) = utf8 s ++ utf8 t := by
  unfold utf8
  rw [String.toList_append, encode_append]

theorem utf8_eq_nil {s : String} : utf8 s = [] ↔ s = "" := by
  constructor
  · intro h
    exact utf8_injective h
  · rintro rfl
    rfl

/-! ## ASCII -/

end Qw3.Text
