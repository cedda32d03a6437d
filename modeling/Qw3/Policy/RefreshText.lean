import Qw3.Lib.Search
import Qw3.Stream.Bytes

/-!
# Where a context switch is safe

`kvmem_middecode_refresh_text_safe` (`kvmem_refresh_policy.hpp`): the text so far
ends between two structured fragments.
-/

namespace Qw3.Policy

open Qw3.Stream Search

/-- `rfind`. -/
def rfind (w text : Bytes) : Option ℕ :=
  (List.range (text.length + 1)).reverse.find? fun i => OccursAt w text i

/-- `kvmem_has_unclosed_marker`. -/
def hasUnclosedMarker (text openTag closeTag : Bytes) : Bool :=
  match rfind openTag text with
  | none => false
  | some openPos =>
      match rfind closeTag text with
      | none => true
      | some closePos => closePos < openPos

/-- `kvmem_ends_with_partial_marker`. -/
def endsWithPartialMarker (text marker : Bytes) : Bool :=
  (List.range (min text.length (marker.length - 1))).any fun n =>
    text.drop (text.length - (n + 1)) = marker.take (n + 1)

/-- The fence of a code block. -/
def fence : Bytes := [0x60, 0x60, 0x60]

/-- How many fences there are, one after the other. -/
def fences (text : Bytes) : ℕ :=
  match h : find fence text with
  | none => 0
  | some i => fences (text.drop (i + 3)) + 1
termination_by text.length
decreasing_by
  have hle := (find_eq_some_iff.mp h).2.1.le (List.cons_ne_nil _ _)
  change i + 3 ≤ text.length at hle
  rw [List.length_drop]
  omega

/-- The markers that must not be cut. -/
def markers : List Bytes :=
  ["<tool_call>".toUTF8.toList, "</tool_call>".toUTF8.toList, "<function=".toUTF8.toList,
    "</function>".toUTF8.toList, fence]

/-- The full-width ends of a sentence. -/
def sentenceEnds : List Bytes := ["。".toUTF8.toList, "！".toUTF8.toList, "？".toUTF8.toList]

/-- `kvmem_middecode_refresh_text_safe`. -/
def middecodeRefreshTextSafe (generated : Bytes) : Bool :=
  if generated = [] then false
  else if markers.any (endsWithPartialMarker generated) then false
  else if hasUnclosedMarker generated "<tool_call>".toUTF8.toList "</tool_call>".toUTF8.toList then
    false
  else if hasUnclosedMarker generated "<function=".toUTF8.toList "</function>".toUTF8.toList then
    false
  else if fences generated % 2 ≠ 0 then false
  else if "</tool_call>".toUTF8.toList <:+ generated ∨ fence <:+ generated then true
  else
    let text := generated.reverse.dropWhile fun c => c = 0x20 ∨ c = 0x09 ∨ c = 0x0D
    match text with
    | [] => false
    | last :: _ =>
        last = 0x0A ∨ last ∈ ([0x2E, 0x21, 0x3F, 0x3B, 0x3A] : Bytes) ∨
          sentenceEnds.any fun mark => mark <:+ text.reverse

end Qw3.Policy
