import Qw3.Json.Grammar

/-!
# Parsing a native request

`native_request_json.cpp`: the two JSON parsers, and the scanner that leaves out
messages it has seen before.

* `JsonParsers` — `json::parse` and `yyjson_read`, which accept the values of the
  grammar.
* `parseNativeRequestJson` — the fast parser, then the established one.
* `scanValue`, `scanElements`, `scanFields`, `scan` — `MessageBoundaries`.  A
  position is the text from there on.
* `parseNativeRequestPrefix` — a request without the messages of a snapshot.
-/

namespace Qw3.Native

open Json

/-! ## The parsers -/

/-- A `yyjson_val` of a document read with `YYJSON_READ_NUMBER_AS_RAW`. -/
inductive YyjsonValue where
  | null
  | boolean (value : Bool)
  | string (value : String)
  | raw (token : Wire)
  | array (items : List YyjsonValue)
  | object (members : List (String × YyjsonValue))

section Convert

variable (parse : Wire → Except String Json)

mutual

/-- `convert`; `none` where it throws. -/
def convert (depth : ℕ) : YyjsonValue → Option Json
  | .null => if depth ≥ 256 then none else some .null
  | .boolean b => if depth ≥ 256 then none else some (.boolean b)
  | .string s => if depth ≥ 256 then none else some (.string s)
  | .raw token => if depth ≥ 256 then none else (parse token).toOption
  | .array items => if depth ≥ 256 then none else (convertItems (depth + 1) items).map .array
  | .object members =>
      if depth ≥ 256 then none else (convertMembers (depth + 1) members).map .ofMembers

def convertItems (depth : ℕ) : List YyjsonValue → Option (List Json)
  | [] => some []
  | v :: items =>
      (convert depth v).bind fun j => (convertItems depth items).map fun js => j :: js

def convertMembers (depth : ℕ) : List (String × YyjsonValue) → Option (List (String × Json))
  | [] => some []
  | (key, v) :: members =>
      (convert depth v).bind fun j =>
        (convertMembers depth members).map fun ms => (key, j) :: ms

end

end Convert

/-- The parsers: `json::parse` accepts the values of the grammar and throws at
anything else, and what `yyjson_read` accepts is converted to the same value. -/
structure JsonParsers where
  leaves : Leaves
  parse : Wire → Except String Json
  yyjsonRead : Wire → Option YyjsonValue
  parse_iff : ∀ wire j, parse wire = .ok j ↔ Document leaves wire j
  yyjson_subset : ∀ wire doc j, yyjsonRead wire = some doc → convert parse 0 doc = some j →
    parse wire = .ok j

variable (P : JsonParsers)

/-- `parse_native_request_json`. -/
def parseNativeRequestJson (wire : Wire) (allowFast : Bool) : Except String Json :=
  if ¬ allowFast then P.parse wire
  else
    match (P.yyjsonRead wire).bind (convert P.parse 0) with
    | some j => .ok j
    | none => P.parse wire

/-! ## The boundary scanner -/

/-- `take`: a byte after spaces. -/
def take (ch : UInt8) (text : Wire) : Option Wire :=
  match space text with
  | [] => none
  | b :: rest => if b = ch then some rest else none

/-- `string`. -/
def scanString : Wire → Option Wire
  | [] => none
  | b :: rest => if b = quote then stringTail rest else none

/-- The bytes up to a delimiter, if there are any. -/
def scanScalar (text : Wire) : Option Wire :=
  let rest := text.dropWhile fun b => !isDelimiter b
  if rest.length < text.length then some rest else none

theorem length_of_take {ch : UInt8} {text rest : Wire} (h : take ch text = some rest) :
    rest.length < text.length := by
  have hle := space_length_le text
  rw [take] at h
  split at h
  next => cases h
  next b tail heq =>
    rw [heq, List.length_cons] at hle
    split at h
    next =>
      cases h
      omega
    next => cases h

theorem length_of_stringTail {text rest : Wire} (h : stringTail text = some rest) :
    rest.length < text.length := by
  obtain ⟨body, rfl, -⟩ := stringTail_spec h
  simp
  omega

theorem length_of_scanString {text rest : Wire} (h : scanString text = some rest) :
    rest.length < text.length := by
  cases text with
  | nil => cases h
  | cons b tail =>
    rw [scanString] at h
    split at h
    next =>
      have := length_of_stringTail h
      rw [List.length_cons]
      omega
    next => cases h

mutual

/-- `value`. -/
def scanValue (depth : ℕ) (text : Wire) : Option Wire :=
  match _htext : space text with
  | [] => none
  | b :: rest =>
      if depth ≥ 256 then none
      else if b = quote then scanString (b :: rest)
      else if b = openBracket ∨ b = openBrace then
        match take (if b = openBrace then closeBrace else closeBracket) rest with
        | some after => some after
        | none => scanContainer (b == openBrace) depth rest
      else scanScalar (b :: rest)
termination_by (text.length, 0)
decreasing_by
  have hle := space_length_le text
  rw [_htext, List.length_cons] at hle
  exact Prod.Lex.left _ _ (by omega)

/-- The loop over the items of an array or the members of an object.  The guard
always holds: what was scanned is not empty. -/
def scanContainer (object : Bool) (depth : ℕ) (text : Wire) : Option Wire :=
  match _hinner : if object then (scanString (space text)).bind (take colon) else some text with
  | none => none
  | some inner =>
      match scanValue (depth + 1) inner with
      | none => none
      | some mid =>
          match take (if object then closeBrace else closeBracket) mid with
          | some after => some after
          | none =>
              match take comma mid with
              | none => none
              | some next =>
                  if next.length < text.length then scanContainer object depth next else none
termination_by (text.length, 1)
decreasing_by
  · have hle : inner.length ≤ text.length := by
      split at _hinner
      next =>
        obtain ⟨after, hafter, hinner⟩ := Option.bind_eq_some_iff.mp _hinner
        have h1 := length_of_scanString hafter
        have h2 := length_of_take hinner
        have h3 := space_length_le text
        omega
      next =>
        cases _hinner
        exact le_rfl
    rcases Nat.lt_or_eq_of_le hle with hlt | heq
    · exact Prod.Lex.left _ _ hlt
    · rw [heq]
      exact Prod.Lex.right _ (by decide)
  · exact Prod.Lex.left _ _ (by assumption)

end

/-- Where an element of the array starts, and how long it is. -/
structure Span where
  start : Wire
  length : ℕ

def Span.source (s : Span) : Wire := s.start.take s.length

/-- What is found of the top-level `messages` array: `array_begin` is after its
bracket, `array_end` at the other one. -/
structure Boundaries where
  arrayBegin : Wire
  spans : List Span
  arrayEnd : Wire
  reused : ℕ
  reusedBytes : ℕ

/-- The next element: an old message that is found again, or a value.  `old` are
the old messages from this index on, none once one did not match. -/
def scanElement (old : List Wire) (start : Wire) : Option (Wire × Option (List Wire)) :=
  match old with
  | source :: older =>
      if source.isPrefixOf start then some (start.drop source.length, some older)
      else (scanValue 0 start).map fun after => (after, none)
  | [] => (scanValue 0 start).map fun after => (after, none)

/-- The loop over the elements: their spans, the count and the bytes of those
reused, and the end of the array.  The guard always holds. -/
def scanElements (old : List Wire) (text : Wire) : Option (List Span × ℕ × ℕ × Wire) :=
  let start := space text
  match scanElement old start with
  | none => none
  | some (after, older) =>
      let span : Span := ⟨start, start.length - after.length⟩
      let reused := if older.isSome then 1 else 0
      let reusedBytes := if older.isSome then span.length else 0
      let stop := space after
      if stop.head? = some closeBracket then some ([span], reused, reusedBytes, stop)
      else
        match take comma stop with
        | none => none
        | some next =>
            if next.length < text.length then
              (scanElements (older.getD []) next).map fun (spans, count, bytes, stop) =>
                (span :: spans, reused + count, reusedBytes + bytes, stop)
            else none
termination_by text.length

/-- The value of the `messages` member. -/
def scanArray (old : List Wire) (text : Wire) : Option (Boundaries × Wire) :=
  (take openBracket text).bind fun arrayBegin =>
    let scanned :=
      if (space arrayBegin).head? = some closeBracket then some ([], 0, 0, space arrayBegin)
      else scanElements old arrayBegin
    scanned.bind fun (spans, reused, reusedBytes, arrayEnd) =>
      (take closeBracket arrayEnd).map fun rest =>
        (⟨arrayBegin, spans, arrayEnd, reused, reusedBytes⟩, rest)

/-- The key between the two positions, as the parser reads it. -/
def readKey (start after : Wire) : Option String :=
  match P.parse (start.take (start.length - after.length)) with
  | .ok (.string key) => some key
  | _ => none

/-- The loop over the members of the document; `none` where it gives up or throws.
The guard always holds. -/
def scanFields (old : List Wire) (keys : List String) (found : Option Boundaries) (text : Wire) :
    Option (Option Boundaries × Wire) :=
  let start := space text
  match scanString start with
  | none => none
  | some after =>
      match readKey P start after with
      | none => none
      | some key =>
          if key ∈ keys then none
          else
            match take colon after with
            | none => none
            | some inner =>
                let scanned :=
                  if key = "messages" then
                    (scanArray old inner).map fun (boundaries, rest) => (some boundaries, rest)
                  else (scanValue 0 inner).map fun rest => (found, rest)
                match scanned with
                | none => none
                | some (found, rest) =>
                    match take closeBrace rest with
                    | some final => some (found, final)
                    | none =>
                        match take comma rest with
                        | none => none
                        | some next =>
                            if next.length < text.length then
                              scanFields old (key :: keys) found next
                            else none
termination_by text.length

/-- `scan`: the boundaries, where the whole document was scanned and they were
found. -/
def scan (old : List Wire) (wire : Wire) : Option Boundaries :=
  (take openBrace wire).bind fun text =>
    if (take closeBrace text).isSome then none
    else
      (scanFields P old [] none text).bind fun (found, final) =>
        if space final = [] then found else none

/-! ## The request -/

/-- `NativeMessageSnapshot`. -/
structure NativeMessageSnapshot where
  messages : List Wire
  convertedCounts : List ℕ := []
  systemCount : ℕ := 0
  deriving DecidableEq

/-- `NativeRequestParse`. -/
structure NativeRequestParse where
  request : Json
  snapshot : Option NativeMessageSnapshot := none
  reusedMessages : ℕ := 0
  reusedBytes : ℕ := 0

/-- The text after the reused messages. -/
def Boundaries.suffix (b : Boundaries) : Wire :=
  match b.spans[b.reused]? with
  | some span => span.start
  | none => b.arrayEnd

/-- The document without its reused messages. -/
def Boundaries.reduced (b : Boundaries) (wire : Wire) : Wire :=
  wire.take (wire.length - b.arrayBegin.length) ++ b.suffix

/-- The sources of the elements: those reused are the old ones. -/
def Boundaries.sources (b : Boundaries) (old : List Wire) : List Wire :=
  old.take b.reused ++ (b.spans.drop b.reused).map Span.source

/-- `parse_native_request_prefix`. -/
def parseNativeRequestPrefix (wire : Wire) (previous : Option NativeMessageSnapshot)
    (allowFast : Bool) : Except String NativeRequestParse :=
  let old := (previous.map NativeMessageSnapshot.messages).getD []
  match scan P old wire with
  | none => (parseNativeRequestJson P wire allowFast).map fun request => { request }
  | some b =>
      let snapshot : NativeMessageSnapshot := { messages := b.sources old }
      if b.reused ≠ 0 then
        match parseNativeRequestJson P (b.reduced wire) allowFast with
        | .ok request => .ok
            { request, snapshot := some snapshot, reusedMessages := b.reused,
              reusedBytes := b.reusedBytes }
        | .error _ => (parseNativeRequestJson P wire allowFast).map fun request => { request }
      else
        (parseNativeRequestJson P wire allowFast).map fun request =>
          { request, snapshot := some snapshot }

end Qw3.Native
