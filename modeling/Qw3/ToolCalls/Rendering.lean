import Mathlib.Data.List.DropRight
import Qw3.Json.Dump
import Qw3.Json.Grammar
import Qw3.Lib.Text
import Qw3.Stream.ToolCall

/-!
# Tool calls in a transcript

The calls of an assistant message as the text that the model is shown (`render_tool_call` of
`qw3_server.cpp`).

## Main definitions

* `Library` — what the rendering calls in the JSON library.
* `toolFunction` — where a tool, or a call, has its function.
* `renderToolCall` — a call as text.

## Design notes

A `std::string` is its bytes, and the strings of a JSON value are valid.  Of `json::parse` only
that it is a function is used, and of `dump` the digits of a double are left open: a transcript
quotes both, and nothing that is proved about it looks into what is quoted.

What the server does with the calls that the model writes is not modelled, apart from the parser
of the stream.
-/

namespace Qw3.ToolCalls

open Qw3.Stream Text

/-- `json::parse`, and the digits of a double in `dump`. -/
structure Library where
  parse : Json.Wire → Except String Json
  floatText : FloatText

/-- `'\n'` -/
abbrev newline : UInt8 := 0x0A

/-- `trim_ascii_ws`. -/
def trimAsciiWs (s : Bytes) : Bytes := (s.dropWhile Json.isSpace).rdropWhile Json.isSpace

/-- The function of a tool, or the tool itself. -/
def toolFunction (tool : Json) : Json :=
  match tool.find? "function" with
  | some (.object fn) => .object fn
  | _ => tool

section Definitions

variable (lib : Library)

/-- `dump_json`. -/
def Library.dumpJson (value : Json) : Bytes := encode (value.dump lib.floatText)

/-- The text of a value. -/
def renderValue : Json → Bytes
  | .string s => utf8 s
  | value => lib.dumpJson value

/-- The lines of an argument. -/
def renderArgument (m : String × Json) : Bytes :=
  parameterOpenTag ++ (utf8 m.1 ++ (closeAngle ++ newline :: (renderValue lib m.2 ++
    newline :: (parameterCloseTag ++ [newline]))))

/-- The arguments of a function, which may be text themselves. -/
def rawArguments (fn : Json) : Json :=
  match fn.find? "arguments" with
  | some (.object members) => .object members
  | some (.string raw) =>
      match lib.parse (utf8 raw) with
      | .ok parsed => parsed
      | .error _ => .object [("arguments", .string raw)]
  | _ => .object []

/-- The lines of all arguments. -/
def renderArguments : Json → Bytes
  | .object members => members.flatMap (renderArgument lib)
  | _ => []

/-- `render_tool_call`. -/
def renderToolCall (call : Json) : Except String Bytes :=
  let fn := toolFunction call
  if ¬ fn.isObject then .ok []
  else
    match fn.value Json.getString "name" "" with
    | .error what => .error what
    | .ok name =>
        if name = "" then .ok []
        else .ok (toolOpenTag ++ newline :: (functionOpenTag ++ (utf8 name ++ (closeAngle ++ newline ::
          (renderArguments lib (rawArguments lib fn) ++
            (functionCloseTag ++ newline :: toolCloseTag))))))

end Definitions

end Qw3.ToolCalls
