import Qw3.Harness.Frames
import Qw3.Stream.Reasoning
import Qw3.ToolCalls.Rendering

/-!
# The transcript of a chat

`render_messages` of `qw3_server.cpp`: the messages of a request as the text that the model
is given, and where each of them stands in it.

* `Glyph` — a text may be of bytes, or of bytes with a mark, which it keeps as it is rendered.
* `renderContent`, `assistantParts`, `renderToolCalls` — what a message says.
* `controlPrefix` — the tools and the merged system messages.
* `lastQueryIndexForTemplate` — the last message in which the user asks for something.
* `renderMessage` — one message, `renderLoop` all of them, `renderMessages` the transcript.

The messages are an array; a role that is no string makes `value` throw.  The contents are
rendered beforehand: that of a message whose content was cut need not be a string of JSON.
-/

namespace Qw3.Chat

open Qw3.Stream Qw3.Harness Qw3.ToolCalls Text

/-! ## Texts -/

/-- What a text is made of: bytes, or bytes with a mark. -/
class Glyph (β : Type) where
  byte : β → UInt8
  plain : UInt8 → β
  byte_plain : ∀ b, byte (plain b) = b

instance : Glyph UInt8 := ⟨id, id, fun _ => rfl⟩

section Definitions

variable {β : Type} [Glyph β]

/-- The bytes of a text. -/
def toBytes (text : List β) : Bytes := text.map Glyph.byte

/-- A text without marks. -/
def ofBytes (text : Bytes) : List β := text.map Glyph.plain

/-- A text of the template. -/
def lit (s : String) : List β := ofBytes (utf8 s)

/-- `trim_ascii_ws`. -/
def trim (text : List β) : List β :=
  (text.dropWhile fun c => Json.isSpace (Glyph.byte c)).rdropWhile fun c => Json.isSpace (Glyph.byte c)

/-- Without a first `'\n'`. -/
def eraseFirst (text : List β) : List β := if (toBytes text).head? = some 0x0A then text.tail else text

/-- Without a last `'\n'`. -/
def eraseLast (text : List β) : List β := if (toBytes text).getLast? = some 0x0A then text.dropLast else text

/-- `split_reasoning`: the reasoning and the content. -/
def splitText (text : List β) : List β × List β :=
  match Search.find openTag (toBytes text) with
  | none => ([], text)
  | some start =>
      let rest := text.drop (start + openTag.length)
      match Search.find closeTag (toBytes rest) with
      | none => (eraseFirst rest, [])
      | some close =>
          (eraseLast (eraseFirst (rest.take close)),
            (rest.drop (close + closeTag.length)).dropWhile fun c => isLineEnd (Glyph.byte c))

variable (lib : Library)

/-! ## What a message says -/

/-- The text of an item of an array. -/
def itemText : Json → Bytes
  | .string s => utf8 s
  | item => utf8 ((item.findString? "text").getD "")

/-- `render_content`; the strings are valid, so that `dump` does not throw. -/
def renderContent : Json → Bytes
  | .string s => utf8 s
  | .null => []
  | .array items => items.flatMap itemText
  | content => lib.dumpJson content

/-- `m.contains("content") ? render_content(m["content"]) : ""`. -/
def messageContent (m : Json) : Bytes :=
  match m.find? "content" with
  | some content => renderContent lib content
  | none => []

/-- A message, with its content rendered. -/
structure Message (β : Type) where
  json : Json
  content : List β

/-- The messages of a request. -/
def chat (messages : List Json) : List (Message UInt8) := messages.map fun m => ⟨m, messageContent lib m⟩

/-- `m.value("role", "")`. -/
def roleOf (m : Json) : Except String String := m.value Json.getString "role" ""

/-- `messages[j].is_object() && messages[j].value("role", "") == "tool"`, where there is one. -/
def isToolMessage : Option Json → Except String Bool
  | none => .ok false
  | some m => if m.isObject then (roleOf m).map fun role => role = "tool" else .ok false

/-- `messages[i]`. -/
def jsonAt (messages : List (Message β)) (i : ℕ) : Option Json := messages[i]?.map Message.json

/-- `messages[i - 1]`, where `i > 0`. -/
def previousMessage (messages : List (Message β)) (i : ℕ) : Option Json :=
  if i > 0 then jsonAt messages (i - 1) else none

/-- A message of the control plane. -/
def isControl (role : String) : Bool := role = "system" ∨ role = "developer"

/-- `is_tool_response_content`. -/
def isToolResponseContent (content : Bytes) : Bool :=
  let trimmed := trimAsciiWs content
  utf8 "<tool_response>" <+: trimmed ∧ utf8 "</tool_response>" <:+ trimmed

/-! ## The control prefix -/

/-- `merged_system`, with a part more. -/
def mergeSystem (merged part : List β) : List β :=
  if toBytes part = [] then merged
  else if toBytes merged = [] then part
  else merged ++ lit "\n" ++ part

/-- The loop over the leading system messages: how many there are, and what they say. -/
def leadingSystem : List β → List (Message β) → Except String (ℕ × List β)
  | merged, [] => .ok (0, merged)
  | merged, m :: messages =>
      if ¬ m.json.isObject then .ok (0, merged)
      else
        (roleOf m.json).bind fun role =>
          if ¬ isControl role then .ok (0, merged)
          else (leadingSystem (mergeSystem merged (trim m.content)) messages).map fun found => (found.1 + 1, found.2)

/-- How a function is called. -/
def callFormat : Bytes := utf8 <|
  "\n\nIf you choose to call a function ONLY reply in the following format with NO suffix:\n\n" ++
  "<tool_call>\n<function=example_function_name>\n" ++
  "<parameter=example_parameter_1>\nvalue_1\n</parameter>\n" ++
  "<parameter=example_parameter_2>\n" ++
  "This is the value for the second parameter\nthat can span\nmultiple lines\n" ++
  "</parameter>\n</function>\n</tool_call>\n\n" ++
  "<IMPORTANT>\n" ++
  "Reminder:\n" ++
  "- Function calls MUST follow the specified format: an inner <function=...></function> block must be nested within <tool_call></tool_call> XML tags\n" ++
  "- Required parameters MUST be specified\n" ++
  "- You may provide optional reasoning for your function call in natural language BEFORE the function call, but NOT after\n"

/-- The arguments of `render_messages` after the messages. -/
structure Options where
  tools : Option Json := none
  enableThinking : Bool := true
  forcedToolName : String := ""
  addGenerationPrompt : Bool := true
  requireToolCall : Bool := false
  harnessKind : HarnessKind := .none
  stableHarnessReasoning : Bool := false

variable (o : Options)

/-- What the model must call. -/
def callDuty : Bytes :=
  if o.forcedToolName ≠ "" then
    utf8 "- You MUST call the function named `" ++ utf8 o.forcedToolName ++ utf8 "`\n"
  else if o.requireToolCall then utf8 "- You MUST call one of the available functions\n"
  else []

/-- The tools, and how they are called. -/
def toolsText (tools : List Json) : Bytes :=
  utf8 "<|im_start|>system\n" ++
    utf8 "# Tools\n\nYou have access to the following functions:\n\n<tools>" ++
    tools.flatMap (fun tool => utf8 "\n" ++ lib.dumpJson tool) ++
    utf8 "\n</tools>" ++ callFormat ++ callDuty o ++
    utf8 "- If there is no function call available, answer the question like normal with your current knowledge and do not tell the user about function calls\n" ++
    utf8 "</IMPORTANT>"

/-- The transcript before its messages. -/
def controlPrefix (merged : List β) : List β :=
  match o.tools with
  | some (.array (tool :: tools)) =>
      ofBytes (toolsText lib o (tool :: tools)) ++
        (if toBytes merged = [] then [] else lit "\n\n" ++ merged) ++ lit "<|im_end|>\n"
  | _ => if toBytes merged = [] then [] else lit "<|im_start|>system\n" ++ merged ++ lit "<|im_end|>\n"

/-! ## The last query -/

/-- A user message that is neither a tool response nor a harness's. -/
def asksForSomething (content : Bytes) : Bool :=
  !isToolResponseContent (trimAsciiWs content) && !harnessMessageIsMetaOnly o.harnessKind (trimAsciiWs content)

/-- The loop of `last_query_index_for_template`, from the back. -/
def lastQuery : List (Message β × ℕ) → Except String (Option ℕ)
  | [] => .ok none
  | m :: messages =>
      if ¬ m.1.json.isObject then lastQuery messages
      else
        (roleOf m.1.json).bind fun role =>
          if role = "user" ∧ asksForSomething o (toBytes m.1.content) = true then .ok (some m.2)
          else lastQuery messages

/-- `last_query_index_for_template`. -/
def lastQueryIndexForTemplate (messages : List (Message β)) : Except String ℕ :=
  (lastQuery o messages.zipIdx.reverse).map fun found => found.getD (messages.length - 1)

/-! ## The messages -/

/-- `prompt` and `message_spans`. -/
structure Transcript (β : Type) where
  prompt : List β
  spans : List HarnessRenderedMessageSpan := []

/-- A message whose content is reported. -/
def Transcript.push (t : Transcript β) (i : ℕ) (role : String) (before content after : List β) : Transcript β where
  prompt := t.prompt ++ before ++ content ++ after
  spans := t.spans ++ [{
    messageIndex := i
    role := role
    segmentBegin := t.prompt.length
    segmentEnd := (t.prompt ++ before ++ content ++ after).length
    contentBegin := (t.prompt ++ before).length
    contentEnd := (t.prompt ++ before ++ content).length }]

/-- A message without a content of its own. -/
def Transcript.pushSegment (t : Transcript β) (i : ℕ) (role : String) (text : List β) : Transcript β where
  prompt := t.prompt ++ text
  spans := t.spans ++ [{
    messageIndex := i
    role := role
    segmentBegin := t.prompt.length
    segmentEnd := (t.prompt ++ text).length
    contentBegin := 0
    contentEnd := 0 }]

/-- `reasoning_content` and `assistant_content`. -/
def assistantParts (m : Json) (content : List β) : List β × List β :=
  match m.findString? "reasoning_content" with
  | some reasoning => (ofBytes (trimAsciiWs (utf8 reasoning)), content)
  | none =>
      let split := splitText content
      if toBytes split.1 ≠ [] ∨ toBytes split.2 ≠ toBytes content then (trim split.1, split.2) else ([], content)

/-- The loop over the calls; the text that comes before the next one is given. -/
def renderCalls : Bytes → List Json → Except String Bytes
  | _, [] => .ok []
  | between, call :: calls =>
      (renderToolCall lib call).bind fun rendered =>
        if rendered = [] then renderCalls between calls
        else (renderCalls (utf8 "\n") calls).map fun rest => between ++ rendered ++ rest

/-- The calls of an assistant message. -/
def renderToolCalls (m : Json) (assistantContent : Bytes) : Except String Bytes :=
  match m.find? "tool_calls" with
  | some (.array calls) => renderCalls lib (if assistantContent = [] then [] else utf8 "\n\n") calls
  | _ => .ok []

/-- The text of an assistant message, with its reasoning or without. -/
def renderAssistant (framed : Bool) (m : Json) (content : List β) : Except String (List β) :=
  let parts := assistantParts m content
  (renderToolCalls lib m (toBytes parts.2)).map fun calls =>
    lit "<|im_start|>assistant\n" ++
      (if framed then lit "<think>\n" ++ parts.1 ++ lit "\n</think>\n\n" else []) ++
      parts.2 ++ ofBytes calls ++ lit "<|im_end|>\n"

/-- `content`: what tools return may depend on its bytes. -/
def renderedContent (role : String) (content : List β) : List β := if role = "tool" then content else trim content

/-- The body of the loop, for an object that is not one of the leading messages. -/
def renderMessage (lastQueryIndex : ℕ) (messages : List (Message β)) (i : ℕ) (m : Message β) (t : Transcript β) :
    Except String (Transcript β) :=
  (roleOf m.json).bind fun role =>
    if isControl role then .ok t
    else
      let content := renderedContent role m.content
      if role = "user" then .ok (t.push i role (lit "<|im_start|>user\n") content (lit "<|im_end|>\n"))
      else if role = "assistant" then
        let framed := o.addGenerationPrompt && (o.stableHarnessReasoning || i > lastQueryIndex)
        (renderAssistant lib framed m.json content).map fun text => t.pushSegment i role text
      else if role = "tool" then
        (isToolMessage (previousMessage messages i)).bind fun prevTool =>
          (isToolMessage (jsonAt messages (i + 1))).map fun nextTool =>
            t.push i role
              ((if prevTool then [] else lit "<|im_start|>user") ++ lit "\n<tool_response>\n") content
              (lit "\n</tool_response>" ++ if nextTool then [] else lit "<|im_end|>\n")
      else .ok t

/-- The loop over the messages. -/
def renderLoop (numSys lastQueryIndex : ℕ) (messages : List (Message β)) :
    ℕ → List (Message β) → Transcript β → Except String (Transcript β)
  | _, [], t => .ok t
  | i, m :: rest, t =>
      if ¬ m.json.isObject ∨ i < numSys then renderLoop numSys lastQueryIndex messages (i + 1) rest t
      else
        (renderMessage lib o lastQueryIndex messages i m t).bind fun t =>
          renderLoop numSys lastQueryIndex messages (i + 1) rest t

/-- The final assistant header. -/
def generationHeader : List β :=
  lit "<|im_start|>assistant\n" ++
    if o.enableThinking then lit "<think>\n" else lit "<think>\n\n</think>\n\n"

/-- What `render_messages` returns and writes. -/
structure Rendered (β : Type) extends Transcript β where
  controlPrefixEnd : ℕ

/-- The transcript before the final header. -/
def renderBody (messages : List (Message β)) : Except String (Rendered β) :=
  (leadingSystem [] messages).bind fun found =>
    let start := controlPrefix lib o found.2
    (lastQueryIndexForTemplate o messages).bind fun lastQueryIndex =>
      (renderLoop lib o found.1 lastQueryIndex messages 0 messages ⟨start, []⟩).map fun t =>
        { t with controlPrefixEnd := start.length }

/-- `render_messages`. -/
def renderMessages (messages : List (Message β)) : Except String (Rendered β) :=
  (renderBody lib o messages).map fun r =>
    if o.addGenerationPrompt then { r with prompt := r.prompt ++ generationHeader o } else r

end Definitions

end Qw3.Chat
