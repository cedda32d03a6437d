import Qw3.Json.Dump

/-!
# The Anthropic request converter

`anthropic_request_to_openai` of `anthropic_adapter.cpp`.

* `textContent` — the text of a content field.
* `systemMessages`, `appendUserMessage`, `appendAssistantMessage` — the messages
  that a system field and a message become.
* `convertMessages` — the messages array, with the count of what each becomes.
* `convertOptions` — the other fields.
* `anthropicRequestToOpenai` — the request, or its error text.

A function that returns `false` leaves with `Failure.refused`, and one that
throws with `Failure.threw`.
-/

namespace Qw3.Anthropic

/-- How a conversion fails. -/
inductive Failure where
  | refused (error : String)
  | threw (what : String)
  deriving DecidableEq, Repr

/-- An error text with what it is about before it. -/
def Failure.about (what : String) : Failure → Failure
  | .refused error => .refused (what ++ ": " ++ error)
  | .threw message => .threw message

/-- `json.value(key, missing)`, which may throw. -/
def valueOr {α : Type} (get : Json → Except String α) (key : String) (missing : α) (j : Json) :
    Except Failure α :=
  (j.value get key missing).mapError .threw

/-- A text begins with another. -/
def beginsWith (text start : String) : Bool := start.toList.isPrefixOf text.toList

/-! ## Text -/

/-- The text of one block of a content field. -/
def textBlock (block : Json) : Except Failure String :=
  if ¬ block.isObject then .error (.refused "content blocks must be objects")
  else
    (valueOr Json.getString "type" "" block).bind fun type =>
      match type == "text", block.findString? "text" with
      | true, some text => .ok text
      | _, _ => .error (.refused "only text blocks are supported in this content field")

/-- The texts of the blocks, one after the other. -/
def textBlocks : List Json → Except Failure String
  | [] => .ok ""
  | block :: blocks =>
      (textBlock block).bind fun text => (textBlocks blocks).map fun rest => text ++ rest

/-- `text_content`. -/
def textContent : Json → Except Failure String
  | .string s => .ok s
  | .null => .ok ""
  | .array blocks => textBlocks blocks
  | _ => .error (.refused "content must be a string or an array of content blocks")

/-! ## The system field -/

/-- The block that the client bills by. -/
def billingMarker (block : Json) : Except Failure Bool :=
  if ¬ block.isObject then .ok false
  else
    (valueOr Json.getString "type" "" block).map fun type =>
      match type == "text", block.findString? "text" with
      | true, some text =>
          beginsWith text "x-anthropic-billing-header:" && '\n' ∉ text.toList
      | _, _ => false

/-- The blocks that are not billing markers. -/
def withoutMarkers : List Json → Except Failure (List Json)
  | [] => .ok []
  | block :: blocks =>
      (billingMarker block).bind fun marker =>
        (withoutMarkers blocks).map fun rest => if marker then rest else block :: rest

/-- The system message of a text. -/
def systemMessage (text : String) : Json :=
  .ofMembers [("role", .string "system"), ("content", .string text)]

/-- `append_system_messages`. -/
def systemMessages (system : Json) : Except Failure (List Json) :=
  if system.isNull then .ok []
  else
    let filtered := match system with
      | .array blocks => (withoutMarkers blocks).map Json.array
      | _ => .ok system
    filtered.bind fun modelSystem =>
      ((textContent modelSystem).mapError (Failure.about "system")).map fun text =>
        if text = "" then [] else [systemMessage text]

/-! ## A user message -/

/-- The text of a part, if it is one of text. -/
def partText (part : Json) : Except Failure (Option String) :=
  if ¬ part.isObject then .ok none
  else
    (valueOr Json.getString "type" "" part).map fun type =>
      if type = "text" then part.findString? "text" else none

/-- The texts of the parts, if all are of text. -/
def joinTexts : List Json → Except Failure (Option String)
  | [] => .ok (some "")
  | part :: parts =>
      (partText part).bind fun text =>
        match text with
        | none => .ok none
        | some text => (joinTexts parts).map (Option.map fun rest => text ++ rest)

/-- `flush_content`: the message of the pending parts, if there are any. -/
def flushContent (pending : List Json) : Except Failure (List Json) :=
  if pending = [] then .ok []
  else
    (joinTexts pending).map fun text =>
      match text with
      | some text => [.ofMembers [("role", .string "user"), ("content", .string text)]]
      | none => [.ofMembers [("role", .string "user"), ("content", .array pending)]]

/-- The part that an image block becomes. -/
def imagePart (block : Json) : Except Failure Json :=
  match block.find? "source" with
  | some (.object members) =>
      let source := Json.object members
      (valueOr Json.getString "type" "" source).bind fun type =>
        match type == "base64", source.findString? "media_type", source.findString? "data" with
        | true, some mediaType, some data =>
            if data = "" then
              .error (.refused "image source requires type=base64, media_type, and data")
            else
              .ok (.ofMembers [("type", .string "image_url"), ("image_url", .ofMembers
                [("url", .string ("data:" ++ mediaType ++ ";base64," ++ data))])])
        | _, _, _ => .error (.refused "image source requires type=base64, media_type, and data")
  | _ => .error (.refused "image blocks require an object source")

/-- The parts of a tool result are of text or images. -/
def checkToolParts : List Json → Except Failure Unit
  | [] => .ok ()
  | part :: parts =>
      if ¬ part.isObject then
        .error (.refused "tool_result supports text and image blocks only")
      else
        (valueOr Json.getString "type" "" part).bind fun type =>
          if type ≠ "text" ∧ type ≠ "image" then
            .error (.refused "tool_result supports text and image blocks only")
          else checkToolParts parts

/-- The result of a tool, with the mark of an error before it. -/
def markError : Json → Except Failure Json
  | .string s => .ok (.string ("[tool_error]\n" ++ s))
  | .array parts =>
      .ok (.array (.ofMembers [("type", .string "text"), ("text", .string "[tool_error]\n")] ::
        parts))
  | j => .error (.threw (Json.typeError "309" ("cannot use insert() with " ++ j.typeName)))

section Nested

variable (nested : Json → Except Failure (List Json))

/-- The content of a tool result. -/
def toolContent (block : Json) : Except Failure Json :=
  match block.find? "content" with
  | some (.array parts) =>
      (checkToolParts parts).bind fun _ =>
        ((nested (.array parts)).mapError (Failure.about "tool_result")).map fun converted =>
          (converted.head?.bind (Json.find? "content")).getD .null
  | some content => ((textContent content).mapError (Failure.about "tool_result")).map Json.string
  | none => .ok (.string "")

/-- The message of a tool result. -/
def toolMessage (block : Json) : Except Failure Json :=
  match block.findString? "tool_use_id" with
  | none => .error (.refused "tool_result blocks require a string tool_use_id")
  | some id =>
      (toolContent nested block).bind fun result =>
        (valueOr Json.getBool "is_error" false block).bind fun isError =>
          (if isError then markError result else .ok result).map fun result =>
            .ofMembers [("role", .string "tool"), ("tool_call_id", .string id),
              ("content", result)]

/-- The blocks of a user message, with the parts that are pending. -/
def userBlocks (pending : List Json) : List Json → Except Failure (List Json)
  | [] => flushContent pending
  | block :: blocks =>
      if ¬ block.isObject then .error (.refused "user content blocks must be objects")
      else
        (valueOr Json.getString "type" "" block).bind fun type =>
          if type = "text" then
            match block.findString? "text" with
            | none => .error (.refused "text blocks require a string text field")
            | some text =>
                userBlocks (pending ++
                  [.ofMembers [("type", .string "text"), ("text", .string text)]]) blocks
          else if type = "image" then
            (imagePart block).bind fun part => userBlocks (pending ++ [part]) blocks
          else if type = "tool_result" then
            (flushContent pending).bind fun flushed =>
              (toolMessage nested block).bind fun message =>
                (userBlocks [] blocks).map fun rest => flushed ++ message :: rest
          else .error (.refused ("unsupported user content block type: " ++ type))

/-- `append_user_message`, which converts the content of a tool result by itself. -/
def appendUserMessageWith (content : Json) : Except Failure (List Json) :=
  match content with
  | .string s => .ok [.ofMembers [("role", .string "user"), ("content", .string s)]]
  | .array blocks =>
      (userBlocks nested [] blocks).map fun messages =>
        if blocks = [] then
          messages ++ [.ofMembers [("role", .string "user"), ("content", .string "")]]
        else messages
  | _ => .error (.refused "user message content must be a string or an array")

end Nested

/-- `append_user_message`.  The content of a tool result has no tool results, so
the call within it makes no other. -/
def appendUserMessage : Json → Except Failure (List Json) :=
  appendUserMessageWith (appendUserMessageWith fun _ => .ok [])

/-! ## An assistant message -/

/-- What the blocks of an assistant message add up to. -/
structure Assistant where
  text : String := ""
  reasoning : String := ""
  toolCalls : List Json := []

section Assistant

variable (F : FloatText)

/-- One block of an assistant message. -/
def assistantBlock (a : Assistant) (block : Json) : Except Failure Assistant :=
  if ¬ block.isObject then .error (.refused "assistant content blocks must be objects")
  else
    (valueOr Json.getString "type" "" block).bind fun type =>
      if type = "text" then
        match block.findString? "text" with
        | none => .error (.refused "text blocks require a string text field")
        | some text => .ok { a with text := a.text ++ text }
      else if type = "thinking" then
        match block.findString? "thinking" with
        | none => .error (.refused "thinking blocks require a string thinking field")
        | some thinking => .ok { a with reasoning := a.reasoning ++ thinking }
      else if type = "tool_use" then
        match block.findString? "id", block.findString? "name", block.find? "input" with
        | some id, some name, some (.object input) =>
            let arguments := String.ofList ((Json.object input).dump F)
            let call := Json.ofMembers [("id", .string id), ("type", .string "function"),
              ("function", .ofMembers [("name", .string name), ("arguments", .string arguments)])]
            .ok { a with toolCalls := a.toolCalls ++ [call] }
        | _, _, _ => .error (.refused "tool_use blocks require string id/name and object input")
      else .error (.refused ("unsupported assistant content block type: " ++ type))

/-- `append_assistant_message`. -/
def appendAssistantMessage (content : Json) : Except Failure (List Json) :=
  match content with
  | .string s => .ok [.ofMembers [("role", .string "assistant"), ("content", .string s)]]
  | .array blocks =>
      (blocks.foldlM (assistantBlock F) {}).map fun a =>
        [.ofMembers ([("role", .string "assistant"), ("content", .string a.text)] ++
          (if a.reasoning = "" then [] else [("reasoning_content", .string a.reasoning)]) ++
          (if a.toolCalls = [] then [] else [("tool_calls", .array a.toolCalls)]))]
  | _ => .error (.refused "assistant message content must be a string or an array")

/-! ## The messages -/

/-- What one message becomes. -/
def convertMessage (message : Json) : Except Failure (List Json) :=
  match message.findString? "role", message.find? "content" with
  | some role, some content =>
      if role = "user" then appendUserMessage content
      else if role = "assistant" then appendAssistantMessage F content
      else .error (.refused "message role must be user or assistant")
  | _, _ => .error (.refused "each message requires string role and content")

/-- The loop of `convert_messages`: the messages, and how many each becomes. -/
def convertEach : List Json → Except Failure (List Json × List ℕ)
  | [] => .ok ([], [])
  | message :: messages =>
      (convertMessage F message).bind fun converted =>
        (convertEach messages).map fun (rest, counts) =>
          (converted ++ rest, converted.length :: counts)

/-- `convert_messages`. -/
def convertMessages : Json → Except Failure (List Json × List ℕ)
  | .array messages => convertEach F messages
  | _ => .error (.refused "messages must be an array")

end Assistant

/-! ## The other fields -/

/-- `valid_positive_int`. -/
def validPositiveInt : Json → Option (BitVec 64)
  | .integer n | .unsigned n => if 0 < n.toInt ∧ n.toInt ≤ 2147483647 then some n else none
  | _ => none

/-- One tool of `convert_tools`. -/
def convertTool (tool : Json) : Except Failure Json :=
  match tool.findString? "name", tool.find? "input_schema" with
  | some name, some (.object schema) =>
      let function := [("name", .string name), ("parameters", .object schema)]
      let finish := fun (members : List (String × Json)) =>
        Json.ofMembers [("type", .string "function"), ("function", .ofMembers members)]
      match tool.find? "description" with
      | none => .ok (finish function)
      | some (.string description) =>
          .ok (finish (function ++ [("description", .string description)]))
      | some _ => .error (.refused "tool description must be a string")
  | _, _ => .error (.refused "each tool requires string name and object input_schema")

/-- `convert_tools`. -/
def convertTools : Json → Except Failure Json
  | .array tools => (tools.mapM convertTool).map Json.array
  | _ => .error (.refused "tools must be an array")

/-- `convert_tool_choice`. -/
def convertToolChoice (input : Json) : Except Failure Json :=
  if ¬ input.isObject then .error (.refused "tool_choice must be an object")
  else
    (valueOr Json.getString "type" "" input).bind fun type =>
      if type = "auto" then .ok (.string "auto")
      else if type = "any" then .ok (.string "required")
      else if type = "none" then .ok (.string "none")
      else if type = "tool" then
        match input.findString? "name" with
        | some name =>
            if name = "" then
              .error (.refused "tool_choice type=tool requires a non-empty name")
            else
              .ok (.ofMembers [("type", .string "function"),
                ("function", .ofMembers [("name", .string name)])])
        | none => .error (.refused "tool_choice type=tool requires a non-empty name")
      else .error (.refused "tool_choice.type must be auto, any, none, or tool")

/-- The members for the thinking field. -/
def convertThinking (thinking : Json) : Except Failure (List (String × Json)) :=
  match thinking.findString? "type" with
  | none => .error (.refused "thinking requires a string type")
  | some type =>
      if type = "disabled" then .ok [("enable_thinking", .boolean false)]
      else if type = "enabled" ∨ type = "adaptive" then
        match thinking.find? "budget_tokens" with
        | none => .ok [("enable_thinking", .boolean true)]
        | some value =>
            match validPositiveInt value with
            | some budget =>
                .ok [("enable_thinking", .boolean true), ("thinking_budget", .integer budget)]
            | none => .error (.refused "thinking.budget_tokens must be a positive integer")
      else .error (.refused "thinking.type must be enabled, disabled, or adaptive")

/-- The members for one field, none where it is missing. -/
def optional (get : String → Option Json) (key : String)
    (convert : Json → Except Failure (List (String × Json))) :
    Except Failure (List (String × Json)) :=
  match get key with
  | none => .ok []
  | some value => convert value

/-- `max_tokens`. -/
def convertMaxTokens (value : Json) : Except Failure (List (String × Json)) :=
  match validPositiveInt value with
  | some n => .ok [("max_tokens", .integer n)]
  | none => .error (.refused "max_tokens must be a positive integer")

/-- `stop_sequences`. -/
def convertStop : Json → Except Failure (List (String × Json))
  | .array stops =>
      if stops.all fun stop => match stop with | .string _ => true | _ => false then
        .ok [("stop", .array stops)]
      else .error (.refused "stop_sequences entries must be strings")
  | _ => .error (.refused "stop_sequences must be an array")

/-- `stream`. -/
def convertStream : Json → Except Failure (List (String × Json))
  | .boolean b => .ok [("stream", .boolean b)]
  | _ => .error (.refused "stream must be a boolean")

/-- The fields after the messages, which are read by their keys. -/
def convertOptions (get : String → Option Json) : Except Failure (List (String × Json)) := do
  let maxTokens ← optional get "max_tokens" convertMaxTokens
  let copied := ["temperature", "top_p", "top_k"].filterMap fun key =>
    (get key).map fun value => (key, value)
  let stop ← optional get "stop_sequences" convertStop
  let stream ← optional get "stream" convertStream
  let tools ← optional get "tools" fun value =>
    (convertTools value).map fun tools => [("tools", tools)]
  let choice ← optional get "tool_choice" fun value =>
    (convertToolChoice value).map fun choice => [("tool_choice", choice)]
  let thinking ← optional get "thinking" convertThinking
  let members := maxTokens ++ copied ++ stop ++ stream ++ tools ++ choice ++ thinking
  -- The final usage chunk is always asked for.
  let usage ← valueOr Json.getBool "stream" false (.ofMembers members)
  .ok (members ++ if usage then
    [("stream_options", .ofMembers [("include_usage", .boolean true)])] else [])

/-! ## The request -/

/-- The messages of the system field, none where it is missing. -/
def systemField (request : Json) : Except Failure (List Json) :=
  match request.find? "system" with
  | none => .ok []
  | some system => systemMessages system

/-- `AnthropicMessageMapping`. -/
structure AnthropicMessageMapping where
  systemCount : ℕ := 0
  messageCounts : List ℕ := []
  deriving DecidableEq

/-- The converted request, from its parts. -/
def openaiRequest (model : String) (messages : List Json) (options : List (String × Json)) : Json :=
  .ofMembers (("model", .string model) :: ("messages", .array messages) :: options)

section Request

variable (F : FloatText)

/-- `anthropic_request_to_openai_impl`. -/
def anthropicRequestToOpenaiImpl (request : Json) (requireMaxTokens : Bool) :
    Except Failure (Json × AnthropicMessageMapping) :=
  if ¬ request.isObject then .error (.refused "request body must be a JSON object")
  else
    match request.findString? "model" with
    | none => .error (.refused "model must be a non-empty string")
    | some model =>
        if model = "" then .error (.refused "model must be a non-empty string")
        else
          match request.find? "messages" with
          | none => .error (.refused "messages is required")
          | some messages =>
              if requireMaxTokens ∧ ¬ request.contains "max_tokens" then
                .error (.refused "max_tokens is required")
              else do
                let system ← systemField request
                let (converted, counts) ← convertMessages F messages
                let options ← convertOptions fun key => request.find? key
                .ok (openaiRequest model (system ++ converted) options, ⟨system.length, counts⟩)

/-- `anthropic_request_to_openai`: the request, or the error text. -/
def anthropicRequestToOpenai (request : Json) (requireMaxTokens : Bool) :
    Except String (Json × AnthropicMessageMapping) :=
  match anthropicRequestToOpenaiImpl F request requireMaxTokens with
  | .ok result => .ok result
  | .error (.refused error) => .error error
  | .error (.threw what) => .error ("invalid Anthropic request field: " ++ what)

end Request

end Qw3.Anthropic
