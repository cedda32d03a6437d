import Qw3.Json.Value
import Qw3.Lib.Program

/-!
# The Anthropic event stream adapter

`AnthropicSseAdapter` of `anthropic_adapter.cpp`: it reads the bytes of an
OpenAI event stream and emits Anthropic events.

* `Event` — an event with its data; `Event.name` and `Event.payload` are what
  `emit_event` gets.
* `Outside` — what the adapter calls: the JSON parser and printer, and the
  callback that takes the events.
* `Session` — an adapter with what it emitted and its error text.
* `feed`, `finish` and the functions under them — the source's own.  A function
  that returns `false` leaves with `Exit.refused`, and one that throws with
  `Exit.threw`; what was done to the state stays.
-/

namespace Qw3.Anthropic

/-- A byte string. -/
abbrev Bytes := List UInt8

/-! ## Events -/

/-- What `content_block_start` announces. -/
inductive ContentBlock where
  | thinking
  | text
  | toolUse (id name : String)
  deriving DecidableEq

def ContentBlock.payload : ContentBlock → Json
  | .thinking => .ofMembers [("type", .string "thinking"), ("thinking", .string "")]
  | .text => .ofMembers [("type", .string "text"), ("text", .string "")]
  | .toolUse id name => .ofMembers [("type", .string "tool_use"), ("id", .string id),
      ("name", .string name), ("input", .object [])]

/-- What `content_block_delta` adds. -/
inductive Delta where
  | thinking (value : String)
  | signature (value : String)
  | text (value : String)
  | inputJson (value : String)
  deriving DecidableEq

def Delta.payload : Delta → Json
  | .thinking v => .ofMembers [("type", .string "thinking_delta"), ("thinking", .string v)]
  | .signature v => .ofMembers [("type", .string "signature_delta"), ("signature", .string v)]
  | .text v => .ofMembers [("type", .string "text_delta"), ("text", .string v)]
  | .inputJson v => .ofMembers [("type", .string "input_json_delta"), ("partial_json", .string v)]

/-- The events. -/
inductive Event where
  | messageStart (id model : String) (inputTokens : BitVec 64)
  | contentBlockStart (index : ℕ) (block : ContentBlock)
  | contentBlockDelta (index : ℕ) (delta : Delta)
  | contentBlockStop (index : ℕ)
  | messageDelta (stopReason : String) (outputTokens : BitVec 64)
  | messageStop
  | error (message type : String)
  deriving DecidableEq

/-- The name on the `event:` line. -/
def Event.name : Event → String
  | .messageStart _ _ _ => "message_start"
  | .contentBlockStart _ _ => "content_block_start"
  | .contentBlockDelta _ _ => "content_block_delta"
  | .contentBlockStop _ => "content_block_stop"
  | .messageDelta _ _ => "message_delta"
  | .messageStop => "message_stop"
  | .error _ _ => "error"

/-- The JSON on the `data:` line. -/
def Event.payload : Event → Json
  | .messageStart id model inputTokens => .ofMembers [("type", .string "message_start"),
      ("message", .ofMembers [("id", .string id), ("type", .string "message"),
        ("role", .string "assistant"), ("content", .array []), ("model", .string model),
        ("stop_reason", .null), ("stop_sequence", .null),
        ("usage", .ofMembers [("input_tokens", .unsigned inputTokens),
          ("output_tokens", .integer 0)])])]
  | .contentBlockStart index block => .ofMembers [("type", .string "content_block_start"),
      ("index", .unsigned index), ("content_block", block.payload)]
  | .contentBlockDelta index delta => .ofMembers [("type", .string "content_block_delta"),
      ("index", .unsigned index), ("delta", delta.payload)]
  | .contentBlockStop index => .ofMembers [("type", .string "content_block_stop"),
      ("index", .unsigned index)]
  | .messageDelta stopReason outputTokens => .ofMembers [("type", .string "message_delta"),
      ("delta", .ofMembers [("stop_reason", .string stopReason), ("stop_sequence", .null)]),
      ("usage", .ofMembers [("output_tokens", .unsigned outputTokens)])]
  | .messageStop => .ofMembers [("type", .string "message_stop")]
  | .error message type => .ofMembers [("type", .string "error"),
      ("error", .ofMembers [("type", .string type), ("message", .string message)])]

/-! ## Small functions of the source -/

/-- `anthropic_stop_reason`. -/
def anthropicStopReason (finishReason : String) : String :=
  if finishReason = "tool_calls" then "tool_use"
  else if finishReason = "length" then "max_tokens"
  else if finishReason = "stop_sequence" then "stop_sequence"
  else if finishReason = "pause_turn" then "pause_turn"
  else if finishReason = "refusal" then "refusal"
  else "end_turn"

/-- `message_id_from_openai`. -/
def messageIdFromOpenai (id : String) : String :=
  if id.startsWith "msg_" then id
  else if '-' ∈ id.toList then
    "msg_" ++ String.ofList ((id.toList.dropWhile fun c => c ≠ '-').drop 1)
  else "msg_" ++ id

/-- Sixteen hexadecimal digits. -/
def hex16 (v : BitVec 64) : String :=
  String.ofList ((List.range 16).reverse.map fun i => Nat.digitChar ((v >>> (i * 4)).toNat % 16))

/-- `opaque_signature`. -/
def opaqueSignature (thinking : String) : String :=
  let step := fun (p : BitVec 64 × BitVec 64) (c : UInt8) =>
    let c : BitVec 64 := c.toBitVec.setWidth 64
    ((p.1 ^^^ c) * 1099511628211,
      p.2 ^^^ (c + 0x9e3779b97f4a7c15 + (p.2 <<< 6) + (p.2 >>> 2)))
  let p := thinking.toUTF8.toList.foldl step (1469598103934665603, 1099511628211)
  hex16 p.1 ++ hex16 p.2

/-! ## The adapter -/

/-- `BlockKind`. -/
inductive BlockKind where
  | none
  | thinking
  | text
  | tool
  deriving DecidableEq

/-- `AnthropicSseAdapter`. -/
structure AnthropicSseAdapter where
  requestedModel : String
  messageId : String := ""
  pending : Bytes := []
  reasoning : String := ""
  finishReason : String := ""
  inputTokens : BitVec 64
  outputTokens : BitVec 64 := 0
  nextBlockIndex : ℕ := 0
  activeToolIndex : BitVec 32 := -1
  block : BlockKind := .none
  started : Bool := false
  completed : Bool := false
  emittedAnyBlock : Bool := false

/-- What the adapter calls. -/
structure Outside where
  /-- `json::parse`, or the text of its exception -/
  parse : Bytes → Except String Json
  /-- `dump`, which throws on a string that is not UTF-8 -/
  dump : Json → Except String Bytes
  /-- the callback, given what it was given before and the new event -/
  emit : List Bytes → Bytes → Bool

/-- An adapter, its caller's error text, and the events that the callback was
given. -/
structure Session where
  adapter : AnthropicSseAdapter
  error : String := ""
  events : List Event := []
  wires : List Bytes := []

/-- How a function leaves early. -/
inductive Exit where
  | refused
  | threw (what : String)

/-- A function of the adapter. -/
abbrev Action (α : Type) := Program Session Exit α

/-- What throws, throws. -/
def orThrow {α : Type} : Except String α → Action α
  | .ok a => pure a
  | .error what => throw (.threw what)

/-- A change of the adapter. -/
def update (f : AnthropicSseAdapter → AnthropicSseAdapter) : Action Unit :=
  modify fun s => { s with adapter := f s.adapter }

/-- Set the error text and return `false`. -/
def fail {α : Type} (message : String) : Action α := do
  modify fun s => { s with error := message }
  throw .refused

section Adapter

variable (out : Outside)

/-- `emit_event`. -/
def emitEvent (event : Event) : Action Unit := do
  let data ← orThrow (out.dump event.payload)
  let wire := ("event: " ++ event.name ++ "\ndata: ").toUTF8.toList ++ data ++ [10, 10]
  let s ← get
  set { s with events := s.events ++ [event], wires := s.wires ++ [wire] }
  if out.emit s.wires wire then pure () else throw .refused

/-- What `ensure_started` reads of the first chunk. -/
def nameMessage (chunk : Json) : Action Unit := do
  let id ← orThrow (chunk.value Json.getString "id" "message")
  update fun a => { a with messageId := messageIdFromOpenai id }
  let s ← get
  if s.adapter.requestedModel = "" then
    let model ← orThrow (chunk.value Json.getString "model" "qw3")
    update fun a => { a with requestedModel := model }
  else pure ()

/-- `ensure_started`. -/
def ensureStarted (chunk : Option Json) : Action Unit := do
  let s ← get
  if s.adapter.started then pure ()
  else
    chunk.elim (pure ()) nameMessage
    update fun a => { a with
      messageId := if a.messageId = "" then "msg_message" else a.messageId
      requestedModel := if a.requestedModel = "" then "qw3" else a.requestedModel
      started := true }
    let s ← get
    emitEvent out (.messageStart s.adapter.messageId s.adapter.requestedModel s.adapter.inputTokens)

/-- What `close_block` says last of a thinking block. -/
def signBlock : Action Unit := do
  let s ← get
  if s.adapter.block = .thinking then
    emitEvent out (.contentBlockDelta (s.adapter.nextBlockIndex - 1)
      (.signature (opaqueSignature s.adapter.reasoning)))
  else pure ()

/-- `close_block`. -/
def closeBlock : Action Unit := do
  let s ← get
  if s.adapter.block = .none then pure ()
  else
    signBlock out
    let s ← get
    emitEvent out (.contentBlockStop (s.adapter.nextBlockIndex - 1))
    update fun a => { a with block := .none, activeToolIndex := -1 }

/-- The `content_block` of `open_block`. -/
def contentBlock (kind : BlockKind) (toolDelta : Option Json) : Action ContentBlock :=
  match kind with
  | .thinking => pure .thinking
  | .text => pure .text
  | .tool =>
      match toolDelta, toolDelta.bind (Json.find? "function") with
      | some toolDelta, some (.object fn) => do
          let index ← orThrow (toolDelta.value Json.getInt "index" 0)
          update fun a => { a with activeToolIndex := index }
          let id ← orThrow (toolDelta.value Json.getString "id" "")
          let name ← orThrow ((Json.object fn).value Json.getString "name" "")
          pure (.toolUse id name)
      | _, _ => fail "tool-call delta is missing function metadata"
  | .none => fail "invalid Anthropic content block state"

/-- `open_block`. -/
def openBlock (kind : BlockKind) (toolDelta : Option Json) : Action Unit := do
  let s ← get
  if s.adapter.block = kind ∧ kind ≠ .tool then pure ()
  else
    closeBlock out
    let block ← contentBlock kind toolDelta
    let s ← get
    let index := s.adapter.nextBlockIndex
    update fun a => { a with nextBlockIndex := index + 1, block := kind, emittedAnyBlock := true }
    emitEvent out (.contentBlockStart index block)

/-- One `content_block_delta` of the block that is open. -/
def emitDelta (delta : Delta) : Action Unit := do
  let s ← get
  emitEvent out (.contentBlockDelta (s.adapter.nextBlockIndex - 1) delta)

/-- The message of an error chunk. -/
def errorMessage (error : Json) : Except String String :=
  match error with
  | .string message => .ok message
  | .object _ => error.value Json.getString "message" "upstream generation error"
  | _ => .ok "upstream generation error"

/-- `process_json`, the error chunk: the adapter has completed even when the
callback refuses the event. -/
def processError (error : Json) : Action Unit := do
  let message ← orThrow (errorMessage error)
  tryCatch (emitEvent out (.error message "api_error")) fun exit =>
    match exit with
    | .refused => do
        update fun a => { a with completed := true }
        throw .refused
    | .threw what => throw (.threw what)
  update fun a => { a with completed := true }

/-- `process_json`, the usage of a chunk. -/
def processUsage (chunk : Json) : Action Unit :=
  match chunk.find? "usage" with
  | some (.object usage) => do
      let s ← get
      let inputTokens ← orThrow
        ((Json.object usage).value Json.getSize "prompt_tokens" s.adapter.inputTokens)
      update fun a => { a with inputTokens := inputTokens }
      let outputTokens ← orThrow
        ((Json.object usage).value Json.getSize "completion_tokens" s.adapter.outputTokens)
      update fun a => { a with outputTokens := outputTokens }
  | _ => pure ()

/-- `process_json`, the reasoning of a delta. -/
def processReasoning (delta : Json) : Action Unit :=
  match delta.findString? "reasoning_content" with
  | some value =>
      if value = "" then pure ()
      else do
        openBlock out .thinking none
        update fun a => { a with reasoning := a.reasoning ++ value }
        emitDelta out (.thinking value)
  | none => pure ()

/-- `process_json`, the text of a delta. -/
def processContent (delta : Json) : Action Unit :=
  match delta.findString? "content" with
  | some value =>
      if value = "" then pure ()
      else do
        openBlock out .text none
        emitDelta out (.text value)
  | none => pure ()

/-- Whether a tool call has an ID or a name. -/
def hasMetadata (toolDelta : Json) : Bool :=
  toolDelta.contains "id" ||
    ((toolDelta.find? "function").bind (Json.find? "name")).isSome

/-- The block of a tool call: it goes on only where the block that is open has
its index and the delta has no metadata. -/
def toolBlock (toolDelta : Json) : Action Unit := do
  let index ← orThrow (toolDelta.value Json.getInt "index" 0)
  let s ← get
  if s.adapter.block ≠ .tool ∨ s.adapter.activeToolIndex ≠ index ∨ hasMetadata toolDelta then
    openBlock out .tool (some toolDelta)
  else pure ()

/-- `process_json`, one tool call of a delta. -/
def processTool (toolDelta : Json) : Action Unit :=
  if toolDelta.isObject then do
    toolBlock out toolDelta
    match (toolDelta.find? "function").bind (Json.findString? "arguments") with
    | some arguments => if arguments = "" then pure () else emitDelta out (.inputJson arguments)
    | none => pure ()
  else pure ()

/-- `process_json`, the tool calls of a delta. -/
def processTools (delta : Json) : Action Unit :=
  match delta.find? "tool_calls" with
  | some (.array toolDeltas) => toolDeltas.forM (processTool out)
  | _ => pure ()

/-- `process_json`, the end of a choice. -/
def processFinish (choice : Json) : Action Unit :=
  match choice.find? "finish_reason" with
  | some (.string reason) => do
      update fun a => { a with finishReason := reason }
      closeBlock out
  | some .null => pure ()
  | some _ => fail "OpenAI finish_reason must be a string or null"
  | none => pure ()

/-- `process_json`, the first choice of a chunk. -/
def processChoice (choice : Json) : Action Unit :=
  if choice.isObject then do
    let delta ← orThrow (choice.value .ok "delta" (.object []))
    processReasoning out delta
    processContent out delta
    processTools out delta
    processFinish out choice
  else pure ()

/-- `process_json`. -/
def processJson (chunk : Json) : Action Unit := do
  let s ← get
  if s.adapter.completed then pure ()
  else
    match chunk.find? "error" with
    | some error => processError out error
    | none =>
        ensureStarted out (some chunk)
        processUsage chunk
        match chunk.find? "choices" with
        | some (.array (choice :: _)) => processChoice out choice
        | _ => pure ()

/-- A message has at least one block. -/
def ensureBlock : Action Unit := do
  let s ← get
  if s.adapter.emittedAnyBlock then pure ()
  else
    openBlock out .text none
    closeBlock out

/-- `complete_message`. -/
def completeMessage : Action Unit := do
  let s ← get
  if s.adapter.completed then pure ()
  else
    ensureStarted out none
    closeBlock out
    ensureBlock out
    let s ← get
    let reason := anthropicStopReason
      (if s.adapter.finishReason = "" then "stop" else s.adapter.finishReason)
    emitEvent out (.messageDelta reason s.adapter.outputTokens)
    emitEvent out .messageStop
    update fun a => { a with completed := true }

/-- The lines that `std::getline` reads. -/
def getlines : Bytes → List Bytes
  | [] => []
  | c :: rest =>
      if c = 10 then [] :: getlines rest
      else
        match getlines rest with
        | [] => [[c]]
        | line :: lines => (c :: line) :: lines

/-- What a line adds to the data of its event. -/
def addLine (data line : Bytes) : Bytes :=
  let line := if line.getLast? = some 13 then line.dropLast else line
  if "data:".toUTF8.toList <+: line then
    let value := line.drop 5
    let value := if value.head? = some 32 then value.tail else value
    if data = [] then value else data ++ [10] ++ value
  else data

/-- `process_event`. -/
def processEvent (event : Bytes) : Action Unit :=
  let data := (getlines event).foldl addLine []
  if data = [] then pure ()
  else if data = "[DONE]".toUTF8.toList then completeMessage out
  else
    tryCatch (do
      let chunk ← orThrow (out.parse data)
      processJson out chunk) fun exit =>
        match exit with
        | .refused => throw .refused
        | .threw what => fail ("invalid OpenAI SSE JSON: " ++ what)

/-- The bytes up to the first empty line, and those after it. -/
def split : Bytes → Option (Bytes × Bytes)
  | 10 :: 10 :: rest => some ([], rest)
  | [] => none
  | c :: rest => (split rest).map fun p => (c :: p.1, p.2)

theorem length_of_split {bytes event rest : Bytes} (h : split bytes = some (event, rest)) :
    rest.length < bytes.length := by
  fun_induction split bytes generalizing event with
  | case1 rest' =>
      cases h
      exact Nat.lt_succ_of_lt (Nat.lt_succ_self _)
  | case2 => cases h
  | case3 c rest' _ ih =>
      obtain ⟨p, hp, heq⟩ := Option.map_eq_some_iff.mp h
      cases heq
      exact (ih hp).trans (Nat.lt_succ_self _)

/-- The events that are complete, each with the bytes that are pending after
it. -/
def splits (pending : Bytes) : List (Bytes × Bytes) :=
  match _h : split pending with
  | some (event, rest) => (event, rest) :: splits rest
  | none => []
termination_by pending.length
decreasing_by exact length_of_split _h

/-- `feed`. -/
def feed (data : Bytes) : Action Unit := do
  let s ← get
  if s.adapter.completed then pure ()
  else
    let pending := s.adapter.pending ++ data
    update fun a => { a with pending := pending }
    (splits pending).forM fun p => do
      update fun a => { a with pending := p.2 }
      processEvent out p.1

/-- What is pending when the stream ends is an event. -/
def flush : Action Unit := do
  let s ← get
  if s.adapter.pending = [] then pure ()
  else
    update fun a => { a with pending := [] }
    processEvent out s.adapter.pending

/-- `finish`. -/
def finish : Action Unit := do
  flush out
  completeMessage out

/-- The calls. -/
inductive Call where
  | feed (data : Bytes)
  | finish

def call : Call → Action Unit
  | .feed data => feed out data
  | .finish => finish out

/-- Calls one after another; the first that returns `false` or throws is the
last. -/
def stream (calls : List Call) : Action Unit := calls.forM (call out)

end Adapter

end Qw3.Anthropic
