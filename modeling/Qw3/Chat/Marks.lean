import Qw3.Chat.Spans

/-!
# A marked transcript

Rendering a chat in which bytes are marked gives the transcript of the chat, with the marks
where those bytes have come to.

* `Message.forget`, `Rendered.forget` — the same without the marks.
* `trim_forget`, `splitText_forget` — what is done with a text does not look at the marks.
* `renderMessages_forget` — **the marked transcript is the transcript**.
-/

namespace Qw3.Chat

open Qw3.Stream Qw3.Harness Qw3.ToolCalls Text

variable {β : Type} [Glyph β] {lib : Library} {o : Options}

def Message.forget (m : Message β) : Message UInt8 := ⟨m.json, toBytes m.content⟩

def Transcript.forget (t : Transcript β) : Transcript UInt8 := ⟨toBytes t.prompt, t.spans⟩

def Rendered.forget (r : Rendered β) : Rendered UInt8 := ⟨r.toTranscript.forget, r.controlPrefixEnd⟩

/-! ## Texts -/

@[simp] theorem toBytes_bytes (text : Bytes) : toBytes text = text := List.map_id text

@[simp] theorem length_toBytes (text : List β) : (toBytes text).length = text.length := List.length_map _

@[simp] theorem toBytes_nil : toBytes ([] : List β) = [] := rfl

@[simp] theorem toBytes_append (x y : List β) : toBytes (x ++ y) = toBytes x ++ toBytes y := List.map_append

@[simp] theorem toBytes_ofBytes (text : Bytes) : toBytes (ofBytes text : List β) = ofBytes text := by
  unfold toBytes ofBytes
  rw [List.map_map]
  exact List.map_congr_left fun b _ => Glyph.byte_plain b

@[simp] theorem toBytes_lit (s : String) : toBytes (lit s : List β) = lit s := toBytes_ofBytes _

theorem trim_forget (text : List β) : trim (toBytes text) = toBytes (trim text) := by
  unfold trim toBytes List.rdropWhile
  rw [List.dropWhile_map, ← List.map_reverse, List.dropWhile_map, List.map_reverse]
  rfl

theorem eraseFirst_forget (text : List β) : eraseFirst (toBytes text) = toBytes (eraseFirst text) := by
  unfold eraseFirst
  rw [toBytes_bytes]
  split_ifs
  · exact List.map_tail.symm
  · rfl

theorem eraseLast_forget (text : List β) : eraseLast (toBytes text) = toBytes (eraseLast text) := by
  unfold eraseLast
  rw [toBytes_bytes]
  split_ifs
  · exact List.map_dropLast.symm
  · rfl

/-- Reasoning and content are split at the same places. -/
theorem splitText_forget (text : List β) :
    splitText (toBytes text) = (toBytes (splitText text).1, toBytes (splitText text).2) := by
  have hdrop : ∀ (l : List β) n, (toBytes l).drop n = toBytes (l.drop n) := fun l n => List.map_drop.symm
  have htake : ∀ (l : List β) n, (toBytes l).take n = toBytes (l.take n) := fun l n => List.map_take.symm
  unfold splitText
  rw [toBytes_bytes]
  cases Search.find openTag (toBytes text) with
  | none => rfl
  | some start =>
      dsimp only
      rw [hdrop, toBytes_bytes]
      cases Search.find closeTag (toBytes (text.drop (start + openTag.length))) with
      | none =>
          dsimp only
          rw [eraseFirst_forget]
          rfl
      | some close =>
          dsimp only
          rw [hdrop, htake, eraseFirst_forget, eraseLast_forget]
          refine Prod.ext rfl ?_
          exact List.dropWhile_map

/-- With bytes for marks it is the function of the streams. -/
theorem splitText_bytes (text : Bytes) : splitText text = ((splitReasoning text).reasoning, (splitReasoning text).content) := by
  unfold splitText splitReasoning
  rw [toBytes_bytes]
  cases Search.find openTag text with
  | none => rfl
  | some start =>
      dsimp only
      rw [toBytes_bytes]
      cases Search.find closeTag (text.drop (start + openTag.length)) with
      | none =>
          dsimp only
          unfold eraseFirst eraseFront
          rw [toBytes_bytes]
      | some close =>
          dsimp only
          unfold eraseLast eraseFirst popBack eraseFront
          rw [toBytes_bytes, toBytes_bytes]
          rfl

/-! ## Messages -/

theorem assistantParts_forget (m : Json) (content : List β) :
    assistantParts m (toBytes content) = (toBytes (assistantParts m content).1, toBytes (assistantParts m content).2) := by
  unfold assistantParts
  cases m.findString? "reasoning_content" with
  | some reasoning =>
      dsimp only
      rw [toBytes_ofBytes]
  | none =>
      dsimp only
      rw [splitText_forget, toBytes_bytes, toBytes_bytes, toBytes_bytes]
      split_ifs
      · rw [trim_forget]
      · rfl

/-- An assistant turn, without its marks. -/
theorem renderAssistant_forget (framed : Bool) (m : Json) (content : List β) :
    renderAssistant lib framed m (toBytes content) = (renderAssistant lib framed m content).map toBytes := by
  unfold renderAssistant
  dsimp only
  rw [assistantParts_forget, toBytes_bytes]
  cases renderToolCalls lib m (toBytes (assistantParts m content).2) with
  | error what => rfl
  | ok calls =>
      refine congrArg Except.ok ?_
      cases framed with
      | true => simp only [if_true, toBytes_append, toBytes_lit, toBytes_ofBytes]
      | false => simp only [Bool.false_eq_true, if_false, toBytes_append, toBytes_lit, toBytes_ofBytes, toBytes_nil]

theorem renderedContent_forget (role : String) (content : List β) :
    renderedContent role (toBytes content) = toBytes (renderedContent role content) := by
  unfold renderedContent
  split_ifs
  · rfl
  · exact trim_forget content

theorem push_forget (t : Transcript β) (i : ℕ) (role : String) (before content after : List β) :
    t.forget.push i role (toBytes before) (toBytes content) (toBytes after) = (t.push i role before content after).forget := by
  unfold Transcript.forget Transcript.push
  simp only [toBytes_append, List.length_append, length_toBytes]

theorem pushSegment_forget (t : Transcript β) (i : ℕ) (role : String) (text : List β) :
    t.forget.pushSegment i role (toBytes text) = (t.pushSegment i role text).forget := by
  unfold Transcript.forget Transcript.pushSegment
  simp only [toBytes_append, List.length_append, length_toBytes]

section Messages

variable (messages : List (Message β))

theorem jsonAt_forget (i : ℕ) : jsonAt (messages.map Message.forget) i = jsonAt messages i := by
  unfold jsonAt
  rw [List.getElem?_map, Option.map_map]
  rfl

theorem previousMessage_forget (i : ℕ) : previousMessage (messages.map Message.forget) i = previousMessage messages i := by
  unfold previousMessage
  rw [jsonAt_forget]

/-- One message, without its marks. -/
theorem renderMessage_forget (last i : ℕ) (m : Message β) (t : Transcript β) :
    renderMessage lib o last (messages.map Message.forget) i m.forget t.forget =
      (renderMessage lib o last messages i m t).map Transcript.forget := by
  unfold renderMessage
  rw [previousMessage_forget, jsonAt_forget]
  show (roleOf m.json).bind _ = _
  cases roleOf m.json with
  | error what => rfl
  | ok role =>
      show (if _ then _ else _) = Except.map _ (if _ then _ else _)
      have hcontent : renderedContent role m.forget.content = toBytes (renderedContent role m.content) :=
        renderedContent_forget role m.content
      split_ifs with hcontrol huser hassistant htool
      · rfl
      · rw [hcontent, ← toBytes_lit (β := β) "<|im_start|>user\n", ← toBytes_lit (β := β) "<|im_end|>\n", push_forget]
        rfl
      · rw [hcontent]
        dsimp only
        generalize (o.addGenerationPrompt && (o.stableHarnessReasoning || decide (i > last))) = framed
        show (renderAssistant lib framed m.json _).map _ = _
        rw [renderAssistant_forget]
        cases renderAssistant lib framed m.json (renderedContent role m.content) with
        | error what => rfl
        | ok text => exact congrArg Except.ok (pushSegment_forget t i role text)
      · cases isToolMessage (previousMessage messages i) with
        | error what => rfl
        | ok prevTool =>
            cases isToolMessage (jsonAt messages (i + 1)) with
            | error what => rfl
            | ok nextTool =>
                refine congrArg Except.ok ?_
                rw [hcontent, ← push_forget]
                cases prevTool <;> cases nextTool <;>
                  simp only [Bool.false_eq_true, if_true, if_false, toBytes_append, toBytes_lit, toBytes_nil]
      · rfl

/-- The loop over the messages, without the marks. -/
theorem renderLoop_forget (numSys last i : ℕ) (rest : List (Message β)) (t : Transcript β) :
    renderLoop lib o numSys last (messages.map Message.forget) i (rest.map Message.forget) t.forget =
      (renderLoop lib o numSys last messages i rest t).map Transcript.forget := by
  induction rest generalizing i t with
  | nil => rfl
  | cons m rest ih =>
      rw [List.map_cons, renderLoop, renderLoop]
      show (if ¬ m.json.isObject = true ∨ i < numSys then _ else _) = _
      split_ifs with hskip
      · exact ih (i + 1) t
      · rw [renderMessage_forget]
        cases renderMessage lib o last messages i m t with
        | error what => rfl
        | ok t₁ => exact ih (i + 1) t₁

end Messages

theorem mergeSystem_forget (merged part : List β) :
    mergeSystem (toBytes merged) (toBytes part) = toBytes (mergeSystem merged part) := by
  unfold mergeSystem
  rw [toBytes_bytes, toBytes_bytes]
  split_ifs
  · rfl
  · rfl
  · simp only [toBytes_append, toBytes_lit]

/-- The merged system text, without its marks. -/
theorem leadingSystem_forget (merged : List β) (messages : List (Message β)) :
    leadingSystem (toBytes merged) (messages.map Message.forget) =
      (leadingSystem merged messages).map fun found => (found.1, toBytes found.2) := by
  induction messages generalizing merged with
  | nil => rfl
  | cons m messages ih =>
      rw [List.map_cons, leadingSystem, leadingSystem]
      show (if ¬ m.json.isObject = true then _ else (roleOf m.json).bind _) = _
      split_ifs with hobject
      · cases roleOf m.json with
        | error what => rfl
        | ok role =>
            show (if _ then _ else _) = Except.map _ (if _ then _ else _)
            split_ifs with hcontrol
            · have hpart : trim m.forget.content = toBytes (trim m.content) := trim_forget m.content
              rw [hpart, mergeSystem_forget, ih]
              cases leadingSystem (mergeSystem merged (trim m.content)) messages with
              | error what => rfl
              | ok found => rfl
            · rfl
      · rfl

theorem lastQuery_forget (l : List (Message β × ℕ)) :
    lastQuery o (l.map fun m => (m.1.forget, m.2)) = lastQuery o l := by
  induction l with
  | nil => rfl
  | cons m l ih =>
      rw [List.map_cons, lastQuery, lastQuery, ih]
      have hcontent : toBytes m.1.forget.content = toBytes m.1.content := toBytes_bytes _
      rw [hcontent]
      rfl

theorem lastQueryIndex_forget (messages : List (Message β)) :
    lastQueryIndexForTemplate o (messages.map Message.forget) = lastQueryIndexForTemplate o messages := by
  have hzip : (messages.map Message.forget).zipIdx.reverse =
      (messages.zipIdx.reverse).map fun m => (m.1.forget, m.2) := by
    rw [List.zipIdx_map, List.map_reverse]
    rfl
  unfold lastQueryIndexForTemplate
  rw [hzip, lastQuery_forget, List.length_map]

theorem controlPrefix_forget (merged : List β) :
    controlPrefix lib o (toBytes merged) = toBytes (controlPrefix lib o merged) := by
  unfold controlPrefix
  rw [toBytes_bytes]
  split
  · simp only [toBytes_append, toBytes_ofBytes, toBytes_lit]
    split_ifs
    · rfl
    · simp only [toBytes_append, toBytes_lit]
  · split_ifs
    · rfl
    · simp only [toBytes_append, toBytes_lit]

theorem generationHeader_forget : toBytes (generationHeader o : List β) = generationHeader o := by
  unfold generationHeader
  split_ifs
  · simp only [toBytes_append, toBytes_lit]
  · simp only [toBytes_append, toBytes_lit]

/-- The transcript before the final header, without its marks. -/
theorem renderBody_forget (messages : List (Message β)) :
    renderBody lib o (messages.map Message.forget) = (renderBody lib o messages).map Rendered.forget := by
  unfold renderBody
  have hleading : leadingSystem [] (messages.map Message.forget) =
      (leadingSystem [] messages).map fun found => (found.1, toBytes found.2) := leadingSystem_forget [] messages
  rw [hleading, lastQueryIndex_forget]
  cases leadingSystem [] messages with
  | error what => rfl
  | ok found =>
      cases lastQueryIndexForTemplate o messages with
      | error what => rfl
      | ok last =>
          have hstart : (⟨controlPrefix lib o (toBytes found.2), []⟩ : Transcript UInt8) =
              (⟨controlPrefix lib o found.2, []⟩ : Transcript β).forget := by
            rw [controlPrefix_forget]
            rfl
          show Except.map _ (renderLoop lib o found.1 last _ 0 _ ⟨controlPrefix lib o (toBytes found.2), []⟩) =
            Except.map _ (Except.map _ (renderLoop lib o found.1 last messages 0 messages _))
          rw [hstart, renderLoop_forget]
          cases renderLoop lib o found.1 last messages 0 messages ⟨controlPrefix lib o found.2, []⟩ with
          | error what => rfl
          | ok t =>
              refine congrArg Except.ok ?_
              unfold Rendered.forget
              rw [controlPrefix_forget, length_toBytes]

/-- **The marked transcript is the transcript.** -/
theorem renderMessages_forget (messages : List (Message β)) :
    renderMessages lib o (messages.map Message.forget) = (renderMessages lib o messages).map Rendered.forget := by
  unfold renderMessages
  rw [renderBody_forget]
  cases renderBody lib o messages with
  | error what => rfl
  | ok r =>
      refine congrArg Except.ok ?_
      dsimp only
      split_ifs
      · unfold Rendered.forget Transcript.forget
        rw [toBytes_append, generationHeader_forget]
      · rfl

end Qw3.Chat
