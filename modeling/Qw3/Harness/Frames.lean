import Mathlib.Data.List.DropRight
import Qw3.Lib.Search
import Qw3.Lib.SortUnique
import Qw3.Stream.ToolCall

/-!
# Reminder frames

What a harness puts between the user's words (`harness_semantics.cpp`): reminders, which
are classified by their texts, and tool responses.

* `reminderFrames` — the frames of a message, `classifyFrame` what each of them is.
* `isToolResultMessage`, `isMetaOnlyMessage` — the messages that are no user's.
* `reminderFrames_spec` — a frame is a reminder in the text, and what it is follows from
  its bytes.
-/

namespace Qw3.Harness

open Search Qw3.Stream

/-! ## The source -/

/-- `HarnessKind`. -/
inductive HarnessKind where
  | none
  | claudeCode
  | openCode
  | deepSeekHarness
  | miniSweAgent
  | genericToolClient
  deriving DecidableEq

/-- `HarnessRenderedMessageSpan`. -/
structure HarnessRenderedMessageSpan where
  messageIndex : ℕ
  role : String
  segmentBegin : ℕ
  segmentEnd : ℕ
  contentBegin : ℕ
  contentEnd : ℕ
  deriving DecidableEq

/-- `kReminderOpen`. -/
def kReminderOpen : Bytes := "<system-reminder>".toUTF8.toList

/-- `kReminderClose`. -/
def kReminderClose : Bytes := "</system-reminder>".toUTF8.toList

/-- `std::tolower`. -/
def tolower (c : UInt8) : UInt8 := if 0x41 ≤ c ∧ c ≤ 0x5A then c + 0x20 else c

/-- `ascii_lower`. -/
def asciiLower (value : Bytes) : Bytes := value.map tolower

/-- `ascii_space_only`. -/
def asciiSpaceOnly (value : Bytes) : Bool := value.all isSpace

/-- `trim_ascii`. -/
def trimAscii (value : Bytes) : Bytes := (value.dropWhile isSpace).rdropWhile isSpace

/-- `value.substr(pos, count)`. -/
def substr (value : Bytes) (pos count : ℕ) : Bytes := (value.drop pos).take count

/-- `ReminderFrame`. -/
structure ReminderFrame where
  begin' : ℕ
  finish : ℕ
  persistentPolicy : Bool
  completeBaseline : Bool
  policyKeys : List Bytes
  deriving DecidableEq

/-- `prefixes`. -/
def instructionPrefixes : List Bytes :=
  ["Instructions from:".toUTF8.toList, "Additional instructions from:".toUTF8.toList,
    "Updated instructions from:".toUTF8.toList, "Instructions removed:".toUTF8.toList]

/-- The key that a trimmed line names. -/
def instructionKey (line : Bytes) : Option Bytes :=
  match instructionPrefixes.find? fun p => p <+: line with
  | none => none
  | some p =>
      let key := trimAscii (line.drop p.length)
      if key = [] then none else some key

/-- `instruction_keys`. -/
def instructionKeys (body : Bytes) : List Bytes :=
  sortUnique (fun a b => a < b) ((body.splitOn 0x0A).filterMap fun line => instructionKey (trimAscii line))

/-- `lower.find(word) != npos` -/
def mentions (lower : Bytes) (word : String) : Bool := (find word.toUTF8.toList lower).isSome

/-- `classify_frame`. -/
def classifyFrame (begin' finish : ℕ) (body : Bytes) : ReminderFrame :=
  let lower := asciiLower body
  let completeBaseline := mentions lower "complete workspace instruction baseline" ||
    mentions lower "the following workspace instructions may be relevant"
  { begin', finish
    policyKeys := instructionKeys body
    completeBaseline
    persistentPolicy := completeBaseline || instructionKeys body ≠ [] || mentions lower "agents.md" ||
      mentions lower "claude.md" || mentions lower "claudemd" }

theorem length_kReminderOpen : kReminderOpen.length = 17 := by decide +kernel

theorem length_kReminderClose : kReminderClose.length = 18 := by decide +kernel

theorem kReminderOpen_ne_nil : kReminderOpen ≠ [] := by
  intro h
  have hlen := length_kReminderOpen
  rw [h] at hlen
  cases hlen

theorem kReminderClose_ne_nil : kReminderClose ≠ [] := by
  intro h
  have hlen := length_kReminderClose
  rw [h] at hlen
  cases hlen

/-- The loop of `reminder_frames`, from its cursor on. -/
def reminderFramesFrom (content : Bytes) (cursor : ℕ) : List ReminderFrame :=
  match _hbegin : findFrom kReminderOpen content cursor with
  | none => []
  | some begin' =>
      let bodyBegin := begin' + kReminderOpen.length
      match _hclose : findFrom kReminderClose content bodyBegin with
      | none => []
      | some close =>
          classifyFrame begin' (close + kReminderClose.length)
              (substr content bodyBegin (close - bodyBegin)) ::
            reminderFramesFrom content (close + kReminderClose.length)
termination_by content.length - cursor
decreasing_by
  have hbegin := findFrom_eq_some kReminderOpen_ne_nil _hbegin
  have hclose := findFrom_eq_some kReminderClose_ne_nil _hclose
  have := length_kReminderClose
  omega

/-- `reminder_frames`. -/
def reminderFrames (content : Bytes) : List ReminderFrame := reminderFramesFrom content 0

section Messages

variable (kind : HarnessKind) (prompt : Bytes) (span : HarnessRenderedMessageSpan)

/-- `frame_is_control`. -/
def frameIsControl (frame : ReminderFrame) : Bool :=
  match kind with
  | .none => false
  | .genericToolClient | .miniSweAgent => frame.persistentPolicy
  | _ => true

/-- `looks_like_tool_response`. -/
def looksLikeToolResponse (content : Bytes) : Bool :=
  let content := trimAscii content
  let openTag := "<tool_response>".toUTF8.toList
  let closeTag := "</tool_response>".toUTF8.toList
  openTag.length + closeTag.length ≤ content.length ∧ openTag <+: content ∧ closeTag <:+ content

/-- `valid_segment_bounds`. -/
def validSegmentBounds : Bool := span.segmentBegin < span.segmentEnd ∧ span.segmentEnd ≤ prompt.length

/-- `valid_content_bounds`. -/
def validContentBounds : Bool :=
  validSegmentBounds prompt span ∧ span.contentBegin ≤ span.contentEnd ∧
    span.contentEnd ≤ prompt.length ∧ span.segmentBegin ≤ span.contentBegin ∧
    span.contentEnd ≤ span.segmentEnd

/-- `prompt.substr(span.content_begin, span.content_end - span.content_begin)` -/
def contentOf : Bytes := substr prompt span.contentBegin (span.contentEnd - span.contentBegin)

/-- `is_tool_result_message`. -/
def isToolResultMessage : Bool :=
  if validSegmentBounds prompt span then
    if span.role = "tool" then true
    else if span.role ≠ "user" ∨ validContentBounds prompt span = false then false
    else looksLikeToolResponse (contentOf prompt span)
  else false

/-- The loop of `harness_message_is_meta_only` over the frames. -/
def metaOnlyFrom (content : Bytes) : List ReminderFrame → ℕ → Bool
  | [], cursor => asciiSpaceOnly (content.drop cursor)
  | frame :: frames, cursor =>
      if frameIsControl kind frame = false ∨ frame.begin' < cursor ∨
          asciiSpaceOnly (substr content cursor (frame.begin' - cursor)) = false then false
      else metaOnlyFrom content frames frame.finish

/-- `harness_message_is_meta_only`. -/
def harnessMessageIsMetaOnly (content : Bytes) : Bool :=
  let frames := reminderFrames content
  if frames = [] then false else metaOnlyFrom kind content frames 0

/-- `is_meta_only_message`. -/
def isMetaOnlyMessage : Bool :=
  if span.role ≠ "user" ∨ validContentBounds prompt span = false then false
  else harnessMessageIsMetaOnly kind (contentOf prompt span)

end Messages

theorem validContentBounds_iff {prompt : Bytes} {span : HarnessRenderedMessageSpan} :
    validContentBounds prompt span = true ↔
      (span.segmentBegin < span.segmentEnd ∧ span.segmentEnd ≤ prompt.length) ∧
        span.contentBegin ≤ span.contentEnd ∧ span.contentEnd ≤ prompt.length ∧
        span.segmentBegin ≤ span.contentBegin ∧ span.contentEnd ≤ span.segmentEnd := by
  rw [validContentBounds, decide_eq_true_eq, validSegmentBounds, decide_eq_true_eq]

/-! ## The frames -/

section Frames

variable {content : Bytes} {cursor begin' close : ℕ} {frame : ReminderFrame}

theorem reminderFramesFrom_none (h : findFrom kReminderOpen content cursor = none) :
    reminderFramesFrom content cursor = [] := by
  rw [reminderFramesFrom]
  split
  next => rfl
  next hbegin =>
    rw [h] at hbegin
    cases hbegin

theorem reminderFramesFrom_some (hbegin : findFrom kReminderOpen content cursor = some begin')
    (hclose : findFrom kReminderClose content (begin' + kReminderOpen.length) = some close) :
    reminderFramesFrom content cursor =
      classifyFrame begin' (close + kReminderClose.length) (substr content (begin' + kReminderOpen.length)
          (close - (begin' + kReminderOpen.length))) ::
        reminderFramesFrom content (close + kReminderClose.length) := by
  rw [reminderFramesFrom]
  split
  next hnone =>
    rw [hbegin] at hnone
    cases hnone
  next hsome =>
    rw [hbegin] at hsome
    cases hsome
    dsimp only
    split
    next hnone =>
      rw [hclose] at hnone
      cases hnone
    next hsome =>
      rw [hclose] at hsome
      cases hsome
      rfl

theorem substr_add (content : Bytes) (pos a b : ℕ) :
    substr content pos (a + b) = substr content pos a ++ substr content (pos + a) b := by
  unfold substr
  rw [List.take_add, List.drop_drop]

theorem substr_substr {value : Bytes} {a pos count n : ℕ} (h : pos + n ≤ count) :
    substr (substr value a count) pos n = substr value (a + pos) n := by
  unfold substr
  rw [List.drop_take, List.take_take, List.drop_drop, min_eq_left (by omega)]

theorem substr_append {value : Bytes} {pos count : ℕ} (h : pos + count ≤ value.length) (more : Bytes) :
    substr (value ++ more) pos count = substr value pos count := by
  unfold substr
  rw [List.drop_append_of_le_length (by omega), List.take_append_of_le_length]
  rw [List.length_drop]
  omega

theorem length_substr_le (value : Bytes) (pos count : ℕ) : (substr value pos count).length ≤ count :=
  List.length_take_le _ _

theorem substr_of_occursAt {w : Bytes} {pos : ℕ} (h : OccursAt w content pos) :
    substr content pos w.length = w := (List.prefix_iff_eq_take.mp h).symm

/-- A frame is a reminder in the text, and is what its body says. -/
theorem reminderFrames_spec (h : frame ∈ reminderFramesFrom content cursor) :
    frame.begin' ≤ frame.finish ∧ frame.finish ≤ content.length ∧ ∃ body,
      substr content frame.begin' (frame.finish - frame.begin') = kReminderOpen ++ body ++ kReminderClose ∧
      frame = classifyFrame frame.begin' frame.finish body := by
  fun_induction reminderFramesFrom content cursor with
  | case1 => cases h
  | case2 => cases h
  | case3 cursor begin' hbegin bodyBegin close hclose ih =>
      rcases List.mem_cons.mp h with rfl | h
      · obtain ⟨-, hopen, -⟩ := findFrom_eq_some kReminderOpen_ne_nil hbegin
        obtain ⟨hle, hat, hend⟩ := findFrom_eq_some kReminderClose_ne_nil hclose
        have hbody : bodyBegin = begin' + kReminderOpen.length := rfl
        refine ⟨by rw [classifyFrame]; dsimp only; omega, hend, substr content bodyBegin (close - bodyBegin), ?_, rfl⟩
        rw [classifyFrame]
        dsimp only
        rw [show close + kReminderClose.length - begin' =
            kReminderOpen.length + (close - bodyBegin) + kReminderClose.length by omega,
          substr_add, substr_add, substr_of_occursAt hopen,
          show begin' + (kReminderOpen.length + (close - bodyBegin)) = close by omega,
          substr_of_occursAt hat]
      · exact ih h

end Frames

end Qw3.Harness
