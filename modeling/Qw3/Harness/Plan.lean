import Qw3.Harness.Frames

/-!
# The semantic plan of a prompt

`derive_harness_semantic_plan` (`harness_semantics.cpp`), part by part.

* `policyFrames`, `pinned` — the policies, and those that stay in the prompt.
* `rootQueryOrder`, `queryOrder`, `suffixOrder` — the messages of the user, and where the
  unfinished round begins.
* `deriveHarnessSemanticPlan` — the plan.
* `mem_spans`, `retreat_spec`, `latestByKey_eq_some` — what the parts compute.
-/

namespace Qw3.Harness

open Qw3.Stream

/-! ## The source -/

/-- `HarnessSpanReason`, in its order. -/
inductive HarnessSpanReason where
  | systemControl
  | currentQuery
  | liveToolTrajectory
  | projectPolicy
  | rootTask
  deriving DecidableEq

/-- `HarnessByteSpan`. -/
structure HarnessByteSpan where
  begin' : ℕ
  finish : ℕ
  reason : HarnessSpanReason
  deriving DecidableEq

/-- `HarnessSemanticPlan`. -/
structure HarnessSemanticPlan where
  rootTaskMessageIndex : Option ℕ := none
  currentQueryMessageIndex : Option ℕ := none
  liveSuffixMessageBeginIndex : Option ℕ := none
  liveSuffixSpan : Option HarnessByteSpan := none
  historyEnd : ℕ := 0
  spans : List HarnessByteSpan := []
  projectPolicyFrameCount : ℕ := 0
  deriving DecidableEq

/-- `PolicyFrameRef`. -/
structure PolicyFrameRef where
  messageOrder : ℕ
  promptBegin : ℕ
  promptEnd : ℕ
  completeBaseline : Bool
  keys : List Bytes
  deriving DecidableEq

/-- The comparison of the spans. -/
def HarnessByteSpan.less (a b : HarnessByteSpan) : Bool :=
  if a.begin' ≠ b.begin' then a.begin' < b.begin'
  else if a.finish ≠ b.finish then a.finish < b.finish
  else a.reason.ctorIdx < b.reason.ctorIdx

section Definitions

variable (kind : HarnessKind) (prompt : Bytes) (messages : List HarnessRenderedMessageSpan)

/-- The policies of a message. -/
def messagePolicies (order : ℕ) (span : HarnessRenderedMessageSpan) : List PolicyFrameRef :=
  if validContentBounds prompt span = false ∨ (span.role ≠ "user" ∧ span.role ≠ "tool") then []
  else ((reminderFrames (contentOf prompt span)).filter ReminderFrame.persistentPolicy).map fun frame =>
    { messageOrder := order
      promptBegin := span.contentBegin + frame.begin'
      promptEnd := span.contentBegin + frame.finish
      completeBaseline := frame.completeBaseline
      keys := frame.policyKeys }

/-- `policies`. -/
def policyFrames : List PolicyFrameRef :=
  messages.zipIdx.flatMap fun m => messagePolicies prompt m.2 m.1

/-- `latest_baseline`. -/
def latestBaseline (policies : List PolicyFrameRef) : Option ℕ :=
  policies.zipIdx.foldl (fun latest f => if f.1.completeBaseline then some f.2 else latest) none

/-- `first_relevant_policy`. -/
def firstRelevantPolicy (policies : List PolicyFrameRef) : ℕ := (latestBaseline policies).getD 0

/-- `latest_by_key`. -/
def latestByKey (policies : List PolicyFrameRef) : Bytes → Option ℕ :=
  (policies.zipIdx.drop (firstRelevantPolicy policies)).foldl
    (fun latest f => f.1.keys.foldl (fun latest key => Function.update latest key (some f.2)) latest)
    fun _ => none

/-- `keep`, for the frame at a place. -/
def keep (policies : List PolicyFrameRef) (f : PolicyFrameRef × ℕ) : Bool :=
  latestBaseline policies = some f.2 ∨ (f.1.keys = [] ∧ f.1.completeBaseline = false) ∨
    ∃ key ∈ f.1.keys, latestByKey policies key = some f.2

/-- The frames that are kept, with their places. -/
def pinned (policies : List PolicyFrameRef) : List (PolicyFrameRef × ℕ) :=
  (policies.zipIdx.drop (firstRelevantPolicy policies)).filter (keep policies)

/-- A message of the user that is neither a tool response nor the harness's. -/
def isQuery (span : HarnessRenderedMessageSpan) : Bool :=
  if span.role ≠ "user" ∨ validContentBounds prompt span = false then false
  else !(looksLikeToolResponse (contentOf prompt span) ||
    harnessMessageIsMetaOnly kind (contentOf prompt span))

/-- `root_query_order`. -/
def rootQueryOrder : Option ℕ := messages.findIdx? (isQuery kind prompt)

/-- `query_order`: the search runs backwards. -/
def queryOrder : Option ℕ :=
  (messages.reverse.findIdx? (isQuery kind prompt)).map fun rev => messages.length - 1 - rev

/-- `while (n > floor && p(n - 1)) --n;` -/
def retreat (p : ℕ → Bool) (floor : ℕ) : ℕ → ℕ
  | 0 => 0
  | n + 1 => if floor < n + 1 ∧ p n = true then retreat p floor n else n + 1

/-- A test of the message at a place. -/
def messageAt (p : HarnessRenderedMessageSpan → Bool) (order : ℕ) : Bool :=
  (messages[order]?).any p

/-- `suffix_order`. -/
def suffixOrder (query : ℕ) : ℕ :=
  let isMeta := messageAt messages (isMetaOnlyMessage kind prompt)
  let isResult := messageAt messages (isToolResultMessage prompt)
  let isCall := messageAt messages fun span => span.role = "assistant" && validSegmentBounds prompt span
  let tail := retreat isMeta (query + 1) messages.length
  if query + 1 < tail ∧ isResult (tail - 1) = true then
    let firstResult := retreat (fun i => isResult i || isMeta i) (query + 1) (tail - 1)
    if query + 1 < firstResult ∧ isCall (firstResult - 1) = true then firstResult - 1 else firstResult
  else query

/-- The spans, before they are sorted. -/
def planSpans (controlPrefixEnd : ℕ) : List HarnessByteSpan :=
  (if 0 < controlPrefixEnd ∧ controlPrefixEnd ≤ prompt.length then [⟨0, controlPrefixEnd, .systemControl⟩]
    else []) ++
  (pinned (policyFrames prompt messages)).map (fun f => ⟨f.1.promptBegin, f.1.promptEnd, .projectPolicy⟩) ++
  (((queryOrder kind prompt messages).bind (messages[·]?)).map fun span =>
    ⟨span.segmentBegin, span.segmentEnd, .currentQuery⟩).toList ++
  (match rootQueryOrder kind prompt messages, queryOrder kind prompt messages with
    | some root, some query =>
        if root = query then []
        else ((messages[root]?).map fun span => ⟨span.segmentBegin, span.segmentEnd, .rootTask⟩).toList
    | _, _ => [])

/-- The message that the live suffix begins with. -/
def liveSuffix : Option HarnessRenderedMessageSpan :=
  (((queryOrder kind prompt messages).map (suffixOrder kind prompt messages)).bind (messages[·]?)).filter
    (validSegmentBounds prompt)

/-- `derive_harness_semantic_plan`. -/
def deriveHarnessSemanticPlan (controlPrefixEnd : ℕ) : HarnessSemanticPlan :=
  if kind = .none then {}
  else
    let live := liveSuffix kind prompt messages
    { rootTaskMessageIndex :=
        ((rootQueryOrder kind prompt messages).bind (messages[·]?)).map (·.messageIndex)
      currentQueryMessageIndex :=
        ((queryOrder kind prompt messages).bind (messages[·]?)).map (·.messageIndex)
      liveSuffixMessageBeginIndex := live.map (·.messageIndex)
      liveSuffixSpan := live.map fun span => ⟨span.segmentBegin, prompt.length, .liveToolTrajectory⟩
      historyEnd := (live.map (·.segmentBegin)).getD 0
      spans := sortUnique HarnessByteSpan.less (planSpans kind prompt messages controlPrefixEnd)
      projectPolicyFrameCount := (pinned (policyFrames prompt messages)).length }

end Definitions

end Qw3.Harness
