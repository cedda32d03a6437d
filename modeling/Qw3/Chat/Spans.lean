import Qw3.Chat.Rendering
import Qw3.Lib.Steps

/-!
# Where the messages stand

What one message adds to a transcript, and what holds of the spans of all of them.

* `Lays` — a message that is laid behind a transcript.
* `renderMessage_cases` — a message is laid, or leaves the transcript as it is.
* `SpansOk` — **the spans ascend and hold the contents**; `renderMessages_spansOk`.
* `renderLoop_text` — what is appended begins with a message of its own.
-/

namespace Qw3.Chat

open Qw3.Stream Qw3.Harness Qw3.ToolCalls Text

variable {β : Type} [Glyph β] {lib : Library} {o : Options} {messages rest : List (Message β)} {m : Message β}
  {t t' : Transcript β} {numSys last i : ℕ} {role : String} {before content after text : List β}

/-! ## One message -/

omit [Glyph β] in
@[simp] theorem Transcript.push_prompt :
    (t.push i role before content after).prompt = t.prompt ++ before ++ content ++ after := rfl

omit [Glyph β] in
@[simp] theorem Transcript.pushSegment_prompt : (t.pushSegment i role text).prompt = t.prompt ++ text := rfl

/-- `"<|im_start|>"`. -/
def imStart : List β := lit "<|im_start|>"

/-- `prompt.substr(span.content_begin, span.content_end - span.content_begin)` -/
def contentAt (prompt : List β) (span : HarnessRenderedMessageSpan) : List β :=
  (prompt.drop span.contentBegin).take (span.contentEnd - span.contentBegin)

/-- The content of a span stands where it says. -/
def Shows (prompt content : List β) (span : HarnessRenderedMessageSpan) : Prop :=
  span.segmentBegin ≤ span.contentBegin ∧ span.contentBegin ≤ span.contentEnd ∧
    span.contentEnd ≤ span.segmentEnd ∧ contentAt prompt span = content

/-- A message is laid behind a transcript. -/
structure Lays (messages : List (Message β)) (i : ℕ) (m : Message β) (t t' : Transcript β) (text : List β)
    (span : HarnessRenderedMessageSpan) : Prop where
  prompt : t'.prompt = t.prompt ++ text
  spans : t'.spans = t.spans ++ [span]
  index : span.messageIndex = i
  begins : span.segmentBegin = t.prompt.length
  ends : span.segmentEnd = t'.prompt.length
  nonempty : text ≠ []
  role : roleOf m.json = .ok span.role
  /-- It begins a message of the template, or goes on with the tool responses. -/
  opens : imStart <+: text ∨ (isToolMessage (previousMessage messages i) = .ok true ∧ isToolMessage (some m.json) = .ok true)
  shows : span.role = "user" ∨ span.role = "tool" → Shows t'.prompt (renderedContent span.role m.content) span

omit [Glyph β] in
theorem contentAt_push (t : Transcript β) (i : ℕ) (role : String) (before content after : List β)
    {span : HarnessRenderedMessageSpan} (hbegin : span.contentBegin = (t.prompt ++ before).length)
    (hend : span.contentEnd = (t.prompt ++ before ++ content).length) :
    contentAt (t.push i role before content after).prompt span = content := by
  have hlength : (t.prompt ++ before ++ content).length - (t.prompt ++ before).length = content.length := by
    rw [List.length_append, Nat.add_sub_cancel_left]
  unfold contentAt
  rw [hbegin, hend, hlength, Transcript.push_prompt, List.append_assoc (t.prompt ++ before), List.drop_left,
    List.take_left]

/-- A message whose content is reported. -/
theorem lays_push (hrole : roleOf m.json = .ok role) (hcontent : content = renderedContent role m.content)
    (hne : before ++ content ++ after ≠ [])
    (hopens : imStart <+: before ++ content ++ after ∨
      (isToolMessage (previousMessage messages i) = .ok true ∧ isToolMessage (some m.json) = .ok true)) :
    ∃ text span, Lays messages i m t (t.push i role before content after) text span := by
  refine ⟨before ++ content ++ after, _, ?_, rfl, rfl, rfl, rfl, hne, hrole, hopens, fun _ => ⟨?_, ?_, ?_, ?_⟩⟩
  · simp only [Transcript.push_prompt, List.append_assoc]
  · simp only [List.length_append]
    omega
  · simp only [List.length_append]
    omega
  · simp only [List.length_append]
    omega
  · exact (contentAt_push t i role before content after rfl rfl).trans hcontent

omit [Glyph β] in
theorem isToolMessage_some (hobject : m.json.isObject = true) (hrole : roleOf m.json = .ok role) :
    isToolMessage (some m.json) = .ok (decide (role = "tool")) := by
  unfold isToolMessage
  dsimp only
  rw [if_pos hobject, hrole]
  rfl

theorem lit_append (x y : String) : (lit (x ++ y) : List β) = lit x ++ lit y := by
  unfold lit ofBytes
  rw [utf8_append, List.map_append]

theorem lit_eq_nil {x : String} : (lit x : List β) = [] ↔ x = "" := by
  unfold lit ofBytes
  rw [List.map_eq_nil_iff, utf8_eq_nil]

theorem lit_user : (lit "<|im_start|>user" : List β) = imStart ++ lit "user" := lit_append "<|im_start|>" "user"

theorem lit_userLine : (lit "<|im_start|>user\n" : List β) = imStart ++ lit "user\n" :=
  lit_append "<|im_start|>" "user\n"

theorem lit_assistantLine : (lit "<|im_start|>assistant\n" : List β) = imStart ++ lit "assistant\n" :=
  lit_append "<|im_start|>" "assistant\n"

theorem imStart_ne_nil : (imStart : List β) ≠ [] := by
  unfold imStart
  rw [ne_eq, lit_eq_nil]
  decide

theorem ne_nil_of_imStart (h : imStart <+: text) : text ≠ [] := by
  rintro rfl
  exact imStart_ne_nil (List.prefix_nil.mp h)

/-- The message of an assistant reports no content. -/
theorem lays_pushSegment (hrole : roleOf m.json = .ok role) (hrole' : ¬ (role = "user" ∨ role = "tool"))
    (hopens : imStart <+: text) : ∃ text' span, Lays messages i m t (t.pushSegment i role text) text' span :=
  ⟨text, _, rfl, rfl, rfl, rfl, rfl, ne_nil_of_imStart hopens, hrole, .inl hopens, fun h => absurd h hrole'⟩

theorem renderAssistant_opens {framed : Bool} {j : Json} (h : renderAssistant lib framed j content = .ok text) :
    imStart <+: text := by
  unfold renderAssistant at h
  obtain ⟨calls, -, rfl⟩ := Except.map_eq_ok.mp h
  simp only [lit_assistantLine, List.append_assoc]
  exact List.prefix_append _ _

/-- **A message is laid, or leaves the transcript as it is**, and then it is no tool's. -/
theorem renderMessage_cases (hobject : m.json.isObject = true)
    (h : renderMessage lib o last messages i m t = .ok t') :
    (t' = t ∧ isToolMessage (some m.json) = .ok false) ∨ ∃ text span, Lays messages i m t t' text span := by
  unfold renderMessage at h
  obtain ⟨role, hrole, h⟩ := Except.bind_eq_ok.mp h
  have htool := isToolMessage_some hobject hrole
  split_ifs at h with hcontrol huser hassistant htoolRole
  · refine .inl ⟨(Except.ok.inj h).symm, ?_⟩
    rw [htool, decide_eq_false]
    rintro rfl
    exact absurd hcontrol (by decide)
  · rw [← Except.ok.inj h]
    have hopens : imStart <+: lit "<|im_start|>user\n" ++ renderedContent role m.content ++ lit "<|im_end|>\n" := by
      rw [lit_userLine, List.append_assoc, List.append_assoc]
      exact List.prefix_append _ _
    exact .inr (lays_push hrole rfl (ne_nil_of_imStart hopens) (.inl hopens))
  · obtain ⟨text, htext, rfl⟩ := Except.map_eq_ok.mp h
    refine .inr (lays_pushSegment hrole ?_ (renderAssistant_opens htext))
    rw [hassistant]
    decide
  · obtain ⟨prevTool, hprev, h⟩ := Except.bind_eq_ok.mp h
    obtain ⟨nextTool, -, rfl⟩ := Except.map_eq_ok.mp h
    have hself : isToolMessage (some m.json) = .ok true := by
      rw [htool, decide_eq_true htoolRole]
    refine .inr (lays_push hrole rfl ?_ ?_)
    · simp [lit_eq_nil]
    · cases prevTool with
      | true => exact .inr ⟨hprev, hself⟩
      | false =>
          refine .inl ?_
          simp only [Bool.false_eq_true, if_false, lit_user, List.append_assoc]
          exact List.prefix_append _ _
  · refine .inl ⟨(Except.ok.inj h).symm, ?_⟩
    rw [htool, decide_eq_false htoolRole]

/-! ## All messages -/

/-- **The spans ascend and do not meet**, they stand behind the control prefix, and those of the
user and of tools show the contents of their messages. -/
structure SpansOk (messages : List (Message β)) (start : ℕ) (t : Transcript β) : Prop where
  ascending : t.spans.Pairwise fun a b => a.messageIndex < b.messageIndex ∧ a.segmentEnd ≤ b.segmentBegin
  bounds : ∀ s ∈ t.spans, start ≤ s.segmentBegin ∧ s.segmentBegin < s.segmentEnd ∧ s.segmentEnd ≤ t.prompt.length
  shows : ∀ s ∈ t.spans, ∃ m, messages[s.messageIndex]? = some m ∧ roleOf m.json = .ok s.role ∧
    (s.role = "user" ∨ s.role = "tool" → Shows t.prompt (renderedContent s.role m.content) s)

/-- What holds at the head of the loop. -/
structure Laid (messages : List (Message β)) (start i : ℕ) (t : Transcript β) : Prop extends
    SpansOk messages start t where
  start_le : start ≤ t.prompt.length
  index_lt : ∀ s ∈ t.spans, s.messageIndex < i

variable {start : ℕ} {span : HarnessRenderedMessageSpan}

omit [Glyph β] in
/-- More text does not move a span. -/
theorem contentAt_append (prompt more : List β) (h : span.contentEnd ≤ prompt.length) :
    contentAt (prompt ++ more) span = contentAt prompt span := by
  unfold contentAt
  rcases Nat.le_total span.contentBegin prompt.length with hle | hle
  · rw [List.drop_append_of_le_length hle, List.take_append_of_le_length]
    rw [List.length_drop]
    omega
  · have hzero : span.contentEnd - span.contentBegin = 0 := by omega
    rw [hzero, List.take_zero, List.take_zero]

omit [Glyph β] in
theorem Shows.append {prompt : List β} (h : Shows prompt content span) (hend : span.segmentEnd ≤ prompt.length)
    (more : List β) : Shows (prompt ++ more) content span := by
  obtain ⟨hbegin, hle, hlast, hcontent⟩ := h
  exact ⟨hbegin, hle, hlast, (contentAt_append prompt more (hlast.trans hend)).trans hcontent⟩

theorem SpansOk.append (h : SpansOk messages start t) (more : List β) :
    SpansOk messages start { t with prompt := t.prompt ++ more } where
  ascending := h.ascending
  bounds := by
    intro s hs
    obtain ⟨hstart, hlt, hle⟩ := h.bounds s hs
    exact ⟨hstart, hlt, hle.trans (List.length_append ▸ Nat.le_add_right _ _)⟩
  shows := by
    intro s hs
    obtain ⟨m, hm, hrole, hshows⟩ := h.shows s hs
    exact ⟨m, hm, hrole, fun hreported => (hshows hreported).append (h.bounds s hs).2.2 more⟩

theorem Laid.succ (h : Laid messages start i t) : Laid messages start (i + 1) t where
  toSpansOk := h.toSpansOk
  start_le := h.start_le
  index_lt := fun s hs => Nat.lt_succ_of_lt (h.index_lt s hs)

/-- A message more. -/
theorem Laid.lays (h : Laid messages start i t) (hm : messages[i]? = some m)
    (hlays : Lays messages i m t t' text span) : Laid messages start (i + 1) t' := by
  have hmore := h.toSpansOk.append text
  have hlength : t'.prompt.length = t.prompt.length + text.length := by
    rw [hlays.prompt, List.length_append]
  have hpos := List.length_pos_of_ne_nil hlays.nonempty
  refine ⟨⟨?_, ?_, ?_⟩, ?_, ?_⟩
  · rw [hlays.spans, List.pairwise_append]
    refine ⟨h.ascending, List.pairwise_singleton _ _, fun s hs s' hs' => ?_⟩
    rw [List.mem_singleton.mp hs', hlays.index, hlays.begins]
    exact ⟨h.index_lt s hs, (h.bounds s hs).2.2⟩
  · intro s hs
    rw [hlays.spans] at hs
    rcases List.mem_append.mp hs with hs | hs
    · rw [hlays.prompt]
      exact hmore.bounds s hs
    · rw [List.mem_singleton.mp hs, hlays.begins, hlays.ends]
      exact ⟨h.start_le, by omega, le_rfl⟩
  · intro s hs
    rw [hlays.spans] at hs
    rcases List.mem_append.mp hs with hs | hs
    · rw [hlays.prompt]
      exact hmore.shows s hs
    · rw [List.mem_singleton.mp hs, hlays.index]
      exact ⟨m, hm, hlays.role, hlays.shows⟩
  · rw [hlength]
    exact h.start_le.trans (Nat.le_add_right _ _)
  · intro s hs
    rw [hlays.spans] at hs
    rcases List.mem_append.mp hs with hs | hs
    · exact Nat.lt_succ_of_lt (h.index_lt s hs)
    · rw [List.mem_singleton.mp hs, hlays.index]
      exact Nat.lt_succ_self i

omit [Glyph β] in
/-- The messages that are left, at the head of the loop. -/
theorem drop_eq_cons (h : messages.drop i = m :: rest) : messages[i]? = some m ∧ messages.drop (i + 1) = rest := by
  constructor
  · rw [← Nat.add_zero i, ← List.getElem?_drop, h]
    rfl
  · rw [← List.tail_drop, h]
    rfl

/-- The rounds of the loop. -/
theorem renderLoop_laid (hrest : messages.drop i = rest) (hlaid : Laid messages start i t)
    (h : renderLoop lib o numSys last messages i rest t = .ok t') :
    SpansOk messages start t' := by
  induction rest generalizing i t with
  | nil =>
      rw [← Except.ok.inj h]
      exact hlaid.toSpansOk
  | cons m rest ih =>
      obtain ⟨hm, hnext⟩ := drop_eq_cons hrest
      unfold renderLoop at h
      split_ifs at h with hskip
      · exact ih hnext hlaid.succ h
      · obtain ⟨t₁, hmessage, hloop⟩ := Except.bind_eq_ok.mp h
        rw [not_or, not_not] at hskip
        rcases renderMessage_cases hskip.1 hmessage with ⟨rfl, -⟩ | ⟨text, span, hlays⟩
        · exact ih hnext hlaid.succ hloop
        · exact ih hnext (hlaid.lays hm hlays) hloop

/-- What `renderBody` comes from. -/
theorem renderBody_eq_ok {r : Rendered β} (h : renderBody lib o messages = .ok r) :
    ∃ numSys merged last, leadingSystem [] messages = .ok (numSys, merged) ∧
      lastQueryIndexForTemplate o messages = .ok last ∧
      renderLoop lib o numSys last messages 0 messages ⟨controlPrefix lib o merged, []⟩ = .ok r.toTranscript ∧
      r.controlPrefixEnd = (controlPrefix lib o merged).length := by
  unfold renderBody at h
  obtain ⟨⟨numSys, merged⟩, hsys, h⟩ := Except.bind_eq_ok.mp h
  obtain ⟨last, hlast, h⟩ := Except.bind_eq_ok.mp h
  obtain ⟨t, hloop, rfl⟩ := Except.map_eq_ok.mp h
  exact ⟨numSys, merged, last, hsys, hlast, hloop, rfl⟩

/-- **The spans that are reported are those of the messages.** -/
theorem renderMessages_spansOk {r : Rendered β} (h : renderMessages lib o messages = .ok r) :
    SpansOk messages r.controlPrefixEnd r.toTranscript := by
  obtain ⟨body, hbody, rfl⟩ := Except.map_eq_ok.mp h
  obtain ⟨numSys, merged, last, -, -, hloop, hend⟩ := renderBody_eq_ok hbody
  have hlaid : Laid messages body.controlPrefixEnd 0 ⟨controlPrefix lib o merged, []⟩ :=
    ⟨⟨List.Pairwise.nil, fun s hs => absurd hs List.not_mem_nil, fun s hs => absurd hs List.not_mem_nil⟩,
      hend.le, fun s hs => absurd hs List.not_mem_nil⟩
  have hspans := renderLoop_laid rfl hlaid hloop
  split_ifs
  · exact hspans.append (generationHeader o)
  · exact hspans

/-- **What is appended begins with a message of its own**, unless it goes on with the tool
responses. -/
theorem renderLoop_text (hrest : messages.drop i = rest) (hi : numSys ≤ i)
    (h : renderLoop lib o numSys last messages i rest t = .ok t') :
    ∃ text, t'.prompt = t.prompt ++ text ∧ (text = [] ∨ imStart <+: text ∨
      (isToolMessage (previousMessage messages i) = .ok true ∧ isToolMessage (rest.head?.map Message.json) = .ok true)) := by
  induction rest generalizing i t with
  | nil =>
      rw [← Except.ok.inj h]
      exact ⟨[], (List.append_nil _).symm, .inl rfl⟩
  | cons m rest ih =>
      obtain ⟨hm, hnext⟩ := drop_eq_cons hrest
      have hprevious : previousMessage messages (i + 1) = some m.json := by
        unfold previousMessage jsonAt
        rw [if_pos (Nat.succ_pos i), Nat.add_sub_cancel, hm]
        rfl
      -- behind a message that is no tool's, a message begins
      have hskipped : isToolMessage (some m.json) = .ok false → ∀ {t₁ : Transcript β},
          renderLoop lib o numSys last messages (i + 1) rest t₁ = .ok t' →
          ∃ text, t'.prompt = t₁.prompt ++ text ∧ (text = [] ∨ imStart <+: text) := by
        intro hnot t₁ hloop
        obtain ⟨text, hprompt, hcases⟩ := ih hnext (hi.trans (Nat.le_succ i)) hloop
        refine ⟨text, hprompt, hcases.imp_right fun hcases => hcases.resolve_right fun htool => ?_⟩
        rw [hprevious, hnot] at htool
        exact absurd (Except.ok.inj htool.1) Bool.false_ne_true
      unfold renderLoop at h
      split_ifs at h with hskip
      · have hobject := hskip.resolve_right (by omega)
        have hnot : isToolMessage (some m.json) = .ok false := if_neg hobject
        obtain ⟨text, hprompt, hcases⟩ := hskipped hnot h
        exact ⟨text, hprompt, hcases.imp_right .inl⟩
      · obtain ⟨t₁, hmessage, hloop⟩ := Except.bind_eq_ok.mp h
        rw [not_or, not_not] at hskip
        rcases renderMessage_cases hskip.1 hmessage with ⟨rfl, hnot⟩ | ⟨text₁, span, hlays⟩
        · obtain ⟨text, hprompt, hcases⟩ := hskipped hnot hloop
          exact ⟨text, hprompt, hcases.imp_right .inl⟩
        · obtain ⟨text₂, hprompt, -⟩ := ih hnext (hi.trans (Nat.le_succ i)) hloop
          refine ⟨text₁ ++ text₂, ?_, .inr ?_⟩
          · rw [hprompt, hlays.prompt, List.append_assoc]
          · exact hlays.opens.imp_left fun hopens => hopens.trans (List.prefix_append _ _)

end Qw3.Chat
