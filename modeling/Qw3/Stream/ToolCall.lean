import Qw3.Lib.Search
import Qw3.Lib.Chunks
import Qw3.Stream.Tail

/-!
# The streaming parser of canonical tool calls

A pass erases bytes or ends the loop.  A verdict on the bytes at a tag is not given before
it is sure: `judge` waits as long as more bytes could change it.

* `CanonicalToolCallStreamParser`, `feed`, `finish` — the source's; `pass` is one
  pass of the loop of `parse`, and `judge` what it makes of the bytes at a tag.
* `judge_take` — what a verdict erases.
* `judge_append` — a verdict stands when more bytes follow.
* `parse_again`, `parse_stop` — the loop, from its first pass.
-/

namespace Qw3.Stream

open Search Chunks

/-! ## The source's types -/

/-- `ToolCallStreamEventKind`. -/
inductive ToolCallStreamEventKind where
  | toolStart
  | parameterStart
  | parameterData
  | parameterEnd
  | toolEnd
  deriving DecidableEq

/-- `ToolCallStreamEvent`. -/
structure ToolCallStreamEvent where
  kind : ToolCallStreamEventKind
  value : Bytes := []
  deriving DecidableEq

/-- `State`. -/
inductive ToolCallState where
  | toolOpen
  | functionOpen
  | parameterOrFunctionEnd
  | parameterValue
  | toolEnd
  | complete
  | failed
  deriving DecidableEq

/-- `CanonicalToolCallStreamParser`. -/
structure CanonicalToolCallStreamParser where
  state : ToolCallState := .toolOpen
  tail : ParameterTail := {}
  pending : Bytes := []
  error : String := ""
  started : Bool := false
  deriving DecidableEq

/-- `identifier_char`. -/
def identifierChar (c : UInt8) : Bool :=
  0x30 ≤ c ∧ c ≤ 0x39 ∨ 0x41 ≤ c ∧ c ≤ 0x5A ∨ 0x61 ≤ c ∧ c ≤ 0x7A ∨ c = 0x5F ∨ c = 0x2D

/-- `std::isspace`. -/
def isSpace (c : UInt8) : Bool := c = 0x20 ∨ 0x09 ≤ c ∧ c ≤ 0x0D

/-- `longest_suffix_prefix`. -/
def longestSuffixPrefix (text marker : Bytes) : ℕ := heldBack marker text

/-- `tool_open`. -/
def toolOpenTag : Bytes := "<tool_call>".toUTF8.toList

/-- `function_open`. -/
def functionOpenTag : Bytes := "<function=".toUTF8.toList

/-- `parameter_open`. -/
def parameterOpenTag : Bytes := "<parameter=".toUTF8.toList

/-- `parameter_close`. -/
def parameterCloseTag : Bytes := "</parameter>".toUTF8.toList

/-- `function_close`. -/
def functionCloseTag : Bytes := "</function>".toUTF8.toList

/-- `tool_close`. -/
def toolCloseTag : Bytes := "</tool_call>".toUTF8.toList

/-- `'>'`. -/
def closeAngle : Bytes := [0x3E]

/-- The tags, byte by byte. -/
theorem tag_bytes :
    toolOpenTag = [0x3C, 0x74, 0x6F, 0x6F, 0x6C, 0x5F, 0x63, 0x61, 0x6C, 0x6C, 0x3E] ∧
    functionOpenTag = [0x3C, 0x66, 0x75, 0x6E, 0x63, 0x74, 0x69, 0x6F, 0x6E, 0x3D] ∧
    parameterOpenTag = [0x3C, 0x70, 0x61, 0x72, 0x61, 0x6D, 0x65, 0x74, 0x65, 0x72, 0x3D] ∧
    parameterCloseTag = [0x3C, 0x2F, 0x70, 0x61, 0x72, 0x61, 0x6D, 0x65, 0x74, 0x65, 0x72, 0x3E] ∧
    functionCloseTag = [0x3C, 0x2F, 0x66, 0x75, 0x6E, 0x63, 0x74, 0x69, 0x6F, 0x6E, 0x3E] ∧
    toolCloseTag = [0x3C, 0x2F, 0x74, 0x6F, 0x6F, 0x6C, 0x5F, 0x63, 0x61, 0x6C, 0x6C, 0x3E] := by
  decide +kernel

/-! ## The tags -/

/-- What a pass makes of the bytes where a tag is expected: it waits for more, it
fails with a message, or it erases so many bytes, pushes events and goes on in the
next state. -/
inductive Verdict where
  | wait
  | reject (message : String)
  | take (count : ℕ) (events : List ToolCallStreamEvent) (next : ToolCallState)
  deriving DecidableEq

/-- `consume_exact`. -/
def consumeExact (pending tag : Bytes) (label : String) (events : List ToolCallStreamEvent)
    (next : ToolCallState) : Verdict :=
  if pending.length < tag.length then
    if pending <+: tag then .wait else .reject ("expected " ++ label)
  else if tag <+: pending then .take tag.length events next
  else .reject ("expected " ++ label)

/-- `FunctionOpen`, after the whitespace. -/
def judgeFunctionOpen (pending : Bytes) : Verdict :=
  if pending.length < functionOpenTag.length then
    if pending <+: functionOpenTag then .wait else .reject "expected <function=...>"
  else if ¬ functionOpenTag <+: pending then .reject "expected <function=...>"
  else
    match find closeAngle (pending.drop functionOpenTag.length) with
    | none => .wait
    | some n =>
        let name := (pending.drop functionOpenTag.length).take n
        if name = [] ∨ ¬ name.all identifierChar then
          .reject "invalid canonical tool function name"
        else .take (functionOpenTag.length + n + 1) [⟨.toolStart, name⟩] .parameterOrFunctionEnd

/-- `ParameterOrFunctionEnd`, after the whitespace. -/
def judgeParameterOrFunctionEnd (pending : Bytes) : Verdict :=
  if pending = [] then .wait
  else if functionCloseTag <+: pending then .take functionCloseTag.length [] .toolEnd
  else if parameterOpenTag <+: pending then
    match find closeAngle (pending.drop parameterOpenTag.length) with
    | none => .wait
    | some n =>
        let name := (pending.drop parameterOpenTag.length).take n
        if name = [] then .reject "empty canonical tool parameter name"
        else .take (parameterOpenTag.length + n + 1) [⟨.parameterStart, name⟩] .parameterValue
  else if pending <+: functionCloseTag ∨ pending <+: parameterOpenTag then .wait
  else .reject "expected canonical parameter or </function>"

/-- The states in which a tag is expected. -/
def judge (state : ToolCallState) (pending : Bytes) : Verdict :=
  match state with
  | .toolOpen => consumeExact pending toolOpenTag "<tool_call>" [] .functionOpen
  | .functionOpen => judgeFunctionOpen pending
  | .parameterOrFunctionEnd => judgeParameterOrFunctionEnd pending
  | .toolEnd => consumeExact pending toolCloseTag "</tool_call>" [⟨.toolEnd, []⟩] .complete
  | .parameterValue | .complete | .failed => .wait

/-! ## The parser -/

namespace CanonicalToolCallStreamParser

/-- The events of a pass, the parser after it, and whether the loop goes on, which
it does not after a `break`. -/
abbrev Pass := List ToolCallStreamEvent × CanonicalToolCallStreamParser × Bool

/-- The pass where a tag is expected: whitespace is consumed first.  The function
tag sets `started_`, a parameter tag clears the tail. -/
def passTag (p : CanonicalToolCallStreamParser) : Pass :=
  let p := { p with pending := p.pending.dropWhile isSpace }
  match judge p.state p.pending with
  | .wait => ([], p, false)
  | .reject message => ([], { p with state := .failed, error := message }, false)
  | .take count events next =>
      (events,
        { p with pending := p.pending.drop count, state := next,
                 started := p.started || p.state = .functionOpen,
                 tail := if next = .parameterValue then ⟨.optionalLf, []⟩ else p.tail }, true)

/-- The event of a piece of a parameter's value: none when it is empty. -/
def dataEvents (value : Bytes) : List ToolCallStreamEvent :=
  if value = [] then [] else [⟨.parameterData, value⟩]

/-- The pass at `ParameterValue`. -/
def passParameterValue (p : CanonicalToolCallStreamParser) : Pass :=
  match find parameterCloseTag p.pending with
  | some close =>
      let r := p.tail.processParameterData (p.pending.take close) true
      (dataEvents r.1 ++ [⟨.parameterEnd, []⟩],
        { p with tail := r.2, pending := p.pending.drop (close + parameterCloseTag.length),
                 state := .parameterOrFunctionEnd }, true)
  | none =>
      let safe := p.pending.length - longestSuffixPrefix p.pending parameterCloseTag
      if safe = 0 then ([], p, false)
      else
        let r := p.tail.processParameterData (p.pending.take safe) false
        (dataEvents r.1, { p with tail := r.2, pending := p.pending.drop safe }, true)

/-- One pass of the loop of `parse`. -/
def pass (p : CanonicalToolCallStreamParser) : Pass :=
  if p.state = .parameterValue then p.passParameterValue else p.passTag

/-- `failed() || complete()`. -/
def Over (p : CanonicalToolCallStreamParser) : Prop := p.state = .failed ∨ p.state = .complete

instance (p : CanonicalToolCallStreamParser) : Decidable p.Over :=
  inferInstanceAs (Decidable (_ ∨ _))

end CanonicalToolCallStreamParser

/-! ## What more bytes change of a verdict -/

variable {tag pending more : Bytes} {state next : ToolCallState} {label message : String}
  {events events' : List ToolCallStreamEvent} {count i : ℕ} {next' : ToolCallState}

/-- Bytes that neither begin a tag nor begin with it do neither with more. -/
theorem not_prefix_append (h : ¬ pending <+: tag) (h' : ¬ tag <+: pending) (more : Bytes) :
    ¬ pending ++ more <+: tag ∧ ¬ tag <+: pending ++ more := by
  refine ⟨fun hp => h ((List.prefix_append _ _).trans hp), fun hp => ?_⟩
  rcases List.prefix_or_prefix_of_prefix (List.prefix_append pending more) hp with hp | hp
  · exact h hp
  · exact h' hp

theorem consumeExact_append (h : consumeExact pending tag label events next ≠ .wait)
    (more : Bytes) : consumeExact (pending ++ more) tag label events next =
      consumeExact pending tag label events next := by
  unfold consumeExact at h ⊢
  by_cases hlen : pending.length < tag.length
  · rw [if_pos hlen] at h ⊢
    have hpre : ¬ pending <+: tag := fun hpre => h (if_pos hpre)
    have htag : ¬ tag <+: pending := fun htag => hlen.not_ge htag.length_le
    obtain ⟨h₁, h₂⟩ := not_prefix_append hpre htag more
    rw [if_neg hpre, if_neg h₁, if_neg h₂, ite_self]
  · rw [if_neg hlen, if_neg (by rw [List.length_append]; omega)]
    by_cases htag : tag <+: pending
    · rw [if_pos htag, if_pos (htag.trans (List.prefix_append _ _))]
    · have hpre : ¬ pending <+: tag := by
        intro hpre
        exact htag (hpre.eq_of_length (by have := hpre.length_le; omega) ▸ List.prefix_refl _)
      rw [if_neg htag, if_neg (not_prefix_append hpre htag more).2]

/-- The name in a tag does not change when more bytes follow. -/
theorem find_name_append (hlen : count ≤ pending.length)
    (h : find closeAngle (pending.drop count) = some i) (more : Bytes) :
    find closeAngle ((pending ++ more).drop count) = some i ∧
      ((pending ++ more).drop count).take i = (pending.drop count).take i := by
  rw [List.drop_append_of_le_length hlen]
  refine ⟨find_append_of_some (List.cons_ne_nil _ _) h more, ?_⟩
  exact List.take_append_of_le_length (find_eq_some_iff.mp h).1

theorem judgeFunctionOpen_append (h : judgeFunctionOpen pending ≠ .wait) (more : Bytes) :
    judgeFunctionOpen (pending ++ more) = judgeFunctionOpen pending := by
  unfold judgeFunctionOpen at h ⊢
  by_cases hlen : pending.length < functionOpenTag.length
  · rw [if_pos hlen] at h ⊢
    have hpre : ¬ pending <+: functionOpenTag := fun hpre => h (if_pos hpre)
    have htag : ¬ functionOpenTag <+: pending := fun htag => hlen.not_ge htag.length_le
    obtain ⟨h₁, h₂⟩ := not_prefix_append hpre htag more
    rw [if_neg hpre, if_neg h₁, if_pos h₂, ite_self]
  · rw [if_neg hlen] at h ⊢
    rw [if_neg (by rw [List.length_append]; omega)]
    by_cases htag : functionOpenTag <+: pending
    · rw [if_neg (not_not.mpr htag)] at h ⊢
      rw [if_neg (not_not.mpr (htag.trans (List.prefix_append _ _)))]
      cases hfind : find closeAngle (pending.drop functionOpenTag.length) with
      | none =>
          rw [hfind] at h
          exact absurd rfl h
      | some n =>
          obtain ⟨hfind', hname⟩ := find_name_append (by omega) hfind more
          simp only [hfind', hname]
    · have hpre : ¬ pending <+: functionOpenTag := by
        intro hpre
        exact htag (hpre.eq_of_length (by have := hpre.length_le; omega) ▸ List.prefix_refl _)
      rw [if_pos htag, if_pos (not_prefix_append hpre htag more).2]

/-- The two tags that may stand after a parameter differ. -/
theorem not_functionCloseTag (h : parameterOpenTag <+: pending) : ¬ functionCloseTag <+: pending := by
  intro hclose
  have hneither : ¬ functionCloseTag <+: parameterOpenTag ∧
      ¬ parameterOpenTag <+: functionCloseTag := by
    rw [tag_bytes.2.2.1, tag_bytes.2.2.2.2.1]
    simp
  rcases List.prefix_or_prefix_of_prefix hclose h with hp | hp
  · exact hneither.1 hp
  · exact hneither.2 hp

theorem judgeParameterOrFunctionEnd_append (h : judgeParameterOrFunctionEnd pending ≠ .wait)
    (more : Bytes) :
    judgeParameterOrFunctionEnd (pending ++ more) = judgeParameterOrFunctionEnd pending := by
  unfold judgeParameterOrFunctionEnd at h ⊢
  by_cases hnil : pending = []
  · rw [if_pos hnil] at h
    exact absurd rfl h
  rw [if_neg hnil] at h ⊢
  rw [if_neg (List.append_ne_nil_of_left_ne_nil hnil more)]
  by_cases hclose : functionCloseTag <+: pending
  · rw [if_pos hclose, if_pos (hclose.trans (List.prefix_append _ _))]
  rw [if_neg hclose] at h ⊢
  by_cases hopen : parameterOpenTag <+: pending
  · have hopen' : parameterOpenTag <+: pending ++ more := hopen.trans (List.prefix_append _ _)
    rw [if_pos hopen] at h ⊢
    rw [if_neg (not_functionCloseTag hopen'), if_pos hopen']
    cases hfind : find closeAngle (pending.drop parameterOpenTag.length) with
    | none =>
        rw [hfind] at h
        exact absurd rfl h
    | some n =>
        obtain ⟨hfind', hname⟩ := find_name_append hopen.length_le hfind more
        simp only [hfind', hname]
  · rw [if_neg hopen] at h ⊢
    have hpre : ¬ (pending <+: functionCloseTag ∨ pending <+: parameterOpenTag) :=
      fun hpre => h (if_pos hpre)
    obtain ⟨hpre₁, hpre₂⟩ := not_or.mp hpre
    obtain ⟨h₁, h₂⟩ := not_prefix_append hpre₁ hclose more
    obtain ⟨h₃, h₄⟩ := not_prefix_append hpre₂ hopen more
    rw [if_neg h₂, if_neg h₄, if_neg hpre, if_neg (not_or.mpr ⟨h₁, h₃⟩)]

/-- **A verdict stands** when more bytes follow. -/
theorem judge_append (h : judge state pending ≠ .wait) (more : Bytes) :
    judge state (pending ++ more) = judge state pending := by
  cases state with
  | toolOpen => exact consumeExact_append h more
  | functionOpen => exact judgeFunctionOpen_append h more
  | parameterOrFunctionEnd => exact judgeParameterOrFunctionEnd_append h more
  | toolEnd => exact consumeExact_append h more
  | parameterValue => rfl
  | complete => rfl
  | failed => rfl

/-- What a verdict erases is there, and ends with `'>'`. -/
theorem judge_take (h : judge state pending = .take count events next) :
    0 < count ∧ count ≤ pending.length ∧ ∃ front, pending.take count = front ++ [0x3E] := by
  have htag : ∀ tag : Bytes, (∃ front, tag = front ++ [0x3E]) → tag <+: pending →
      0 < tag.length ∧ tag.length ≤ pending.length ∧
        ∃ front, pending.take tag.length = front ++ [0x3E] := by
    rintro tag ⟨front, hfront⟩ hpre
    refine ⟨by simp [hfront], hpre.length_le, front, ?_⟩
    rw [← List.prefix_iff_eq_take.mp hpre, hfront]
  have hexact : ∀ tag label events' next', (∃ front, tag = front ++ [0x3E]) →
      consumeExact pending tag label events' next' = .take count events next →
      0 < count ∧ count ≤ pending.length ∧ ∃ front, pending.take count = front ++ [0x3E] := by
    intro tag label events' next' hlast heq
    unfold consumeExact at heq
    split_ifs at heq with _ _ hpre
    obtain ⟨rfl, -, -⟩ := Verdict.take.inj heq
    exact htag tag hlast hpre
  -- A name goes up to the bracket behind it.
  have hname : ∀ tag : Bytes, tag <+: pending →
      ∀ n, find closeAngle (pending.drop tag.length) = some n →
        0 < tag.length + n + 1 ∧ tag.length + n + 1 ≤ pending.length ∧
          ∃ front, pending.take (tag.length + n + 1) = front ++ [0x3E] := by
    intro tag hpre n hfind
    obtain ⟨-, hfound, -⟩ := find_eq_some_iff.mp hfind
    have hend : n + 1 ≤ _ := hfound.le (List.cons_ne_nil _ _)
    obtain ⟨rest, hrest⟩ := hfound
    have hlen := hpre.length_le
    rw [List.length_drop] at hend
    rw [List.drop_drop] at hrest
    refine ⟨by omega, by omega, pending.take (tag.length + n), ?_⟩
    rw [List.take_add, ← hrest]
    rfl
  cases state with
  | toolOpen => exact hexact _ _ _ _ ⟨toolOpenTag.dropLast, by simp [tag_bytes]⟩ h
  | toolEnd => exact hexact _ _ _ _ ⟨toolCloseTag.dropLast, by simp [tag_bytes]⟩ h
  | functionOpen =>
      simp only [judge, judgeFunctionOpen] at h
      split_ifs at h with _ _ hopen
      cases hfind : find closeAngle (pending.drop functionOpenTag.length) with
      | none =>
          rw [hfind] at h
          cases h
      | some n =>
          simp only [hfind] at h
          split_ifs at h
          obtain ⟨rfl, -, -⟩ := Verdict.take.inj h
          exact hname _ hopen n hfind
  | parameterOrFunctionEnd =>
      simp only [judge, judgeParameterOrFunctionEnd] at h
      split_ifs at h with hnil hclose hopen
      · obtain ⟨rfl, -, -⟩ := Verdict.take.inj h
        exact htag _ ⟨functionCloseTag.dropLast, by simp [tag_bytes]⟩ hclose
      · cases hfind : find closeAngle (pending.drop parameterOpenTag.length) with
        | none =>
            rw [hfind] at h
            cases h
        | some n =>
            simp only [hfind] at h
            split_ifs at h
            obtain ⟨rfl, -, -⟩ := Verdict.take.inj h
            exact hname _ hopen n hfind
  | parameterValue => cases h
  | complete => cases h
  | failed => cases h

/-! ## The loop -/

namespace CanonicalToolCallStreamParser

theorem parameterCloseTag_ne_nil : parameterCloseTag ≠ [] := by
  rw [tag_bytes.2.2.2.1]
  exact List.cons_ne_nil _ _

/-- A pass after which the loop goes on has erased something. -/
theorem pass_length {p q : CanonicalToolCallStreamParser} {events : List ToolCallStreamEvent}
    (h : p.pass = (events, q, true)) : q.pending.length < p.pending.length := by
  unfold pass at h
  split_ifs at h with hvalue
  · unfold passParameterValue at h
    cases hfind : find parameterCloseTag p.pending with
    | some close =>
        simp only [hfind] at h
        obtain ⟨-, rfl, -⟩ := h
        have hend := (find_eq_some_iff.mp hfind).2.1.le parameterCloseTag_ne_nil
        have hpos := List.length_pos_iff.mpr parameterCloseTag_ne_nil
        rw [List.length_drop]
        omega
    | none =>
        simp only [hfind] at h
        split_ifs at h with hsafe
        · cases h
        · obtain ⟨-, rfl, -⟩ := h
          rw [List.length_drop]
          omega
  · unfold passTag at h
    have hle : (p.pending.dropWhile isSpace).length ≤ p.pending.length :=
      (List.dropWhile_sublist _).length_le
    cases hjudge : judge p.state (p.pending.dropWhile isSpace) with
    | wait =>
        simp only [hjudge] at h
        cases h
    | reject message =>
        simp only [hjudge] at h
        cases h
    | take count events' next =>
        simp only [hjudge] at h
        obtain ⟨-, rfl, -⟩ := h
        obtain ⟨hpos, hcount, -⟩ := judge_take hjudge
        rw [List.length_drop]
        omega

/-- `parse`: the events it pushes, and the parser after it. -/
def parse (p : CanonicalToolCallStreamParser) :
    List ToolCallStreamEvent × CanonicalToolCallStreamParser :=
  if p.Over then ([], p)
  else
    match _h : p.pass with
    | (events, q, false) => (events, q)
    | (events, q, true) =>
        if q.pending.length = p.pending.length ∧ q.state = p.state then (events, q)
        else
          let r := parse q
          (events ++ r.1, r.2)
termination_by p.pending.length
decreasing_by exact pass_length ‹_›

/-- `feed`, whose result is that the parser has not failed. -/
def feed (p : CanonicalToolCallStreamParser) (text : Bytes) :
    List ToolCallStreamEvent × CanonicalToolCallStreamParser :=
  if p.Over then ([], p) else parse { p with pending := p.pending ++ text }

/-- `finish`. -/
def finish (p : CanonicalToolCallStreamParser) :
    List ToolCallStreamEvent × CanonicalToolCallStreamParser :=
  let r := p.feed []
  if r.2.Over then r
  else (r.1, { r.2 with state := .failed, error := "incomplete canonical tool call" })

variable {p q : CanonicalToolCallStreamParser}

theorem parse_over (h : p.Over) : p.parse = ([], p) := by
  rw [parse, if_pos h]

theorem parse_stop (h : ¬ p.Over) (hpass : p.pass = (events, q, false)) :
    p.parse = (events, q) := by
  rw [parse, if_neg h]
  split
  · simp_all
  · simp_all

theorem parse_again (h : ¬ p.Over) (hpass : p.pass = (events, q, true)) :
    p.parse = (events ++ q.parse.1, q.parse.2) := by
  have hlt := pass_length hpass
  rw [parse, if_neg h]
  split
  · simp_all
  · next events' q' hpass' =>
      obtain ⟨rfl, rfl, -⟩ := Prod.mk.inj (hpass.symm.trans hpass') |>.imp_right Prod.mk.inj
      rw [if_neg fun hsame => by omega]

end CanonicalToolCallStreamParser

end Qw3.Stream
