import Qw3.Chat.Marks
import Qw3.Chat.TokenPrefix
import Qw3.Lib.Alignment
import Qw3.Tokenizer.ByteSpans

/-!
# The tokens of the query

How `handle_chat_completions` finds the tokens of the query: it renders the chat a second time
without the designated text, and compares the tokens of the two prompts.

## Main definitions

* `Designation` — the final user message, a part of a message, or a range of messages.
* `designate`, `twin` — what is taken out, and the messages of the second rendering.
* `queryInterval` — `kvmem_query_begin` and `kvmem_query_end`.
* `view` — the two prompts in tokens, and where the texts stand in the normal form of the first.
* `View.Covers` — what the interval is for.

## Main results

* `interval_of_view` — the prompts of the view are the two that are compared.
* `range_begins_late` — the interval of a range of messages misses its first token, which
  begins the text behind it too.

## Design notes

The three ways to designate a query are one type, and `queryInterval` is the code of all three:
they differ in what the second rendering leaves out (`Query`) and in how the end is found
(`comparedInterval` counts what the prompts have in common from the end, `countedInterval` how
many tokens the one has more).

Where the designated text has come to is not read from the source, which has no such function.
The messages are rendered a third time with a mark at every designated byte (`Marked`), and
rendering neither looks at the marks nor moves them, so that the prompt is the same.  What the
tokens carry is what they are decoded to; so the marked bytes are carried to the normal form of
the prompt, by the function that the server has for its own spans.
-/

namespace Qw3.Chat

open Qw3.Stream Qw3.Harness Qw3.ToolCalls Qw3.Alignment Text

/-! ## What is designated -/

/-- The server: what rendering and tokenizing depend on. -/
structure Server where
  lib : Library
  options : Options
  tokenizer : Tokenizer.QwenTokenizer
  nfc : Tokenizer.Nfc
  classes : Tokenizer.UnicodeClasses
  utf8proc : Tokenizer.Utf8proc

/-- `encode_usage`. -/
def Server.encode (S : Server) (text : Bytes) : Except String (List ℤ) :=
  S.tokenizer.encode S.nfc S.classes (wire text) false

/-- What a request says of its query; the numbers are `int64_t`. -/
inductive Designation where
  /-- The default. -/
  | finalUser
  /-- `kvmem_query_span` -/
  | span (messageIndex contentStart contentEnd : ℤ)
  /-- `kvmem_query_message_range` -/
  | range (messageBegin messageEnd : ℤ)

/-- A byte, or a byte that is designated. -/
abbrev Marked := UInt8 × Bool

instance : Glyph Marked := ⟨Prod.fst, fun b => (b, false), fun _ => rfl⟩

/-- What is taken out of the messages: bytes of their contents, or whole messages. -/
structure Query where
  marks : ℕ → ℕ → Bool
  removed : ℕ → Bool
  /-- the messages that are designated, in part or as a whole -/
  chosen : ℕ → Bool

/-- The bytes of a content, those that are taken out marked. -/
def markContent (p : ℕ → Bool) (content : Bytes) : List Marked := content.zipIdx.map fun c => (c.1, p c.2)

namespace Query

variable (q : Query)

/-- The messages of the prompt. -/
def marked (messages : List (Message UInt8)) : List (Message Marked) :=
  messages.zipIdx.map fun m => ⟨m.1.json, markContent (q.marks m.2) m.1.content⟩

/-- `msgs_empty`: the messages that stay, without what is taken out. -/
def twin (messages : List (Message UInt8)) : List (Message UInt8) :=
  (messages.zipIdx.filter fun m => !q.removed m.2).map fun m =>
    ⟨m.1.json, ((markContent (q.marks m.2) m.1.content).filter fun c => !c.2).map Prod.fst⟩

end Query

section Definitions

variable (S : Server) (messages : List Json)

/-- What a request designates, if anything; an error is a response with that message. -/
def designate : Designation → Except String (Option Query)
  | .finalUser =>
      (lastQueryIndexForTemplate S.options (chat S.lib messages)).bind fun lqi =>
        match messages[lqi]? with
        | none => .ok none
        | some m =>
            if ¬ m.isObject then .ok none
            else
              (roleOf m).map fun role =>
                if role = "user" then
                  some { marks := fun i _ => i = lqi, removed := fun _ => false, chosen := fun i => i = lqi }
                else none
  | .span messageIndex contentStart contentEnd =>
      if messageIndex < 0 ∨ messageIndex ≥ messages.length then
        .error "kvmem_query_span message_index does not reference a string-content message"
      else
        match (messages.getD messageIndex.toNat .null).findString? "content" with
        | none => .error "kvmem_query_span message_index does not reference a string-content message"
        | some content =>
            if contentStart < 0 ∨ contentEnd ≤ contentStart ∨ contentEnd > (utf8 content).length then
              .error "kvmem_query_span content offsets are outside the message content"
            else
              .ok (some {
                marks := fun i j => i = messageIndex ∧ contentStart ≤ j ∧ j < contentEnd
                removed := fun _ => false
                chosen := fun i => i = messageIndex })
  | .range messageBegin messageEnd =>
      if messageBegin < 0 ∨ messageEnd ≤ messageBegin ∨ messageEnd > messages.length then
        .error "kvmem_query_message_range is outside messages[]"
      else
        .ok (some {
          marks := fun _ _ => false
          removed := fun i => messageBegin ≤ i ∧ i < messageEnd
          chosen := fun i => messageBegin ≤ i ∧ i < messageEnd })

/-! ## The interval -/

/-- `qb` and `qe` where the prompts are compared from both ends. -/
def comparedInterval (full empty : List ℤ) : ℕ × ℕ := (front full empty, full.length - back full empty)

/-- `qb` and `qe` where the end is counted. -/
def countedInterval (full empty : List ℤ) : ℕ × ℕ :=
  (front full empty, front full empty + (full.length - empty.length))

/-- What is set, if anything. -/
def Designation.interval (full empty : List ℤ) : Designation → Except String (Option (ℕ × ℕ))
  | .finalUser => .ok (if full.length > empty.length then some (countedInterval full empty) else none)
  | .span _ _ _ =>
      let found := comparedInterval full empty
      .ok (if found.2 > found.1 then some found else none)
  | .range _ _ =>
      let found := comparedInterval full empty
      if found.2 ≤ found.1 then .error "kvmem_query_message_range maps to an empty token span"
      else .ok (some found)

/-- `kvmem_query_begin` and `kvmem_query_end`. -/
def queryInterval (d : Designation) : Except String (Option (ℕ × ℕ)) :=
  (renderMessages S.lib S.options (chat S.lib messages)).bind fun r =>
    (S.encode r.prompt).bind fun full =>
      (designate S messages d).bind fun query =>
        match query with
        | none => .ok none
        | some q =>
            (renderMessages S.lib S.options (q.twin (chat S.lib messages))).bind fun r =>
              (S.encode r.prompt).bind fun empty => d.interval full empty

/-! ## What the interval is for -/

/-- `map_byte_span`, over `token_bytes`. -/
def mapByteSpan (tokenBytes : List ℕ) (total : ℕ) (s : Tokenizer.TextByteSpan) : Option (ℕ × ℕ) :=
  if s.begin' ≥ s.end' ∨ s.end' > total then none
  else
    let tokenBegin := (tokenBytes.takeWhile fun b => b ≤ s.begin').length - 1
    let tokenEnd := (tokenBytes.takeWhile fun b => b < s.end').length
    if tokenBegin ≥ tokenEnd ∨ tokenEnd > tokenBytes.length - 1 then none else some (tokenBegin, tokenEnd)

/-- The two prompts, and the bytes of the decoded prompt that are designated and those of the
other messages' segments. -/
structure View where
  tokenizer : Tokenizer.QwenTokenizer
  full : List ℤ
  empty : List ℤ
  designated : List Tokenizer.TextByteSpan
  others : List Tokenizer.TextByteSpan

/-- The bytes of the prompt that are designated: those that are marked, and the segments of the
messages that are taken out. -/
def designatedBytes (q : Query) (r : Rendered Marked) : List Tokenizer.TextByteSpan :=
  ((List.range r.prompt.length).filter fun j =>
    (r.prompt[j]?).any Prod.snd ||
      r.spans.any fun s => q.removed s.messageIndex && (s.segmentBegin ≤ j && j < s.segmentEnd)).map fun j => ⟨j, j + 1⟩

/-- The segments of the other messages. -/
def otherSegments (q : Query) (r : Rendered Marked) : List Tokenizer.TextByteSpan :=
  (r.spans.filter fun s => !q.chosen s.messageIndex).map fun s => ⟨s.segmentBegin, s.segmentEnd⟩

/-- The prompts of a request, and where the texts stand in the normal form of the first. -/
def view (d : Designation) : Except String (Option View) :=
  (designate S messages d).bind fun query =>
    match query with
    | none => .ok none
    | some q =>
        (renderMessages S.lib S.options (q.marked (chat S.lib messages))).bind fun r =>
          (S.encode (toBytes r.prompt)).bind fun full =>
            (renderMessages S.lib S.options (q.twin (chat S.lib messages))).bind fun e =>
              (S.encode e.prompt).bind fun empty =>
                (Tokenizer.normalizeByteSpans S.nfc S.utf8proc (wire (toBytes r.prompt))
                    (designatedBytes q r ++ otherSegments q r)).map fun n =>
                  some {
                    tokenizer := S.tokenizer
                    full := full
                    empty := empty
                    designated := n.spans.take (designatedBytes q r).length
                    others := n.spans.drop (designatedBytes q r).length }

end Definitions

namespace View

variable (v : View)

/-- Where the piece of a token begins. -/
def offset (k : ℕ) : ℕ := (v.tokenizer.decode (v.full.take k)).length

/-- `token_bytes` -/
def tokenBytes : List ℕ := (List.range (v.full.length + 1)).map v.offset

/-- The decoded piece of a token contains a byte of the designated text. -/
def Carries (k : ℕ) : Prop := ∃ s ∈ v.designated, ∃ j, v.offset k ≤ j ∧ j < v.offset (k + 1) ∧ s.begin' ≤ j ∧ j < s.end'

/-- A token lies wholly in the segment of another message. -/
def Foreign (k : ℕ) : Prop :=
  v.offset k < v.offset (k + 1) ∧ ∃ s ∈ v.others, s.begin' ≤ v.offset k ∧ v.offset (k + 1) ≤ s.end'

/-- **The interval covers the query**: it has every token that carries a byte of the designated
text, and none of the other messages. -/
def Covers (interval : ℕ × ℕ) : Prop :=
  ∀ k < v.full.length, (v.Carries k → interval.1 ≤ k ∧ k < interval.2) ∧
    (v.Foreign k → ¬ (interval.1 ≤ k ∧ k < interval.2))

end View

/-! ## A range and what follows it -/

section Range

variable {S : Server} {id : ℤ} {l₁ c l₂ : List Json}

theorem filter_zipIdx {α : Type} {l : List α} {n : ℕ} {p : ℕ → Bool} (h : ∀ i, n ≤ i → i < n + l.length → p i = true) :
    (l.zipIdx n).filter (fun m => p m.2) = l.zipIdx n := by
  refine List.filter_eq_self.mpr fun m hm => h m.2 (List.le_snd_of_mem_zipIdx hm) ?_
  rw [Nat.add_comm]
  exact List.snd_lt_of_mem_zipIdx hm

theorem filter_zipIdx_nil {α : Type} {l : List α} {n : ℕ} {p : ℕ → Bool}
    (h : ∀ i, n ≤ i → i < n + l.length → p i = false) : (l.zipIdx n).filter (fun m => p m.2) = [] := by
  refine List.filter_eq_nil_iff.mpr fun m hm => ?_
  rw [h m.2 (List.le_snd_of_mem_zipIdx hm) (by rw [Nat.add_comm]; exact List.snd_lt_of_mem_zipIdx hm)]
  exact Bool.false_ne_true

/-- A list without a stretch of it. -/
theorem filter_zipIdx_cut {α : Type} (a b d : List α) {p : ℕ → Bool}
    (hp : ∀ i, p i = true ↔ ¬ (a.length ≤ i ∧ i < a.length + b.length)) :
    ((a ++ b ++ d).zipIdx.filter fun m => p m.2).map Prod.fst = a ++ d := by
  have hfalse : ∀ i, p i = false ↔ a.length ≤ i ∧ i < a.length + b.length := by
    intro i
    rw [← Bool.not_eq_true, hp, not_not]
  rw [List.zipIdx_append, List.zipIdx_append, List.filter_append, List.filter_append, Nat.zero_add,
    List.length_append, filter_zipIdx fun i _ hi => (hp i).mpr (by omega),
    filter_zipIdx_nil fun i hi hlt => (hfalse i).mpr ⟨hi, hlt⟩,
    filter_zipIdx fun i hi _ => (hp i).mpr (by omega), List.append_nil, List.map_append, List.zipIdx_map_fst,
    List.zipIdx_map_fst]

theorem toBytes_markContent (p : ℕ → Bool) (content : Bytes) : toBytes (markContent p content) = content := by
  unfold toBytes markContent
  rw [List.map_map]
  exact List.zipIdx_map_fst 0 content

theorem filter_unmarked (content : Bytes) :
    ((markContent (fun _ => false) content).filter fun b => !b.2).map Prod.fst = content := by
  have hkeep : ∀ b ∈ markContent (fun _ => false) content, (!b.2) = true := by
    intro b hb
    obtain ⟨b', -, rfl⟩ := List.mem_map.mp hb
    rfl
  rw [List.filter_eq_self.mpr hkeep]
  exact toBytes_markContent _ content

/-- The messages around a range. -/
theorem twin_range {q : Query}
    (h : designate S (l₁ ++ c ++ l₂) (.range l₁.length (l₁.length + c.length)) = .ok (some q)) :
    q.twin (chat S.lib (l₁ ++ c ++ l₂)) = chat S.lib (l₁ ++ l₂) := by
  unfold designate at h
  dsimp only at h
  split_ifs at h
  obtain rfl := Option.some.inj (Except.ok.inj h)
  have hlength : ∀ l : List Json, (chat S.lib l).length = l.length := fun l => List.length_map _
  have hchat : ∀ x y : List Json, chat S.lib (x ++ y) = chat S.lib x ++ chat S.lib y := fun x y => List.map_append
  unfold Query.twin
  dsimp only
  have hcontent : (fun m : Message UInt8 × ℕ => (⟨m.1.json,
      ((markContent (fun _ => false) m.1.content).filter fun b => !b.2).map Prod.fst⟩ : Message UInt8)) = Prod.fst := by
    funext m
    rw [filter_unmarked]
  rw [hcontent, hchat, hchat, hchat l₁ l₂]
  have hcut := filter_zipIdx_cut (chat S.lib l₁) (chat S.lib c) (chat S.lib l₂)
    (p := fun i : ℕ => !decide ((l₁.length : ℤ) ≤ i ∧ (i : ℤ) < l₁.length + c.length)) fun i => by
      rw [hlength, hlength, Bool.not_eq_true', decide_eq_false_iff_not]
      omega
  exact hcut

/-- The ids of a text that begins with a message. -/
theorem stretchIds_opens {text : Tokenizer.Bytes} {ids : List ℤ} (hstart : S.tokenizer.Special Tokenizer.boundary id)
    (htext : Tokenizer.boundary <+: text) (h : stretchIds S.tokenizer S.nfc S.classes text = .ok ids) :
    ∃ rest, ids = id :: rest := by
  have hfind : S.tokenizer.findSpecial text = some (0, Tokenizer.boundary, id) :=
    Tokenizer.QwenTokenizer.findSpecial_append htext hstart []
  have hsegments := Tokenizer.QwenTokenizer.segments_some hfind
  rw [List.take_zero, show Tokenizer.QwenTokenizer.stretchOf [] = [] from rfl, List.nil_append] at hsegments
  obtain ⟨encoded, hencoded, rfl⟩ := Except.map_eq_ok.mp h
  rw [hsegments, List.mapM_cons] at hencoded
  obtain ⟨first, hfirst, hrest⟩ := Except.bind_eq_ok.mp hencoded
  obtain ⟨rest, -, hall⟩ := Except.bind_eq_ok.mp hrest
  rw [← Except.ok.inj hall, ← Except.ok.inj hfirst]
  exact ⟨rest.flatten, rfl⟩

/-- The tokens of some messages, and then the one that begins whatever follows them. -/
theorem encode_front (hstart : S.tokenizer.Special Tokenizer.boundary id)
    (hadd : S.options.addGenerationPrompt = true) (hstable : S.options.stableHarnessReasoning = true)
    (hother : ∃ m ∈ l₁, m.isObject = true ∧ ∀ role, roleOf m = .ok role → isControl role = false)
    (htools : ¬ (isToolMessage l₁.getLast? = .ok true ∧ isToolMessage l₂.head? = .ok true)) {r : Rendered UInt8}
    {tokens : List ℤ} (hr : renderMessages S.lib S.options (chat S.lib (l₁ ++ l₂)) = .ok r)
    (htokens : S.encode r.prompt = .ok tokens) :
    ∃ body kept, renderBody S.lib S.options (chat S.lib l₁) = .ok body ∧ S.encode body.prompt = .ok kept ∧
      kept ++ [id] <+: tokens := by
  obtain ⟨body, text, hbody, hprompt, hopens⟩ := renderMessages_append hadd hstable hother htools hr
  unfold Server.encode at htokens
  rw [hprompt, wire_append, encode_cut hstart hopens] at htokens
  obtain ⟨kept, more, hkept, hmore, rfl⟩ := htokens
  obtain ⟨rest, rfl⟩ := stretchIds_opens hstart hopens hmore
  refine ⟨body, kept, hbody, hkept, rest, ?_⟩
  rw [List.append_assoc]
  rfl

/-- **The interval begins late**: the range begins as what follows it does, and the interval
begins behind that token. -/
theorem range_begins_late (hstart : S.tokenizer.Special Tokenizer.boundary id)
    (hadd : S.options.addGenerationPrompt = true) (hstable : S.options.stableHarnessReasoning = true)
    (hother : ∃ m ∈ l₁, m.isObject = true ∧ ∀ role, roleOf m = .ok role → isControl role = false)
    (htools : ¬ (isToolMessage l₁.getLast? = .ok true ∧ isToolMessage (c ++ l₂).head? = .ok true))
    (htools' : ¬ (isToolMessage l₁.getLast? = .ok true ∧ isToolMessage l₂.head? = .ok true)) {interval : ℕ × ℕ}
    (h : queryInterval S (l₁ ++ c ++ l₂) (.range l₁.length (l₁.length + c.length)) = .ok (some interval)) :
    ∃ body kept, renderBody S.lib S.options (chat S.lib l₁) = .ok body ∧ S.encode body.prompt = .ok kept ∧
      kept.length < interval.1 := by
  obtain ⟨r, hr, hfound⟩ := Except.bind_eq_ok.mp h
  obtain ⟨full, hfull, hfound₁⟩ := Except.bind_eq_ok.mp hfound
  obtain ⟨query, hquery, hfound₂⟩ := Except.bind_eq_ok.mp hfound₁
  cases query with
  | none => cases Except.ok.inj hfound₂
  | some q =>
      obtain ⟨e, he, hfound₃⟩ := Except.bind_eq_ok.mp hfound₂
      obtain ⟨empty, hempty, hinterval⟩ := Except.bind_eq_ok.mp hfound₃
      rw [twin_range hquery] at he
      rw [List.append_assoc] at hr
      obtain ⟨body, kept, hbody, hkept, hpre⟩ := encode_front hstart hadd hstable hother htools hr hfull
      obtain ⟨body', kept', hbody', hkept', hpre'⟩ := encode_front hstart hadd hstable hother htools' he hempty
      -- the messages before the range are the same in both prompts
      rw [hbody] at hbody'
      obtain rfl := Except.ok.inj hbody'
      rw [hkept] at hkept'
      obtain rfl := Except.ok.inj hkept'
      refine ⟨body, kept, hbody, hkept, ?_⟩
      have hshared : kept.length < front full empty := by
        have hle := length_le_front hpre hpre'
        rwa [List.length_append, List.length_singleton, Nat.add_one_le_iff] at hle
      unfold Designation.interval at hinterval
      dsimp only at hinterval
      split_ifs at hinterval
      rw [← Option.some.inj (Except.ok.inj hinterval)]
      exact hshared

end Range

/-! ## The prompts that are compared -/

section Covering

variable {S : Server} {messages : List Json} {d : Designation} {interval : ℕ × ℕ} {v : View}

/-- Without the marks the messages are those of the request. -/
theorem forget_marked (q : Query) (l : List (Message UInt8)) : (q.marked l).map Message.forget = l := by
  have hforget : (fun m : Message UInt8 × ℕ =>
      Message.forget ⟨m.1.json, markContent (q.marks m.2) m.1.content⟩) = Prod.fst := by
    funext m
    unfold Message.forget
    rw [toBytes_markContent]
  unfold Query.marked
  rw [List.map_map]
  exact (congrArg (List.map · l.zipIdx) hforget).trans (List.zipIdx_map_fst 0 l)

/-- The prompts that are compared. -/
theorem interval_of_view (h : queryInterval S messages d = .ok (some interval)) (hv : view S messages d = .ok (some v)) :
    d.interval v.full v.empty = .ok (some interval) := by
  obtain ⟨query, hquery, hview⟩ := Except.bind_eq_ok.mp hv
  obtain ⟨r, hr, hfound⟩ := Except.bind_eq_ok.mp h
  obtain ⟨full, hfull, hfound₁⟩ := Except.bind_eq_ok.mp hfound
  obtain ⟨query', hquery', hfound₂⟩ := Except.bind_eq_ok.mp hfound₁
  rw [hquery] at hquery'
  obtain rfl := Except.ok.inj hquery'
  cases query with
  | none => cases Except.ok.inj hview
  | some q =>
      obtain ⟨m, hm, hview₁⟩ := Except.bind_eq_ok.mp hview
      obtain ⟨full', hfull', hview₂⟩ := Except.bind_eq_ok.mp hview₁
      obtain ⟨e, he, hview₃⟩ := Except.bind_eq_ok.mp hview₂
      obtain ⟨empty, hempty, hview₄⟩ := Except.bind_eq_ok.mp hview₃
      obtain ⟨n, -, hview₅⟩ := Except.map_eq_ok.mp hview₄
      obtain rfl := Option.some.inj hview₅
      obtain ⟨e', he', hfound₃⟩ := Except.bind_eq_ok.mp hfound₂
      obtain ⟨empty', hempty', hinterval⟩ := Except.bind_eq_ok.mp hfound₃
      -- the marked prompt is the prompt
      have hprompt : renderMessages S.lib S.options ((q.marked (chat S.lib messages)).map Message.forget) =
          (renderMessages S.lib S.options (q.marked (chat S.lib messages))).map Rendered.forget :=
        renderMessages_forget _
      rw [forget_marked, hr, hm] at hprompt
      obtain rfl := Except.ok.inj hprompt
      rw [he] at he'
      obtain rfl := Except.ok.inj he'
      rw [hempty] at hempty'
      obtain rfl := Except.ok.inj hempty'
      have hsame : full = full' := Except.ok.inj (hfull.symm.trans hfull')
      rwa [hsame] at hinterval

end Covering

end Qw3.Chat
