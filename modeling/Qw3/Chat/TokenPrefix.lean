import Qw3.Chat.Spans
import Qw3.Tokenizer.ChatTokenCache

/-!
# A longer chat begins with the tokens of the shorter one

What `render_messages` gives for some messages and more of them, with the reasoning kept in
its frames (`stable_harness_reasoning`).

* `renderMessage_append`, `renderLoop_left` — a message does not look at what is appended,
  except a tool's at the next tool's.
* `renderBody_append` — the transcript of the messages, and then a text that begins with a
  message.
* `encode_cut` — before `<|im_start|>` the tokens are those of the parts.
* `appendedMessages` — **the tokens of the messages are a prefix**.

The tokens are those of `QwenTokenizer::encode`, whatever its vocabulary, in which
`<|im_start|>` is a special token.
-/

namespace Qw3.Chat

open Qw3.Stream Qw3.Harness Qw3.ToolCalls Text

variable {β : Type} [Glyph β] {lib : Library} {o : Options} {messages rest l₁ l₂ : List (Message β)} {m : Message β}
  {t t' : Transcript β} {numSys last last' i : ℕ} {merged merged' : List β}

/-! ## Nothing throws for the messages alone -/

/-- A role that can be read. -/
def Roled (m : Message β) : Prop := m.json.isObject = true → ∃ role, roleOf m.json = .ok role

theorem leadingSystem_roled (h : leadingSystem merged messages = .ok (numSys, merged')) :
    numSys ≤ messages.length ∧ ∀ m ∈ messages.take numSys, Roled m := by
  induction messages generalizing merged numSys with
  | nil =>
      obtain ⟨rfl, -⟩ := Prod.mk.inj (Except.ok.inj h)
      exact ⟨le_rfl, fun m hm => absurd hm List.not_mem_nil⟩
  | cons m messages ih =>
      have hzero : (0 : ℕ) ≤ (m :: messages).length ∧ ∀ m' ∈ (m :: messages).take 0, Roled m' :=
        ⟨Nat.zero_le _, fun m' hm => absurd hm List.not_mem_nil⟩
      unfold leadingSystem at h
      split_ifs at h with hobject
      · obtain ⟨role, hrole, hfound⟩ := Except.bind_eq_ok.mp h
        split_ifs at hfound with hcontrol
        · obtain ⟨⟨count, said⟩, hmore, heq⟩ := Except.map_eq_ok.mp hfound
          obtain ⟨rfl, rfl⟩ := Prod.mk.inj heq
          obtain ⟨hle, hroled⟩ := ih hmore
          refine ⟨Nat.succ_le_succ hle, fun m' hm => ?_⟩
          rw [List.take_succ_cons] at hm
          rcases List.mem_cons.mp hm with rfl | hm
          · exact fun _ => ⟨role, hrole⟩
          · exact hroled m' hm
        · obtain ⟨rfl, -⟩ := Prod.mk.inj (Except.ok.inj hfound)
          exact hzero
      · obtain ⟨rfl, -⟩ := Prod.mk.inj (Except.ok.inj h)
        exact hzero

theorem renderLoop_roled (h : renderLoop lib o numSys last messages i rest t = .ok t') :
    ∀ m ∈ rest.drop (numSys - i), Roled m := by
  induction rest generalizing i t with
  | nil =>
      rw [List.drop_nil]
      exact fun m hm => absurd hm List.not_mem_nil
  | cons m rest ih =>
      unfold renderLoop at h
      split_ifs at h with hskip
      · rcases hskip with hobject | hlt
        · intro m' hm
          rcases List.mem_cons.mp (List.mem_of_mem_drop hm) with rfl | hm'
          · exact fun h => absurd h hobject
          · rcases Nat.lt_or_ge i numSys with hlt | hge
            · rw [show numSys - i = numSys - (i + 1) + 1 by omega, List.drop_succ_cons] at hm
              exact ih h m' hm
            · refine ih h m' ?_
              rw [show numSys - (i + 1) = 0 by omega]
              exact hm'
        · rw [show numSys - i = numSys - (i + 1) + 1 by omega, List.drop_succ_cons]
          exact ih h
      · obtain ⟨t₁, hmessage, hloop⟩ := Except.bind_eq_ok.mp h
        rw [not_or] at hskip
        obtain ⟨role, hrole, -⟩ := Except.bind_eq_ok.mp hmessage
        have hroled := ih hloop
        rw [show numSys - (i + 1) = 0 by omega] at hroled
        rw [show numSys - i = 0 by omega]
        intro m' hm
        rcases List.mem_cons.mp hm with rfl | hm
        · exact fun _ => ⟨role, hrole⟩
        · exact hroled m' hm

theorem lastQuery_ok {l : List (Message β × ℕ)} (h : ∀ m ∈ l, Roled m.1) : ∃ found, lastQuery o l = .ok found := by
  induction l with
  | nil => exact ⟨none, rfl⟩
  | cons m l ih =>
      obtain ⟨found, hfound⟩ := ih fun m' hm => h m' (List.mem_cons_of_mem _ hm)
      unfold lastQuery
      split_ifs with hobject
      · obtain ⟨role, hrole⟩ := h m List.mem_cons_self hobject
        rw [hrole]
        by_cases hquery : role = "user" ∧ asksForSomething o (toBytes m.1.content) = true
        · exact ⟨some m.2, if_pos hquery⟩
        · exact ⟨found, (if_neg hquery).trans hfound⟩
      · exact ⟨found, hfound⟩

theorem lastQueryIndex_ok (h : ∀ m ∈ messages, Roled m) :
    ∃ last, lastQueryIndexForTemplate o messages = .ok last := by
  have hall : ∀ m ∈ messages.zipIdx.reverse, Roled m.1 := fun m hm =>
    h m.1 (List.fst_mem_of_mem_zipIdx (List.mem_reverse.mp hm))
  obtain ⟨found, hfound⟩ : ∃ found, lastQuery o messages.zipIdx.reverse = .ok found := lastQuery_ok hall
  exact ⟨_, Except.map_eq_ok.mpr ⟨found, hfound, rfl⟩⟩

/-! ## What a message looks at -/

/-- A tool's message looks at its neighbours; what comes after the last one, if it is no tool's,
is not seen. -/
theorem renderMessage_append (hadd : o.addGenerationPrompt = true) (hstable : o.stableHarnessReasoning = true)
    (htools : ¬ (isToolMessage (l₁.getLast?.map Message.json) = .ok true ∧ isToolMessage (l₂.head?.map Message.json) = .ok true))
    (hobject : m.json.isObject = true) (hm : l₁[i]? = some m)
    (h : renderMessage lib o last (l₁ ++ l₂) i m t = .ok t') :
    renderMessage lib o last' l₁ i m t = .ok t' := by
  obtain ⟨hi, -⟩ := List.getElem?_eq_some_iff.mp hm
  have hprevious : previousMessage (l₁ ++ l₂) i = previousMessage l₁ i := by
    unfold previousMessage jsonAt
    rw [List.getElem?_append_left (by omega)]
  unfold renderMessage at h ⊢
  obtain ⟨role, hrole, h⟩ := Except.bind_eq_ok.mp h
  refine Except.bind_eq_ok.mpr ⟨role, hrole, ?_⟩
  -- with the frames kept the last query does not matter
  rw [hadd, hstable, Bool.true_or] at h ⊢
  rw [hprevious] at h
  split_ifs at h ⊢ with hcontrol huser hassistant htool
  · exact h
  · exact h
  · exact h
  · obtain ⟨prevTool, hprev, h⟩ := Except.bind_eq_ok.mp h
    obtain ⟨nextTool, hnext, rfl⟩ := Except.map_eq_ok.mp h
    refine Except.bind_eq_ok.mpr ⟨prevTool, hprev, Except.map_eq_ok.mpr ⟨nextTool, ?_, rfl⟩⟩
    rcases Nat.lt_or_ge (i + 1) l₁.length with hlt | hge
    · unfold jsonAt at hnext ⊢
      rwa [List.getElem?_append_left hlt] at hnext
    · -- the last message, of a tool: nothing of a tool follows
      have hlength : i + 1 = l₁.length := by omega
      have hlast : l₁.getLast? = some m := by
        rw [List.getLast?_eq_getElem?, ← hlength, Nat.add_sub_cancel, hm]
      have hself : isToolMessage (l₁.getLast?.map Message.json) = .ok true := by
        rw [hlast, Option.map_some, isToolMessage_some hobject hrole, decide_eq_true htool]
      unfold jsonAt at hnext ⊢
      rw [hlength, List.getElem?_append_right le_rfl, Nat.sub_self, ← List.head?_eq_getElem?] at hnext
      have hfalse : nextTool = false := by
        cases nextTool with
        | false => rfl
        | true => exact absurd ⟨hself, hnext⟩ htools
      rw [hfalse, List.getElem?_eq_none hge]
      rfl
  · exact h

/-- The rounds for the messages alone. -/
theorem renderLoop_left (hadd : o.addGenerationPrompt = true) (hstable : o.stableHarnessReasoning = true)
    (htools : ¬ (isToolMessage (l₁.getLast?.map Message.json) = .ok true ∧ isToolMessage (l₂.head?.map Message.json) = .ok true))
    (hrest : l₁.drop i = rest)
    (h : renderLoop lib o numSys last (l₁ ++ l₂) i rest t = .ok t') :
    renderLoop lib o numSys last' l₁ i rest t = .ok t' := by
  induction rest generalizing i t with
  | nil => exact h
  | cons m rest ih =>
      obtain ⟨hm, hnext⟩ := drop_eq_cons hrest
      unfold renderLoop at h ⊢
      split_ifs at h ⊢ with hskip
      · exact ih hnext h
      · obtain ⟨t₁, hmessage, hloop⟩ := Except.bind_eq_ok.mp h
        rw [not_or, not_not] at hskip
        exact Except.bind_eq_ok.mpr ⟨t₁, renderMessage_append hadd hstable htools hskip.1 hm hmessage, ih hnext hloop⟩

theorem renderLoop_cons : renderLoop lib o numSys last messages i (m :: rest) t =
    if ¬ m.json.isObject ∨ i < numSys then renderLoop lib o numSys last messages (i + 1) rest t
    else
      (renderMessage lib o last messages i m t).bind fun t =>
        renderLoop lib o numSys last messages (i + 1) rest t := rfl

/-- The rounds for the first messages, and then those for the others. -/
theorem renderLoop_split {rest' : List (Message β)} (h : renderLoop lib o numSys last messages i (rest ++ rest') t = .ok t') :
    ∃ t₁, renderLoop lib o numSys last messages i rest t = .ok t₁ ∧
      renderLoop lib o numSys last messages (i + rest.length) rest' t₁ = .ok t' := by
  induction rest generalizing i t with
  | nil => exact ⟨t, rfl, h⟩
  | cons m rest ih =>
      have hlength : i + (m :: rest).length = i + 1 + rest.length := by
        rw [List.length_cons]
        omega
      rw [hlength]
      rw [List.cons_append] at h
      rw [renderLoop_cons] at h ⊢
      split_ifs at h ⊢ with hskip
      · exact ih h
      · obtain ⟨t₁, hmessage, hloop⟩ := Except.bind_eq_ok.mp h
        obtain ⟨t₂, hleft, hright⟩ := ih hloop
        exact ⟨t₂, Except.bind_eq_ok.mpr ⟨t₁, hmessage, hleft⟩, hright⟩

/-- The leading system messages end before a message of another role. -/
theorem leadingSystem_append
    (hother : ∃ m ∈ l₁, m.json.isObject = true ∧ ∀ role, roleOf m.json = .ok role → isControl role = false) :
    leadingSystem merged (l₁ ++ l₂) = leadingSystem merged l₁ := by
  induction l₁ generalizing merged with
  | nil =>
      obtain ⟨m, hm, -⟩ := hother
      exact absurd hm List.not_mem_nil
  | cons m l₁ ih =>
      rw [List.cons_append]
      unfold leadingSystem
      split_ifs with hobject
      · cases hrole : roleOf m.json with
        | error what => rfl
        | ok role =>
            show (if _ then _ else _) = if _ then _ else _
            split_ifs with hcontrol
            · rw [ih]
              -- the message is one of the others
              obtain ⟨m', hm', hobject', hnot⟩ := hother
              rcases List.mem_cons.mp hm' with rfl | hm'
              · exact absurd hcontrol (by rw [hnot role hrole]; exact Bool.false_ne_true)
              · exact ⟨m', hm', hobject', hnot⟩
            · rfl
      · rfl

/-- **The transcript of the messages, and then a text that begins with a message.** -/
theorem renderBody_append (hadd : o.addGenerationPrompt = true) (hstable : o.stableHarnessReasoning = true)
    (hother : ∃ m ∈ l₁, m.json.isObject = true ∧ ∀ role, roleOf m.json = .ok role → isControl role = false)
    (htools : ¬ (isToolMessage (l₁.getLast?.map Message.json) = .ok true ∧ isToolMessage (l₂.head?.map Message.json) = .ok true)) {r : Rendered β}
    (h : renderBody lib o (l₁ ++ l₂) = .ok r) :
    ∃ r₁ text, renderBody lib o l₁ = .ok r₁ ∧ r.prompt = r₁.prompt ++ text ∧ (text = [] ∨ imStart <+: text) := by
  obtain ⟨numSys, merged, last, hsys, -, hloop, -⟩ := renderBody_eq_ok h
  rw [leadingSystem_append hother] at hsys
  obtain ⟨hle, hleading⟩ := leadingSystem_roled hsys
  obtain ⟨t₁, hleft, hright⟩ := renderLoop_split hloop
  rw [Nat.zero_add] at hright
  obtain ⟨last', hlast⟩ : ∃ last', lastQueryIndexForTemplate o l₁ = .ok last' := by
    refine lastQueryIndex_ok fun m hm => ?_
    rw [← List.take_append_drop numSys l₁] at hm
    rcases List.mem_append.mp hm with hm | hm
    · exact hleading m hm
    · exact renderLoop_roled hleft m hm
  have halone : renderLoop lib o numSys last' l₁ 0 l₁ ⟨controlPrefix lib o merged, []⟩ = .ok t₁ :=
    renderLoop_left hadd hstable htools rfl hleft
  obtain ⟨text, hprompt, htext⟩ := renderLoop_text List.drop_left hle hright
  refine ⟨{ t₁ with controlPrefixEnd := (controlPrefix lib o merged).length }, text, ?_, hprompt, ?_⟩
  · refine Except.bind_eq_ok.mpr ⟨(numSys, merged), hsys, ?_⟩
    exact Except.bind_eq_ok.mpr ⟨last', hlast, Except.map_eq_ok.mpr ⟨t₁, halone, rfl⟩⟩
  · refine htext.imp_right fun htext => htext.resolve_right fun htool => htools ⟨?_, htool.2⟩
    -- before the appended messages stands the last one
    obtain ⟨m, hm, -⟩ := hother
    have hpos : l₁.length > 0 := List.length_pos_of_mem hm
    have hprevious : previousMessage (l₁ ++ l₂) l₁.length = l₁.getLast?.map Message.json := by
      unfold previousMessage jsonAt
      rw [if_pos hpos, List.getElem?_append_left (by omega), List.getLast?_eq_getElem?]
    rw [← hprevious]
    exact htool.1

/-! ## Tokens -/

section Tokens

variable {tok : Tokenizer.QwenTokenizer} {nfc : Tokenizer.Nfc} {u : Tokenizer.UnicodeClasses} {addBos : Bool} {id : ℤ}
  {a b : Tokenizer.Bytes} {tokens : List ℤ}

/-- The bytes of a `std::string`, as the tokenizer has them. -/
def wire (text : Bytes) : Tokenizer.Bytes := text.map UInt8.toBitVec

theorem wire_append (x y : Bytes) : wire (x ++ y) = wire x ++ wire y := List.map_append

theorem wire_imStart : wire imStart = Tokenizer.boundary := by decide +kernel

theorem wire_opens {text : Bytes} (h : imStart <+: text) : Tokenizer.boundary <+: wire text := by
  obtain ⟨rest, rfl⟩ := h
  rw [wire_append, wire_imStart]
  exact List.prefix_append _ _

theorem header_opens : (imStart : List β) <+: generationHeader o := by
  unfold generationHeader
  rw [lit_assistantLine, List.append_assoc]
  exact List.prefix_append _ _

/-- The ids of a text that nothing is put before. -/
def stretchIds (tok : Tokenizer.QwenTokenizer) (nfc : Tokenizer.Nfc) (u : Tokenizer.UnicodeClasses)
    (text : Tokenizer.Bytes) : Except String (List ℤ) :=
  ((tok.segments text).mapM (tok.encodeSegment nfc u)).map List.flatten

/-- **Before a message the tokens are those of the parts.** -/
theorem encode_cut (hstart : tok.Special Tokenizer.boundary id) (hb : Tokenizer.boundary <+: b) :
    tok.encode nfc u (a ++ b) addBos = .ok tokens ↔
      ∃ x y, tok.encode nfc u a addBos = .ok x ∧ stretchIds tok nfc u b = .ok y ∧ tokens = x ++ y := by
  unfold Tokenizer.QwenTokenizer.encode stretchIds
  rw [Tokenizer.QwenTokenizer.segments_append hb hstart, List.mapM_append]
  cases (tok.segments a).mapM (tok.encodeSegment nfc u) with
  | error message =>
      constructor
      · intro h
        cases h
      · rintro ⟨x, y, hx, -⟩
        cases hx
  | ok x =>
      cases (tok.segments b).mapM (tok.encodeSegment nfc u) with
      | error message =>
          constructor
          · intro h
            cases h
          · rintro ⟨x, y, -, hy, -⟩
            cases hy
      | ok y =>
          show Except.ok (tok.bos addBos ++ (x ++ y).flatten) = .ok tokens ↔ _
          rw [List.flatten_append, ← List.append_assoc]
          constructor
          · intro h
            exact ⟨_, _, rfl, rfl, (Except.ok.inj h).symm⟩
          · rintro ⟨x', y', hx, hy, rfl⟩
            rw [← Except.ok.inj hx, ← Except.ok.inj hy]

/-- The ids of a text that begins with a message, or of none. -/
theorem stretchIds_cut (hstart : tok.Special Tokenizer.boundary id) (hb : Tokenizer.boundary <+: b) {y : List ℤ}
    (h : stretchIds tok nfc u (a ++ b) = .ok y) : ∃ z, stretchIds tok nfc u b = .ok z := by
  obtain ⟨segs, hsegs, -⟩ := Except.map_eq_ok.mp h
  rw [Tokenizer.QwenTokenizer.segments_append hb hstart, List.mapM_append] at hsegs
  obtain ⟨x, -, hsegs⟩ := Except.bind_eq_ok.mp hsegs
  obtain ⟨z, hz, -⟩ := Except.bind_eq_ok.mp hsegs
  exact ⟨z.flatten, Except.map_eq_ok.mpr ⟨z, hz, rfl⟩⟩

end Tokens

/-! ## The tokens of a longer chat -/

/-- What is kept of the messages when others are appended: the transcript without its final
header, whose tokens the longer chat begins with. -/
def Kept (lib : Library) (o : Options) (encode : Bytes → Except String (List ℤ)) (l₁ : List Json)
    (tokens : List ℤ) : Prop :=
  ∃ r body, renderMessages lib o (chat lib l₁) = .ok r ∧ r.prompt = body ++ generationHeader o ∧
    ∃ kept header, encode body = .ok kept ∧ encode r.prompt = .ok (kept ++ header) ∧ kept <+: tokens

theorem map_json_chat (l : List Json) : (chat lib l).map Message.json = l := by
  unfold chat
  rw [List.map_map]
  exact List.map_id l

/-- The prompt of the messages and others is the transcript of the messages, and then a text that
begins with a message: at the latest with the header. -/
theorem renderMessages_append {l₁ l₂ : List Json} (hadd : o.addGenerationPrompt = true)
    (hstable : o.stableHarnessReasoning = true)
    (hother : ∃ m ∈ l₁, m.isObject = true ∧ ∀ role, roleOf m = .ok role → isControl role = false)
    (htools : ¬ (isToolMessage l₁.getLast? = .ok true ∧ isToolMessage l₂.head? = .ok true)) {r : Rendered UInt8}
    (h : renderMessages lib o (chat lib (l₁ ++ l₂)) = .ok r) :
    ∃ body text, renderBody lib o (chat lib l₁) = .ok body ∧ r.prompt = body.prompt ++ (text ++ generationHeader o) ∧
      Tokenizer.boundary <+: wire (text ++ generationHeader o) := by
  obtain ⟨all, hall, rfl⟩ := Except.map_eq_ok.mp h
  have hother' : ∃ m ∈ chat lib l₁, m.json.isObject = true ∧ ∀ role, roleOf m.json = .ok role → isControl role = false := by
    obtain ⟨m, hm, hrole⟩ := hother
    exact ⟨⟨m, messageContent lib m⟩, List.mem_map_of_mem hm, hrole⟩
  have htools' : ¬ (isToolMessage ((chat lib l₁).getLast?.map Message.json) = .ok true ∧
      isToolMessage ((chat lib l₂).head?.map Message.json) = .ok true) := by
    rwa [← List.getLast?_map, ← List.head?_map, map_json_chat, map_json_chat]
  rw [show chat lib (l₁ ++ l₂) = chat lib l₁ ++ chat lib l₂ from List.map_append] at hall
  obtain ⟨body, text, hbody, hprompt, htext⟩ := renderBody_append hadd hstable hother' htools' hall
  refine ⟨body, text, hbody, ?_, wire_opens ?_⟩
  · rw [if_pos hadd, hprompt, List.append_assoc]
  · rcases htext with rfl | htext
    · exact header_opens
    · exact htext.trans (List.prefix_append _ _)

/-- **The tokens of the messages are kept** when others are appended, and the spans are those
of the messages. -/
theorem appendedMessages (lib : Library) (o : Options) (tok : Tokenizer.QwenTokenizer) (nfc : Tokenizer.Nfc)
    (u : Tokenizer.UnicodeClasses) (addBos : Bool) {id : ℤ} (hadd : o.addGenerationPrompt = true)
    (hstable : o.stableHarnessReasoning = true) (hstart : tok.Special Tokenizer.boundary id) :
    (∀ l r, renderMessages lib o (chat lib l) = .ok r → SpansOk (chat lib l) r.controlPrefixEnd r.toTranscript) ∧
    ∀ l₁ l₂ : List Json, (∃ m ∈ l₁, m.isObject = true ∧ ∀ role, roleOf m = .ok role → isControl role = false) →
      ¬ (isToolMessage l₁.getLast? = .ok true ∧ isToolMessage l₂.head? = .ok true) →
      ∀ r tokens, renderMessages lib o (chat lib (l₁ ++ l₂)) = .ok r →
        tok.encode nfc u (wire r.prompt) addBos = .ok tokens →
        Kept lib o (fun text => tok.encode nfc u (wire text) addBos) l₁ tokens := by
  refine ⟨fun l r => renderMessages_spansOk, fun l₁ l₂ hother htools r tokens hr htokens => ?_⟩
  obtain ⟨body, text, hbody, hprompt, hrest⟩ := renderMessages_append hadd hstable hother htools hr
  have hheader : Tokenizer.boundary <+: wire (generationHeader o) := wire_opens header_opens
  rw [hprompt, wire_append, encode_cut hstart hrest] at htokens
  obtain ⟨kept, more, hkept, hmore, rfl⟩ := htokens
  rw [wire_append] at hmore
  obtain ⟨header, hids⟩ := stretchIds_cut hstart hheader hmore
  refine ⟨{ body with prompt := body.prompt ++ generationHeader o }, body.prompt, ?_, rfl, kept, header, hkept, ?_,
    List.prefix_append _ _⟩
  · exact Except.map_eq_ok.mpr ⟨body, hbody, if_pos hadd⟩
  · show tok.encode nfc u (wire (body.prompt ++ generationHeader o)) addBos = _
    rw [wire_append]
    exact (encode_cut hstart hheader).mpr ⟨kept, header, hkept, hids, rfl⟩

/-- The alphabet and the two tokens around a message. -/
def chatTokenizer : Tokenizer.QwenTokenizer where
  tokens := ["<|im_start|>", "<|im_end|>"].map Tokenizer.bytes ++
    (List.range 256).map fun b => Tokenizer.byteToChar (BitVec.ofNat 8 b)
  merges := []
  bosId := 0
  addBos := false
  tokens_lt := by
    rw [List.length_append, List.length_map, List.length_map, List.length_range]
    decide

/-- The digits of the bits of a double. -/
def bitsText : FloatText where
  toChars x := Nat.toDigits 10 x.bits.toNat ++ ['e']
  numeric_of_mem x c h := by
    rcases List.mem_append.mp h with h | h
    · exact numeric_of_isDigit (Nat.isDigit_of_mem_toDigits (by norm_num) le_rfl h)
    · rw [List.mem_singleton.mp h]
      rfl
  pointed x := .inr (List.mem_append_right _ (List.mem_singleton.mpr rfl))
  unsigned x rest := by
    intro h
    cases hdigits : Nat.toDigits 10 x.bits.toNat with
    | nil => exact Nat.toDigits_ne_nil hdigits
    | cons c digits =>
        rw [hdigits, List.cons_append] at h
        have hdigit : c.isDigit = true :=
          Nat.isDigit_of_mem_toDigits (by norm_num) le_rfl (hdigits ▸ List.mem_cons_self)
        rw [(List.cons.inj h).1] at hdigit
        exact absurd hdigit (by decide)

/-- A library for chats without tool calls. -/
def dumpLibrary : Library := ⟨fun _ => .error "no text to parse", bitsText⟩

/-- A message of a user. -/
def userMessage (content : String) : Json := .object [("content", .string content), ("role", .string "user")]

/-- The reasoning stays in its frames. -/
def stableOptions : Options := { stableHarnessReasoning := true }

/-! ## Two questions -/

/-- A question, and another one after it. -/
def questions : List Json := [userMessage "a", userMessage "b"]

/-- The first question, the frame that opens the second one, and what stands behind its text. -/
def firstBytes : Bytes :=
  [60, 124, 105, 109, 95, 115, 116, 97, 114, 116, 124, 62, 117, 115, 101, 114, 10, 97, 60, 124, 105, 109, 95,
    101, 110, 100, 124, 62, 10]

def openBytes : Bytes := [60, 124, 105, 109, 95, 115, 116, 97, 114, 116, 124, 62, 117, 115, 101, 114, 10]

def closeBytes : Bytes :=
  [60, 124, 105, 109, 95, 101, 110, 100, 124, 62, 10, 60, 124, 105, 109, 95, 115, 116, 97, 114, 116, 124, 62, 97,
    115, 115, 105, 115, 116, 97, 110, 116, 10, 60, 116, 104, 105, 110, 107, 62, 10]

/-- The second question and the header. -/
def questionBytes : Bytes := openBytes ++ [98] ++ closeBytes

/-- All of their prompt is ASCII. -/
theorem ascii_questions {text : Bytes} (h : text ⊆ firstBytes ++ questionBytes) : ∀ c ∈ wire text, c < 0x80 := by
  have hascii : ∀ c ∈ firstBytes ++ questionBytes, c < 0x80 := by
    simp [firstBytes, questionBytes, openBytes, closeBytes]
  intro c hc
  obtain ⟨b, hb, rfl⟩ := List.mem_map.mp hc
  exact hascii b (h hb)

/-- A chat of users renders to its rounds. -/
theorem renderBody_of_users {lib : Library} {o : Options} {messages : List (Message β)} {t : Transcript β}
    (hstart : controlPrefix lib o ([] : List β) = [])
    (hsys : leadingSystem [] messages = .ok (0, [])) (hroled : ∀ m ∈ messages, Roled m)
    (hloop : ∀ last, renderLoop lib o 0 last messages 0 messages ⟨[], []⟩ = .ok t) :
    renderBody lib o messages = .ok ⟨t, 0⟩ := by
  obtain ⟨last, hlast⟩ : ∃ last, lastQueryIndexForTemplate o messages = .ok last := lastQueryIndex_ok hroled
  refine Except.bind_eq_ok.mpr ⟨(0, []), hsys, Except.bind_eq_ok.mpr ⟨last, hlast, ?_⟩⟩
  rw [hstart]
  exact Except.map_eq_ok.mpr ⟨t, hloop last, rfl⟩

/-- The header follows them. -/
theorem renderMessages_of_users {lib : Library} {o : Options} {messages : List (Message β)} {t : Transcript β}
    (hstart : controlPrefix lib o ([] : List β) = [])
    (hsys : leadingSystem [] messages = .ok (0, [])) (hroled : ∀ m ∈ messages, Roled m)
    (hloop : ∀ last, renderLoop lib o 0 last messages 0 messages ⟨[], []⟩ = .ok t) :
    renderMessages lib o messages =
      .ok ⟨⟨if o.addGenerationPrompt then t.prompt ++ generationHeader o else t.prompt, t.spans⟩, 0⟩ := by
  refine Except.map_eq_ok.mpr ⟨⟨t, 0⟩, renderBody_of_users hstart hsys hroled hloop, ?_⟩
  split_ifs <;> rfl

omit [Glyph β] in
theorem roled_of_user (h : roleOf m.json = .ok "user") : Roled m := fun _ => ⟨"user", h⟩

/-- Their prompt. -/
theorem render_questions_stable : renderMessages dumpLibrary stableOptions (chat dumpLibrary questions) =
    .ok ⟨⟨firstBytes ++ questionBytes, [⟨0, "user", 0, 29, 17, 18⟩, ⟨1, "user", 29, 58, 46, 47⟩]⟩, 0⟩ := by
  have hroled : ∀ m ∈ chat dumpLibrary questions, Roled m :=
    List.forall_mem_cons.mpr ⟨roled_of_user rfl, List.forall_mem_singleton.mpr (roled_of_user rfl)⟩
  exact renderMessages_of_users (t := ⟨_, _⟩) rfl rfl hroled fun _ => rfl

/-- The first question keeps its tokens in the prompt of both. -/
theorem appendedMessages_questions :
    (∀ l r, renderMessages dumpLibrary stableOptions (chat dumpLibrary l) = .ok r →
      SpansOk (chat dumpLibrary l) r.controlPrefixEnd r.toTranscript) ∧
    ∃ r tokens, renderMessages dumpLibrary stableOptions (chat dumpLibrary questions) = .ok r ∧
      chatTokenizer.encode Tokenizer.QwenTokenizer.sampleNfc .ascii (wire r.prompt) false = .ok tokens ∧
        Kept dumpLibrary stableOptions
          (fun text => chatTokenizer.encode Tokenizer.QwenTokenizer.sampleNfc .ascii (wire text) false)
          [userMessage "a"] tokens := by
  have hstart : chatTokenizer.Special Tokenizer.boundary 0 := ⟨Tokenizer.boundary_mem_candidates, rfl⟩
  obtain ⟨hspans, hkept⟩ := appendedMessages dumpLibrary stableOptions chatTokenizer Tokenizer.QwenTokenizer.sampleNfc
    .ascii false rfl rfl hstart
  have hencode : chatTokenizer.encode Tokenizer.QwenTokenizer.sampleNfc .ascii (wire (firstBytes ++ questionBytes))
      false = .ok _ :=
    Tokenizer.QwenTokenizer.encode_of_no_merges rfl (ascii_questions (List.Subset.refl _))
  refine ⟨hspans, _, _, render_questions_stable, hencode,
    hkept [userMessage "a"] [userMessage "b"] ⟨_, List.mem_singleton.mpr rfl, rfl, ?_⟩ ?_ _ _ render_questions_stable hencode⟩
  · rintro role hrole
    rw [← Except.ok.inj hrole]
    decide
  · rintro ⟨htool, -⟩
    exact absurd (Except.ok.inj htool) (by decide)

end Qw3.Chat
