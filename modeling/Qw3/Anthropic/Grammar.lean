import Qw3.Anthropic.Sse

/-!
# What an Anthropic event stream may say

* `Block`, `Message` — a message as its client understands it: blocks of one
  kind each, and at least one of them; `Message.events` writes it out.
* `Grammatical` — the events so far are the beginning of a message, or such a
  beginning and an error.
* `Phase`, `Reads` — the same, event by event: how far a reader of the stream
  has come.
* `Reads.grammatical` — what can be read is grammatical.
-/

namespace Qw3.Anthropic

/-- A content block with all its deltas. -/
inductive Block where
  | thinking (deltas : List String) (signature : String)
  | text (deltas : List String)
  | toolUse (id name : String) (deltas : List String)

/-- What a block announces. -/
def Block.start : Block → ContentBlock
  | .thinking _ _ => .thinking
  | .text _ => .text
  | .toolUse id name _ => .toolUse id name

/-- The deltas of a block; a thinking block is signed last. -/
def Block.deltas : Block → List Delta
  | .thinking deltas signature => deltas.map .thinking ++ [.signature signature]
  | .text deltas => deltas.map .text
  | .toolUse _ _ deltas => deltas.map .inputJson

/-- A block as events. -/
def Block.events (index : ℕ) (block : Block) : List Event :=
  .contentBlockStart index block.start ::
    block.deltas.map (.contentBlockDelta index) ++ [.contentBlockStop index]

/-- Blocks one after another, numbered from `index` on. -/
def blockEvents : ℕ → List Block → List Event
  | _, [] => []
  | index, block :: blocks => block.events index ++ blockEvents (index + 1) blocks

/-- A message. -/
structure Message where
  id : String
  model : String
  inputTokens : BitVec 64
  blocks : List Block
  stopReason : String
  outputTokens : BitVec 64
  nonempty : blocks ≠ []

/-- A message as events. -/
def Message.events (m : Message) : List Event :=
  .messageStart m.id m.model m.inputTokens :: blockEvents 0 m.blocks ++
    [.messageDelta m.stopReason m.outputTokens, .messageStop]

/-- The beginning of a message, or of one that an error cut short. -/
def Grammatical (events : List Event) : Prop :=
  ∃ m : Message, events <+: m.events ∨
    ∃ sent error type, sent <+: m.events ∧ sent ≠ m.events ∧
      events = sent ++ [.error error type]

theorem blockEvents_append (index : ℕ) (as bs : List Block) :
    blockEvents index (as ++ bs) = blockEvents index as ++ blockEvents (index + as.length) bs := by
  induction as generalizing index with
  | nil => rfl
  | cons a as ih =>
      rw [List.cons_append, blockEvents, ih, blockEvents, List.append_assoc, List.length_cons,
        Nat.add_right_comm, Nat.add_assoc]

/-! ## Reading the stream -/

/-- How far a reader has come. -/
inductive Phase where
  | idle
  /-- so many blocks are complete, and none is open -/
  | between (blocks : ℕ)
  /-- the block with this number is open -/
  | opened (index : ℕ) (kind : BlockKind)
  | signed (index : ℕ)
  | ended
  | done
  | failed
  deriving DecidableEq

/-- The kind of a block that starts so. -/
def ContentBlock.kind : ContentBlock → BlockKind
  | .thinking => .thinking
  | .text => .text
  | .toolUse _ _ => .tool

/-- The kind of block that a delta belongs to; a signature is apart. -/
def Delta.kind : Delta → BlockKind
  | .thinking _ => .thinking
  | .signature _ => .none
  | .text _ => .text
  | .inputJson _ => .tool

/-- The events bring a reader to this phase. -/
inductive Reads : Phase → List Event → Prop
  | idle : Reads .idle []
  | start {es : List Event} {id model : String} {inputTokens : BitVec 64} :
      Reads .idle es → Reads (.between 0) (es ++ [.messageStart id model inputTokens])
  | openBlock {es : List Event} {n : ℕ} (block : ContentBlock) :
      Reads (.between n) es → Reads (.opened n block.kind) (es ++ [.contentBlockStart n block])
  | delta {es : List Event} {n : ℕ} {kind : BlockKind} {delta : Delta} :
      Reads (.opened n kind) es → delta.kind = kind → kind ≠ .none →
      Reads (.opened n kind) (es ++ [.contentBlockDelta n delta])
  | sign {es : List Event} {n : ℕ} (signature : String) :
      Reads (.opened n .thinking) es →
      Reads (.signed n) (es ++ [.contentBlockDelta n (.signature signature)])
  | stopSigned {es : List Event} {n : ℕ} :
      Reads (.signed n) es → Reads (.between (n + 1)) (es ++ [.contentBlockStop n])
  | stop {es : List Event} {n : ℕ} {kind : BlockKind} :
      Reads (.opened n kind) es → kind ≠ .thinking →
      Reads (.between (n + 1)) (es ++ [.contentBlockStop n])
  | messageDelta {es : List Event} {n : ℕ} {stopReason : String} {outputTokens : BitVec 64} :
      Reads (.between (n + 1)) es → Reads .ended (es ++ [.messageDelta stopReason outputTokens])
  | messageStop {es : List Event} : Reads .ended es → Reads .done (es ++ [.messageStop])
  | error {es : List Event} {phase : Phase} {message type : String} :
      Reads phase es → phase ≠ .done → phase ≠ .failed →
      Reads .failed (es ++ [.error message type])

/-- A block that is not complete yet. -/
def Block.opening (index : ℕ) (start : ContentBlock) (deltas : List Delta) : List Event :=
  .contentBlockStart index start :: deltas.map (.contentBlockDelta index)

/-- The beginning of a message with these blocks complete. -/
def Begun (blocks : List Block) (rest events : List Event) : Prop :=
  ∃ id model inputTokens,
    events = .messageStart id model inputTokens :: blockEvents 0 blocks ++ rest

/-- What the events are in each phase. -/
def Phase.Says : Phase → List Event → Prop
  | .idle, es => es = []
  | .between n, es => ∃ blocks : List Block, blocks.length = n ∧ Begun blocks [] es
  | .opened n kind, es => ∃ (blocks : List Block) (start : ContentBlock) (deltas : List Delta),
      blocks.length = n ∧ start.kind = kind ∧ (∀ d ∈ deltas, d.kind = kind) ∧
      Begun blocks (Block.opening n start deltas) es
  | .signed n, es => ∃ (blocks : List Block) (deltas : List String) (signature : String),
      blocks.length = n ∧ Begun blocks
        (Block.opening n .thinking (deltas.map .thinking ++ [.signature signature])) es
  | .ended, es => ∃ (blocks : List Block) (stopReason : String) (outputTokens : BitVec 64),
      blocks ≠ [] ∧ Begun blocks [.messageDelta stopReason outputTokens] es
  | .done, es => ∃ m : Message, es = m.events
  | .failed, es => ∃ (m : Message) (sent : List Event) (error type : String),
      sent <+: m.events ∧ sent ≠ m.events ∧ es = sent ++ [.error error type]

variable {blocks : List Block} {es rest : List Event}

theorem Begun.append (h : Begun blocks rest es) (e : Event) :
    Begun blocks (rest ++ [e]) (es ++ [e]) := by
  obtain ⟨id, model, inputTokens, rfl⟩ := h
  exact ⟨id, model, inputTokens, by rw [List.append_assoc]⟩

/-- One more delta. -/
theorem Begun.delta {index : ℕ} {start : ContentBlock} {deltas : List Delta}
    (h : Begun blocks (Block.opening index start deltas) es) (delta : Delta) :
    Begun blocks (Block.opening index start (deltas ++ [delta]))
      (es ++ [.contentBlockDelta index delta]) := by
  have happend := h.append (.contentBlockDelta index delta)
  rw [Block.opening, List.cons_append] at happend
  rw [Block.opening, List.map_append]
  exact happend

/-- A block that is complete. -/
theorem Begun.complete (block : Block) (h : Begun blocks (block.events blocks.length) es) :
    Begun (blocks ++ [block]) [] es := by
  obtain ⟨id, model, inputTokens, rfl⟩ := h
  refine ⟨id, model, inputTokens, ?_⟩
  rw [blockEvents_append, Nat.zero_add, blockEvents, blockEvents, List.append_nil, List.append_nil,
    List.cons_append]

/-- A message that begins so, and is not over. -/
def Extends (es : List Event) : Prop := ∃ m : Message, es <+: m.events ∧ es ≠ m.events

theorem extends_of_append (message : Message) {m : List Event} (h : es ++ m = message.events)
    (hne : m ≠ []) : Extends es := by
  refine ⟨message, ⟨m, h⟩, fun heq => hne ?_⟩
  rw [heq] at h
  exact List.append_right_eq_self.mp h

/-- The beginning of a block can be completed to a message. -/
theorem Begun.extends (block : Block) (h : Begun blocks rest es)
    (hrest : rest <+: block.events blocks.length) : Extends es := by
  obtain ⟨id, model, inputTokens, rfl⟩ := h
  obtain ⟨more, hmore⟩ := hrest
  refine extends_of_append ⟨id, model, inputTokens, blocks ++ [block], "", 0, by simp⟩
    (m := more ++ [.messageDelta "" 0, .messageStop]) ?_ (by simp)
  rw [Message.events, blockEvents_append, Nat.zero_add, blockEvents, blockEvents, ← hmore]
  simp only [List.cons_append, List.append_assoc, List.append_nil]

/-- Deltas of one kind are the deltas of a block, up to its signature. -/
theorem exists_block (start : ContentBlock) (deltas : List Delta)
    (h : ∀ d ∈ deltas, d.kind = start.kind) :
    ∃ block : Block, block.start = start ∧ deltas <+: block.deltas ∧
      (start.kind ≠ .thinking → block.deltas = deltas) ∧
      (start.kind = .thinking → ∃ values : List String, deltas = values.map .thinking) := by
  have hvalues : ∀ (wrap : String → Delta) (deltas : List Delta),
      (∀ d ∈ deltas, ∃ v, d = wrap v) → ∃ values : List String, deltas = values.map wrap := by
    intro wrap deltas hwrap
    induction deltas with
    | nil => exact ⟨[], rfl⟩
    | cons d deltas ih =>
        obtain ⟨v, rfl⟩ := hwrap d List.mem_cons_self
        obtain ⟨values, rfl⟩ := ih fun d hd => hwrap d (List.mem_cons_of_mem _ hd)
        exact ⟨v :: values, rfl⟩
  cases start with
  | thinking =>
      obtain ⟨values, rfl⟩ := hvalues .thinking deltas fun d hd => by
        have hd := h d hd
        cases d <;> first | exact ⟨_, rfl⟩ | cases hd
      exact ⟨.thinking values "", rfl, List.prefix_append _ _, fun hne => absurd rfl hne,
        fun _ => ⟨values, rfl⟩⟩
  | text =>
      obtain ⟨values, rfl⟩ := hvalues .text deltas fun d hd => by
        have hd := h d hd
        cases d <;> first | exact ⟨_, rfl⟩ | cases hd
      exact ⟨.text values, rfl, List.prefix_rfl, fun _ => rfl, fun heq => nomatch heq⟩
  | toolUse id name =>
      obtain ⟨values, rfl⟩ := hvalues .inputJson deltas fun d hd => by
        have hd := h d hd
        cases d <;> first | exact ⟨_, rfl⟩ | cases hd
      exact ⟨.toolUse id name values, rfl, List.prefix_rfl, fun _ => rfl, fun heq => nomatch heq⟩

/-- The events of a block begin with those of a block that is not complete. -/
theorem opening_begins {index : ℕ} (block : Block) {deltas : List Delta}
    (h : deltas <+: block.deltas) :
    Block.opening index block.start deltas <+: block.events index := by
  obtain ⟨more, hmore⟩ := h
  refine ⟨more.map (.contentBlockDelta index) ++ [.contentBlockStop index], ?_⟩
  rw [Block.opening, Block.events, ← hmore, List.map_append]
  simp only [List.cons_append, List.append_assoc]

/-- Before the end, what is said is the beginning of a message. -/
theorem Phase.Says.extends {phase : Phase} (h : phase.Says es) (hdone : phase ≠ .done)
    (hfailed : phase ≠ .failed) : Extends es := by
  cases phase with
  | idle =>
      obtain rfl := h
      exact extends_of_append ⟨"", "", 0, [.text []], "", 0, by simp⟩ (List.nil_append _)
        (List.cons_ne_nil _ _)
  | between n =>
      obtain ⟨blocks, -, h⟩ := h
      exact h.extends (.text []) List.nil_prefix
  | opened n kind =>
      obtain ⟨blocks, start, deltas, rfl, rfl, hdeltas, h⟩ := h
      obtain ⟨block, rfl, hmore, -⟩ := exists_block start deltas hdeltas
      exact h.extends block (opening_begins block hmore)
  | signed n =>
      obtain ⟨blocks, deltas, signature, rfl, h⟩ := h
      exact h.extends (.thinking deltas signature)
        (opening_begins (.thinking deltas signature) List.prefix_rfl)
  | ended =>
      obtain ⟨blocks, stopReason, outputTokens, hne, id, model, inputTokens, rfl⟩ := h
      refine extends_of_append ⟨id, model, inputTokens, blocks, stopReason, outputTokens, hne⟩
        (m := [.messageStop]) ?_ (List.cons_ne_nil _ _)
      simp [Message.events]
  | done => exact absurd rfl hdone
  | failed => exact absurd rfl hfailed

/-- What the events are, from phase to phase. -/
theorem Reads.says {phase : Phase} (h : Reads phase es) : phase.Says es := by
  induction h with
  | idle => rfl
  | @start es id model inputTokens _ ih =>
      obtain rfl : es = [] := ih
      exact ⟨[], rfl, id, model, inputTokens, rfl⟩
  | @openBlock es n block _ ih =>
      obtain ⟨blocks, hn, h⟩ := ih
      refine ⟨blocks, block, [], hn, rfl, fun d hd => absurd hd List.not_mem_nil, ?_⟩
      exact h.append _
  | @delta es n kind delta _ hkind hne ih =>
      obtain ⟨blocks, start, deltas, hn, hstart, hdeltas, h⟩ := ih
      refine ⟨blocks, start, deltas ++ [delta], hn, hstart, fun d hd => ?_, ?_⟩
      · rcases List.mem_append.mp hd with hd | hd
        · exact hdeltas d hd
        · rw [List.mem_singleton.mp hd, hkind]
      · exact h.delta delta
  | @sign es n signature _ ih =>
      obtain ⟨blocks, start, deltas, hn, hstart, hdeltas, h⟩ := ih
      obtain ⟨block, -, -, -, hvalues⟩ := exists_block start deltas (hstart ▸ hdeltas)
      obtain ⟨values, rfl⟩ := hvalues hstart
      obtain rfl : start = .thinking := by cases start <;> first | rfl | cases hstart
      exact ⟨blocks, values, signature, hn, h.delta (.signature signature)⟩
  | @stopSigned es n _ ih =>
      obtain ⟨blocks, deltas, signature, rfl, h⟩ := ih
      refine ⟨blocks ++ [.thinking deltas signature], by simp, ?_⟩
      exact Begun.complete (.thinking deltas signature) (h.append _)
  | @stop es n kind _ hkind ih =>
      obtain ⟨blocks, start, deltas, rfl, rfl, hdeltas, h⟩ := ih
      obtain ⟨block, rfl, -, hsame, -⟩ := exists_block start deltas hdeltas
      refine ⟨blocks ++ [block], by simp, Begun.complete block ?_⟩
      rw [Block.events, hsame hkind]
      exact h.append _
  | @messageDelta es n stopReason outputTokens _ ih =>
      obtain ⟨blocks, hn, h⟩ := ih
      exact ⟨blocks, stopReason, outputTokens, List.ne_nil_of_length_eq_add_one hn, h.append _⟩
  | @messageStop es _ ih =>
      obtain ⟨blocks, stopReason, outputTokens, hne, id, model, inputTokens, rfl⟩ := ih
      exact ⟨⟨id, model, inputTokens, blocks, stopReason, outputTokens, hne⟩, by
        simp [Message.events]⟩
  | @error es phase message type _ hdone hfailed ih =>
      obtain ⟨m, hsent, hne⟩ := ih.extends hdone hfailed
      exact ⟨m, es, message, type, hsent, hne, rfl⟩

/-- What can be read is grammatical. -/
theorem Reads.grammatical {phase : Phase} (h : Reads phase es) : Grammatical es := by
  by_cases hdone : phase = .done
  · subst hdone
    obtain ⟨m, rfl⟩ := h.says
    exact ⟨m, .inl List.prefix_rfl⟩
  by_cases hfailed : phase = .failed
  · subst hfailed
    obtain ⟨m, sent, error, type, hsent, hne, rfl⟩ := h.says
    exact ⟨m, .inr ⟨sent, error, type, hsent, hne, rfl⟩⟩
  · obtain ⟨m, hm, -⟩ := h.says.extends hdone hfailed
    exact ⟨m, .inl hm⟩

end Qw3.Anthropic
