import Qw3.Anthropic.Grammar

/-!
# The adapter's events are grammatical

* `Live` — a message has started and has not ended: the reader of the events is
  where the adapter's block and index say.
* `Session.Inv` — what holds between calls; `Readable` — what holds wherever a
  call leaves early.
* `closeBlock_triple`, `openBlock_triple`, `processJson_triple`,
  `completeMessage_triple` — each function keeps it.
* `eventStream` — **every stream is grammatical**.
-/

namespace Qw3.Anthropic

open Program

/-! ## What holds between calls -/

/-- Where the reader is when the adapter is here. -/
def AnthropicSseAdapter.phase (a : AnthropicSseAdapter) : Phase :=
  if a.block = .none then .between a.nextBlockIndex else .opened (a.nextBlockIndex - 1) a.block

/-- A message has started and has not ended. -/
structure Live (s : Session) : Prop where
  started : s.adapter.started = true
  completed : s.adapter.completed = false
  emitted : s.adapter.emittedAnyBlock = true → 0 < s.adapter.nextBlockIndex
  block : s.adapter.block ≠ .none → 0 < s.adapter.nextBlockIndex
  reads : Reads s.adapter.phase s.events

/-- Nothing was emitted. -/
structure Fresh (s : Session) : Prop where
  started : s.adapter.started = false
  completed : s.adapter.completed = false
  emitted : s.adapter.emittedAnyBlock = false
  block : s.adapter.block = .none
  index : s.adapter.nextBlockIndex = 0
  events : s.events = []

/-- The events so far can be read. -/
def Readable (s : Session) : Prop := ∃ phase, Reads phase s.events

/-- What holds between calls. -/
def Session.Inv (s : Session) : Prop :=
  Fresh s ∨ Live s ∨ s.adapter.completed = true ∧ Readable s

variable {s : Session}

theorem Live.readable (h : Live s) : Readable s := ⟨_, h.reads⟩

theorem Fresh.readable (h : Fresh s) : Readable s := ⟨.idle, h.events ▸ .idle⟩

theorem Session.Inv.readable (h : s.Inv) : Readable s :=
  h.elim Fresh.readable fun h => h.elim Live.readable And.right

/-- A change of the adapter that the reader does not see. -/
def Keeps (f : AnthropicSseAdapter → AnthropicSseAdapter) : Prop :=
  ∀ a, (f a).started = a.started ∧ (f a).completed = a.completed ∧
    (f a).emittedAnyBlock = a.emittedAnyBlock ∧ (f a).block = a.block ∧
    (f a).nextBlockIndex = a.nextBlockIndex

theorem Live.update (h : Live s) {f : AnthropicSseAdapter → AnthropicSseAdapter}
    (hf : Keeps f) : Live { s with adapter := f s.adapter } := by
  obtain ⟨hstarted, hcompleted, hemitted, hblock, hindex⟩ := hf s.adapter
  refine ⟨hstarted.trans h.started, hcompleted.trans h.completed, ?_, ?_, ?_⟩
  · rw [hemitted, hindex]
    exact h.emitted
  · rw [hblock, hindex]
    exact h.block
  · rw [AnthropicSseAdapter.phase, hblock, hindex]
    exact h.reads

theorem Fresh.update (h : Fresh s) {f : AnthropicSseAdapter → AnthropicSseAdapter}
    (hf : Keeps f) : Fresh { s with adapter := f s.adapter } := by
  obtain ⟨hstarted, hcompleted, hemitted, hblock, hindex⟩ := hf s.adapter
  exact ⟨hstarted.trans h.started, hcompleted.trans h.completed, hemitted.trans h.emitted,
    hblock.trans h.block, hindex.trans h.index, h.events⟩

/-! ## Steps that all functions share -/

variable {out : Outside} {P : Session → Prop} {Q : Unit → Session → Prop}

/-- What a function leaves behind when it leaves early. -/
abbrev Left : Exit → Session → Prop := fun _ s => Readable s

theorem orThrow_triple {α : Type} (e : Except String α) (hP : ∀ s, P s → Readable s) :
    Triple P (orThrow e) (fun a s => e = .ok a ∧ P s) Left := by
  cases e with
  | ok a => exact Triple.pure fun s hs => ⟨rfl, hs⟩
  | error what => exact Triple.throw fun s hs => hP s hs

theorem fail_triple {α : Type} {R : α → Session → Prop} (message : String)
    (hP : ∀ s, P s → Readable s) : Triple P (fail message : Action α) R Left := by
  refine Triple.bind (Q := fun _ => Readable) ?_ fun _ => ?_
  · exact Triple.modify fun s hs => hP s hs
  · exact Triple.throw fun s hs => hs

/-- An event takes the reader on, whether or not the callback accepts it. -/
theorem emitEvent_triple (event : Event) (hP : ∀ s, P s → Readable s)
    (hnext : ∀ s, P s → Readable { s with events := s.events ++ [event] })
    (hQ : ∀ s wires, P s → Q () { s with events := s.events ++ [event], wires := wires }) :
    Triple P (emitEvent out event) Q Left := by
  refine Triple.bind (orThrow_triple _ hP) fun data => ?_
  refine Triple.bind_get fun s hs => ?_
  refine Triple.bind (Q := fun _ t => ∃ wires,
    t = { s with events := s.events ++ [event], wires := wires }) ?_ fun _ => ?_
  · rintro t rfl
    exact ⟨_, rfl⟩
  · refine Triple.ite (fun _ => Triple.pure ?_) fun _ => Triple.throw ?_
    · rintro t ⟨wires, rfl⟩
      exact hQ s wires hs.2
    · rintro t ⟨wires, rfl⟩
      exact hnext s hs.2

theorem update_triple {f : AnthropicSseAdapter → AnthropicSseAdapter}
    (h : ∀ s, P s → Q () { s with adapter := f s.adapter }) : Triple P (update f) Q Left :=
  Triple.modify h

/-- A live session whose block is of this kind. -/
def LiveIn (kind : BlockKind) (s : Session) : Prop := Live s ∧ s.adapter.block = kind

theorem LiveIn.readable {kind : BlockKind} (h : LiveIn kind s) : Readable s :=
  h.1.readable

theorem LiveIn.update {kind : BlockKind} (h : LiveIn kind s)
    {f : AnthropicSseAdapter → AnthropicSseAdapter} (hf : Keeps f) :
    LiveIn kind { s with adapter := f s.adapter } :=
  ⟨h.1.update hf, (hf s.adapter).2.2.2.1.trans h.2⟩

theorem LiveIn.reads_opened {kind : BlockKind} (h : LiveIn kind s)
    (hkind : kind ≠ .none) : Reads (.opened (s.adapter.nextBlockIndex - 1) kind) s.events := by
  have hreads := h.1.reads
  rwa [AnthropicSseAdapter.phase, if_neg (h.2.trans_ne hkind), h.2] at hreads

theorem LiveIn.reads_between (h : LiveIn .none s) :
    Reads (.between s.adapter.nextBlockIndex) s.events := by
  have hreads := h.1.reads
  rwa [AnthropicSseAdapter.phase, if_pos h.2] at hreads

/-! ## Blocks -/

/-- A delta of the block that is open. -/
theorem emitDelta_triple (delta : Delta) (hkind : delta.kind ≠ .none) :
    Triple (LiveIn delta.kind) (emitDelta out delta) (fun _ => LiveIn delta.kind) Left := by
  refine Triple.bind_get fun s hs => ?_
  have hreads := Reads.delta (hs.reads_opened hkind) rfl hkind
  refine emitEvent_triple _ ?_ ?_ ?_
  · rintro t rfl
    exact hs.readable
  · rintro t rfl
    exact ⟨_, hreads⟩
  · rintro t wires rfl
    refine ⟨⟨hs.1.started, hs.1.completed, hs.1.emitted, hs.1.block, ?_⟩, hs.2⟩
    rw [AnthropicSseAdapter.phase, if_neg (hs.2.trans_ne hkind)]
    dsimp only
    rw [hs.2]
    exact hreads

/-- Before the stop: a thinking block is signed. -/
def Closing (s t : Session) : Prop :=
  t.adapter = s.adapter ∧ Readable t ∧ Reads (.between s.adapter.nextBlockIndex)
    (t.events ++ [.contentBlockStop (s.adapter.nextBlockIndex - 1)])

/-- A thinking block is signed before it ends. -/
theorem signBlock_triple (hs : Live s) (hblock : s.adapter.block ≠ .none) :
    Triple (fun t => t = s) (signBlock out) (fun _ => Closing s) Left := by
  have hindex : s.adapter.nextBlockIndex - 1 + 1 = s.adapter.nextBlockIndex :=
    Nat.sub_add_cancel (hs.block hblock)
  have hopened := LiveIn.reads_opened ⟨hs, rfl⟩ hblock
  refine Triple.bind_get fun t ht => ?_
  subst ht
  refine Triple.ite (fun hthinking => ?_) fun hthinking => Triple.pure ?_
  · rw [hthinking] at hopened
    refine emitEvent_triple _ ?_ ?_ ?_
    · rintro u rfl
      exact hs.readable
    · rintro u rfl
      exact ⟨_, hopened.sign _⟩
    · rintro u wires rfl
      refine ⟨rfl, ⟨_, hopened.sign _⟩, ?_⟩
      have hstop := (hopened.sign (opaqueSignature u.adapter.reasoning)).stopSigned
      rw [hindex] at hstop
      exact hstop
  · rintro u rfl
    refine ⟨rfl, hs.readable, ?_⟩
    have hstop := hopened.stop hthinking
    rw [hindex] at hstop
    exact hstop

/-- Afterwards no block is open. -/
theorem closeBlock_triple (n : ℕ) :
    Triple (fun s => Live s ∧ s.adapter.nextBlockIndex = n) (closeBlock out)
      (fun _ s => LiveIn .none s ∧ s.adapter.nextBlockIndex = n) Left := by
  refine Triple.bind_get fun s hs => ?_
  obtain ⟨hlive, rfl⟩ := hs
  refine Triple.ite (fun hnone => Triple.pure ?_) fun hblock => ?_
  · rintro t rfl
    exact ⟨⟨hlive, hnone⟩, rfl⟩
  refine Triple.bind (signBlock_triple hlive hblock) fun _ => Triple.bind_get fun t ht => ?_
  obtain ⟨hadapter, hreadable, hstop⟩ := ht
  rw [hadapter]
  refine Triple.bind (Q := fun _ u => u.adapter = s.adapter ∧
    Reads (.between s.adapter.nextBlockIndex) u.events) ?_ fun _ => update_triple ?_
  · refine emitEvent_triple _ ?_ ?_ ?_
    · rintro u rfl
      exact hreadable
    · rintro u rfl
      exact ⟨_, hstop⟩
    · rintro u wires rfl
      exact ⟨hadapter, hstop⟩
  · rintro u ⟨hu, hreads⟩
    rw [hu]
    exact ⟨⟨⟨hlive.started, hlive.completed, hlive.emitted, fun hne => absurd rfl hne, hreads⟩,
      rfl⟩, rfl⟩

/-- What `open_block` announces is of its kind. -/
theorem contentBlock_triple (kind : BlockKind) (toolDelta : Option Json) :
    Triple (LiveIn .none) (contentBlock kind toolDelta)
      (fun block s => block.kind = kind ∧ kind ≠ .none ∧ LiveIn .none s) Left := by
  cases kind with
  | none => exact fail_triple _ fun s hs => hs.readable
  | thinking => exact Triple.pure fun s hs => ⟨rfl, nofun, hs⟩
  | text => exact Triple.pure fun s hs => ⟨rfl, nofun, hs⟩
  | tool =>
      dsimp only [contentBlock]
      split
      case h_2 => exact fail_triple _ fun s hs => hs.readable
      case h_1 =>
        refine Triple.bind (orThrow_triple _ fun s hs => hs.readable) fun index => ?_
        refine Triple.bind (Q := fun _ => LiveIn .none) (update_triple ?_) fun _ => ?_
        · exact fun s hs => hs.2.update (f := fun a => { a with activeToolIndex := index })
            fun a => ⟨rfl, rfl, rfl, rfl, rfl⟩
        refine Triple.bind (orThrow_triple _ fun s hs => hs.readable) fun id => ?_
        refine Triple.bind (orThrow_triple _ fun s hs => hs.2.readable) fun name => ?_
        exact Triple.pure fun s hs => ⟨rfl, nofun, hs.2.2⟩

/-- Afterwards a block of this kind is open, and no other. -/
theorem openBlock_triple (kind : BlockKind) (toolDelta : Option Json) :
    Triple Live (openBlock out kind toolDelta) (fun _ => LiveIn kind) Left := by
  refine Triple.bind_get fun s hs => ?_
  refine Triple.ite (fun hsame => Triple.pure ?_) fun _ => ?_
  · rintro t rfl
    exact ⟨hs, hsame.1⟩
  refine Triple.bind ((closeBlock_triple s.adapter.nextBlockIndex).pre ?_) fun _ => ?_
  · rintro t rfl
    exact ⟨hs, rfl⟩
  refine Triple.bind ((contentBlock_triple kind toolDelta).pre fun s hs => hs.1) fun block => ?_
  refine Triple.bind_get fun s hs => ?_
  obtain ⟨rfl, hkind, hlive⟩ := hs
  have hreads := hlive.reads_between.openBlock block
  refine Triple.bind (Q := fun _ t => t.events = s.events ∧ t.adapter.started = true ∧
    t.adapter.completed = false ∧ t.adapter.nextBlockIndex = s.adapter.nextBlockIndex + 1 ∧
    t.adapter.block = block.kind) (update_triple ?_) fun _ => ?_
  · rintro t rfl
    exact ⟨rfl, hlive.1.started, hlive.1.completed, rfl, rfl⟩
  refine emitEvent_triple _ (fun t ht => ⟨_, ht.1 ▸ hlive.reads_between⟩)
    (fun t ht => ⟨_, ht.1 ▸ hreads⟩) ?_
  rintro t wires ⟨hevents, hstarted, hcompleted, hindex, hblock⟩
  have hpos : 0 < t.adapter.nextBlockIndex := hindex ▸ Nat.succ_pos _
  refine ⟨⟨hstarted, hcompleted, fun _ => hpos, fun _ => hpos, ?_⟩, hblock⟩
  rw [AnthropicSseAdapter.phase, if_neg (hblock.trans_ne hkind)]
  dsimp only
  rw [hindex, hblock, hevents]
  exact hreads

/-! ## Chunks -/

theorem nameMessage_triple (chunk : Json) :
    Triple Fresh (nameMessage chunk) (fun _ => Fresh) Left := by
  refine Triple.bind (orThrow_triple _ fun s hs => hs.readable) fun id => ?_
  refine Triple.bind (Q := fun _ => Fresh) (update_triple ?_) fun _ => Triple.bind_get fun s hs => ?_
  · exact fun s hs => hs.2.update (f := fun a => { a with messageId := messageIdFromOpenai id })
      fun a => ⟨rfl, rfl, rfl, rfl, rfl⟩
  refine Triple.ite (fun _ => ?_) fun _ => Triple.pure ?_
  · refine Triple.bind (orThrow_triple _ ?_) fun model => update_triple ?_
    · rintro t rfl
      exact hs.readable
    · rintro t ⟨-, rfl⟩
      exact hs.update (f := fun a => { a with requestedModel := model })
        fun a => ⟨rfl, rfl, rfl, rfl, rfl⟩
  · rintro t rfl
    exact hs

/-- The message starts before anything else is sent. -/
theorem ensureStarted_triple (chunk : Option Json) :
    Triple (fun s => Fresh s ∨ Live s) (ensureStarted out chunk) (fun _ => Live) Left := by
  refine Triple.bind_get fun s hs => ?_
  refine Triple.ite (fun hstarted => Triple.pure ?_) fun hstarted => ?_
  · rintro t rfl
    refine hs.resolve_left fun hfresh => ?_
    rw [hfresh.started] at hstarted
    cases hstarted
  have hfresh : Fresh s := hs.resolve_right fun hlive => hstarted hlive.started
  refine Triple.bind (Q := fun _ => Fresh) ?_ fun _ => ?_
  · cases chunk with
    | none =>
        refine Triple.pure ?_
        rintro t rfl
        exact hfresh
    | some chunk =>
        refine (nameMessage_triple chunk).pre ?_
        rintro t rfl
        exact hfresh
  refine Triple.bind (Q := fun _ t => t.adapter.started = true ∧ t.adapter.completed = false ∧
    t.adapter.emittedAnyBlock = false ∧ t.adapter.block = .none ∧ t.adapter.nextBlockIndex = 0 ∧
    t.events = []) (update_triple ?_) fun _ => Triple.bind_get fun t ht => ?_
  · exact fun t ht => ⟨rfl, ht.completed, ht.emitted, ht.block, ht.index, ht.events⟩
  obtain ⟨hstarted, hcompleted, hemitted, hblock, hindex, hevents⟩ := ht
  refine emitEvent_triple _ ?_ ?_ ?_
  · rintro u rfl
    exact ⟨.idle, hevents ▸ .idle⟩
  · rintro u rfl
    refine ⟨.between 0, ?_⟩
    dsimp only
    rw [hevents]
    exact .start .idle
  · rintro u wires rfl
    refine ⟨hstarted, hcompleted, fun h => ?_, fun h => absurd hblock h, ?_⟩
    · dsimp only at h
      rw [hemitted] at h
      cases h
    · rw [AnthropicSseAdapter.phase, if_pos hblock]
      dsimp only
      rw [hindex, hevents]
      exact .start .idle

theorem processUsage_triple (chunk : Json) :
    Triple Live (processUsage chunk) (fun _ => Live) Left := by
  unfold processUsage
  split
  case h_2 => exact Triple.pure fun s hs => hs
  case h_1 =>
    refine Triple.bind_get fun s hs => ?_
    refine Triple.bind (orThrow_triple _ ?_) fun inputTokens => ?_
    · rintro t rfl
      exact hs.readable
    refine Triple.bind (Q := fun _ => Live) (update_triple ?_) fun _ => ?_
    · rintro t ⟨-, rfl⟩
      exact hs.update (f := fun a => { a with inputTokens := inputTokens })
        fun a => ⟨rfl, rfl, rfl, rfl, rfl⟩
    refine Triple.bind (orThrow_triple _ fun s hs => hs.readable) fun outputTokens => ?_
    exact update_triple fun s hs =>
      hs.2.update (f := fun a => { a with outputTokens := outputTokens })
        fun a => ⟨rfl, rfl, rfl, rfl, rfl⟩

theorem processReasoning_triple (delta : Json) :
    Triple Live (processReasoning out delta) (fun _ => Live) Left := by
  unfold processReasoning
  split
  case h_2 => exact Triple.pure fun s hs => hs
  case h_1 value _ =>
    refine Triple.ite (fun _ => Triple.pure fun s hs => hs) fun _ => ?_
    refine Triple.bind (openBlock_triple .thinking none) fun _ => ?_
    refine Triple.bind (Q := fun _ => LiveIn .thinking) (update_triple ?_) fun _ => ?_
    · exact fun s hs => hs.update (f := fun a => { a with reasoning := a.reasoning ++ value })
        fun a => ⟨rfl, rfl, rfl, rfl, rfl⟩
    exact (emitDelta_triple (.thinking value) nofun).post fun _ s hs => hs.1

theorem processContent_triple (delta : Json) :
    Triple Live (processContent out delta) (fun _ => Live) Left := by
  unfold processContent
  split
  case h_2 => exact Triple.pure fun s hs => hs
  case h_1 value _ =>
    refine Triple.ite (fun _ => Triple.pure fun s hs => hs) fun _ => ?_
    refine Triple.bind (openBlock_triple .text none) fun _ => ?_
    exact (emitDelta_triple (.text value) nofun).post fun _ s hs => hs.1

/-- A tool call goes on in its own block, or opens one. -/
theorem toolBlock_triple (toolDelta : Json) :
    Triple Live (toolBlock out toolDelta) (fun _ => LiveIn .tool) Left := by
  refine Triple.bind (orThrow_triple _ fun s hs => hs.readable) fun index => ?_
  refine Triple.bind_get fun s hs => ?_
  refine Triple.ite (fun _ => (openBlock_triple .tool (some toolDelta)).pre ?_) fun hsame =>
    Triple.pure ?_
  · rintro t rfl
    exact hs.2
  · rintro t rfl
    exact ⟨hs.2, not_not.mp (not_or.mp hsame).1⟩

/-- A tool call is sent into a block of its own. -/
theorem processTool_triple (toolDelta : Json) :
    Triple Live (processTool out toolDelta) (fun _ => Live) Left := by
  refine Triple.ite (fun _ => ?_) fun _ => Triple.pure fun s hs => hs
  refine Triple.bind (toolBlock_triple toolDelta) fun _ => ?_
  split
  case h_2 => exact Triple.pure fun s hs => hs.1
  case h_1 arguments _ =>
    refine Triple.ite (fun _ => Triple.pure fun s hs => hs.1) fun _ => ?_
    exact (emitDelta_triple (.inputJson arguments) nofun).post fun _ s hs => hs.1

theorem processTools_triple (delta : Json) :
    Triple Live (processTools out delta) (fun _ => Live) Left := by
  unfold processTools
  split
  case h_2 => exact Triple.pure fun s hs => hs
  case h_1 => exact Triple.forM _ fun toolDelta _ => processTool_triple toolDelta

/-- The reason to stop is noted, and ends the block. -/
theorem processFinish_triple (choice : Json) :
    Triple Live (processFinish out choice) (fun _ => Live) Left := by
  unfold processFinish
  split
  case h_1 reason _ =>
    refine Triple.bind (Q := fun _ => Live) (update_triple ?_) fun _ => ?_
    · exact fun s hs => hs.update (f := fun a => { a with finishReason := reason })
        fun a => ⟨rfl, rfl, rfl, rfl, rfl⟩
    · refine Triple.ghost (fun s => s.adapter.nextBlockIndex) fun n => ?_
      exact ((closeBlock_triple n).pre fun s hs => hs.symm).post fun _ s hs => hs.1.1
  case h_2 => exact Triple.pure fun s hs => hs
  case h_3 => exact fail_triple _ fun s hs => hs.readable
  case h_4 => exact Triple.pure fun s hs => hs

theorem processChoice_triple (choice : Json) :
    Triple Live (processChoice out choice) (fun _ => Live) Left := by
  refine Triple.ite (fun _ => ?_) fun _ => Triple.pure fun s hs => hs
  refine Triple.bind (orThrow_triple _ fun s hs => hs.readable) fun delta => ?_
  refine Triple.bind ((processReasoning_triple delta).pre fun s hs => hs.2) fun _ => ?_
  refine Triple.bind (processContent_triple delta) fun _ => ?_
  refine Triple.bind (processTools_triple delta) fun _ => ?_
  exact processFinish_triple choice

/-- An error ends the stream. -/
theorem processError_triple (error : Json) :
    Triple (fun s => Fresh s ∨ Live s) (processError out error) (fun _ => Session.Inv) Left := by
  have hreads : ∀ s, Fresh s ∨ Live s → ∃ phase, Reads phase s.events ∧ phase ≠ .done ∧
      phase ≠ .failed := by
    rintro s (hs | hs)
    · exact ⟨.idle, hs.events ▸ .idle, nofun, nofun⟩
    · refine ⟨_, hs.reads, ?_, ?_⟩ <;>
        · unfold AnthropicSseAdapter.phase
          split <;> nofun
  have hreadable : ∀ s, Fresh s ∨ Live s → Readable s := fun s hs => by
    obtain ⟨phase, h, -⟩ := hreads s hs
    exact ⟨phase, h⟩
  have herror : ∀ message s, Fresh s ∨ Live s →
      Readable { s with events := s.events ++ [.error message "api_error"] } :=
    fun message s hs => by
      obtain ⟨phase, h, hdone, hfailed⟩ := hreads s hs
      exact ⟨_, h.error hdone hfailed⟩
  refine Triple.bind (orThrow_triple _ hreadable) fun message => ?_
  refine Triple.bind (Q := fun _ => Readable) (Triple.tryCatch (F := Left) ?_ fun exit => ?_)
    fun _ => update_triple fun s hs => .inr (.inr ⟨rfl, hs⟩)
  · exact emitEvent_triple _ (fun s hs => hreadable s hs.2) (fun s hs => herror message s hs.2)
      fun s _ hs => herror message s hs.2
  · cases exit with
    | threw what => exact Triple.throw fun s hs => hs
    | refused =>
        exact Triple.bind (Q := fun _ => Readable) (update_triple fun s hs => hs) fun _ =>
          Triple.throw fun s hs => hs

theorem processJson_triple (chunk : Json) :
    Triple Session.Inv (processJson out chunk) (fun _ => Session.Inv) Left := by
  refine Triple.bind_get fun s hs => ?_
  refine Triple.ite (fun _ => Triple.pure ?_) fun hcompleted => ?_
  · rintro t rfl
    exact hs
  have hopen : Fresh s ∨ Live s := by
    rcases hs with hs | hs | hs
    · exact .inl hs
    · exact .inr hs
    · exact absurd hs.1 hcompleted
  split
  case h_1 error _ =>
    refine (processError_triple error).pre ?_
    rintro t rfl
    exact hopen
  case h_2 =>
    refine Triple.bind ((ensureStarted_triple (some chunk)).pre ?_) fun _ => ?_
    · rintro t rfl
      exact hopen
    refine Triple.bind (processUsage_triple chunk) fun _ => ?_
    split
    case h_1 choice _ _ =>
      exact (processChoice_triple choice).post fun _ s hs => .inr (.inl hs)
    case h_2 => exact Triple.pure fun s hs => .inr (.inl hs)

/-! ## The end of a message -/

/-- No block is open, and there was one. -/
def Sealed (s : Session) : Prop := LiveIn .none s ∧ 0 < s.adapter.nextBlockIndex

/-- A message without a block gets an empty text. -/
theorem ensureBlock_triple :
    Triple (LiveIn .none) (ensureBlock out) (fun _ => Sealed) Left := by
  refine Triple.bind_get fun s hs => ?_
  refine Triple.ite (fun hemitted => Triple.pure ?_) fun _ => ?_
  · rintro t rfl
    exact ⟨hs, hs.1.emitted hemitted⟩
  refine Triple.bind ((openBlock_triple .text none).pre ?_) fun _ => ?_
  · rintro t rfl
    exact hs.1
  refine Triple.ghost (fun s => s.adapter.nextBlockIndex) fun n => ?_
  by_cases hn : 0 < n
  · refine ((closeBlock_triple n).pre fun s hs => ⟨hs.2.1, hs.1⟩).post fun _ s hs => ?_
    exact ⟨hs.1, hs.2 ▸ hn⟩
  · rintro s ⟨rfl, hs⟩
    exact absurd (hs.1.block (hs.2.trans_ne nofun)) hn

/-- The message ends once. -/
theorem completeMessage_triple :
    Triple Session.Inv (completeMessage out) (fun _ => Session.Inv) Left := by
  refine Triple.bind_get fun s hs => ?_
  refine Triple.ite (fun _ => Triple.pure ?_) fun hcompleted => ?_
  · rintro t rfl
    exact hs
  refine Triple.bind ((ensureStarted_triple none).pre ?_) fun _ => ?_
  · rintro t rfl
    rcases hs with hs | hs | hs
    · exact .inl hs
    · exact .inr hs
    · exact absurd hs.1 hcompleted
  refine Triple.bind (Q := fun _ => LiveIn .none) ?_ fun _ => ?_
  · refine Triple.ghost (fun s => s.adapter.nextBlockIndex) fun n => ?_
    exact ((closeBlock_triple n).pre fun s hs => hs.symm).post fun _ s hs => hs.1
  refine Triple.bind ensureBlock_triple fun _ => Triple.bind_get fun s hs => ?_
  have hbetween := hs.1.reads_between
  rw [← Nat.sub_add_cancel hs.2] at hbetween
  refine Triple.bind (Q := fun _ t => Reads .ended t.events) ?_ fun _ => ?_
  · refine emitEvent_triple _ ?_ ?_ ?_
    · rintro t rfl
      exact ⟨_, hbetween⟩
    · rintro t rfl
      exact ⟨_, hbetween.messageDelta⟩
    · rintro t wires rfl
      exact hbetween.messageDelta
  refine Triple.bind (Q := fun _ t => Reads .done t.events) ?_ fun _ => update_triple ?_
  · exact emitEvent_triple _ (fun t ht => ⟨_, ht⟩) (fun t ht => ⟨_, ht.messageStop⟩)
      fun t wires ht => ht.messageStop
  · exact fun t ht => .inr (.inr ⟨rfl, _, ht⟩)

/-! ## The calls -/

/-- What is pending is not the reader's business. -/
theorem Session.Inv.pending (h : s.Inv) (bytes : Bytes) :
    Session.Inv { s with adapter := { s.adapter with pending := bytes } } := by
  have hkeeps : Keeps fun a => { a with pending := bytes } := fun a => ⟨rfl, rfl, rfl, rfl, rfl⟩
  rcases h with h | h | h
  · exact .inl (h.update hkeeps)
  · exact .inr (.inl (h.update hkeeps))
  · exact .inr (.inr h)

theorem processEvent_triple (event : Bytes) :
    Triple Session.Inv (processEvent out event) (fun _ => Session.Inv) Left := by
  refine Triple.ite (fun _ => Triple.pure fun s hs => hs) fun _ => ?_
  refine Triple.ite (fun _ => completeMessage_triple) fun _ => ?_
  refine Triple.tryCatch (F := Left) ?_ fun exit => ?_
  · refine Triple.bind (orThrow_triple _ fun s hs => hs.readable) fun chunk => ?_
    exact (processJson_triple chunk).pre fun s hs => hs.2
  · cases exit with
    | refused => exact Triple.throw fun s hs => hs
    | threw what => exact fail_triple _ fun s hs => hs

theorem feed_triple (data : Bytes) :
    Triple Session.Inv (feed out data) (fun _ => Session.Inv) Left := by
  refine Triple.bind_get fun s hs => ?_
  refine Triple.ite (fun _ => Triple.pure ?_) fun _ => ?_
  · rintro t rfl
    exact hs
  refine Triple.bind (Q := fun _ => Session.Inv) (update_triple ?_) fun _ => Triple.forM _ ?_
  · rintro t rfl
    exact hs.pending _
  · rintro ⟨event, rest⟩ -
    refine Triple.bind (Q := fun _ => Session.Inv) (update_triple ?_) fun _ => ?_
    · exact fun s hs => hs.pending rest
    · exact processEvent_triple event

theorem finish_triple : Triple Session.Inv (finish out) (fun _ => Session.Inv) Left := by
  refine Triple.bind (Q := fun _ => Session.Inv) ?_ fun _ => completeMessage_triple
  refine Triple.bind_get fun s hs => ?_
  refine Triple.ite (fun _ => Triple.pure ?_) fun _ => ?_
  · rintro t rfl
    exact hs
  refine Triple.bind (Q := fun _ => Session.Inv) (update_triple ?_) fun _ => processEvent_triple _
  rintro t rfl
  exact hs.pending []

/-- Every call of the adapter keeps it. -/
theorem call_triple (c : Call) : Triple Session.Inv (call out c) (fun _ => Session.Inv) Left := by
  cases c with
  | feed data => exact feed_triple data
  | finish => exact finish_triple

/-- **Every stream is grammatical.**  Whatever bytes come, however they are cut
into calls of `feed`, wherever `finish` is called, and whenever the callback
refuses an event: what was emitted up to the first call that returns `false` or
throws is the beginning of a message, or such a beginning and one error. -/
theorem eventStream (out : Outside) (requestedModel : String) (inputTokens : BitVec 64)
    (calls : List Call) :
    Grammatical ((stream out calls).exec
      ⟨{ requestedModel := requestedModel, inputTokens := inputTokens }, "", [], []⟩).2.events := by
  have hstream : Triple Session.Inv (stream out calls) (fun _ => Session.Inv) Left :=
    Triple.forM calls fun c _ => call_triple c
  have hinit : Session.Inv
      ⟨{ requestedModel := requestedModel, inputTokens := inputTokens }, "", [], []⟩ :=
    .inl ⟨rfl, rfl, rfl, rfl, rfl, rfl⟩
  have h := hstream _ hinit
  revert h
  cases (stream out calls).exec _ with
  | mk r t =>
      cases r with
      | ok =>
          intro h
          obtain ⟨phase, hreads⟩ := h.readable
          exact hreads.grammatical
      | error exit =>
          intro h
          obtain ⟨phase, hreads⟩ := h
          exact hreads.grammatical

end Qw3.Anthropic
