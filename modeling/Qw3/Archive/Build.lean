import Mathlib.Data.List.Sort
import Mathlib.Data.List.Infix
import Mathlib.Tactic.Common
import Qw3.Lib.Machine

/-!
# Building an archive, and crashes

`run_kvmem_archive_build` ingests a corpus turn by turn: it persists what is sealable, writes
the state of the ladder, appends the turn's tokens and commits the manifest.  The process can
die between any two of its steps, and while it writes a bitmap or tokens; the next one resumes
at `resume_position` or finds the archive sealed.

A build that resumes compares its corpus with the tokens below the resume point, restores the
state there, and discards the tokens past it.  Only then it looks at its prefill window: a build
in semantic chunks is one cold request, so it throws where there is something to resume, with the
tokens already discarded.

What the engine computes is not here.  A turn may end anywhere below the target and mark any of
the sealable chunks and blocks, whatever the window, so the runs of the source are among those of
`machine`.

* `resumePosition`, `attach`, `ladderAtOrBelow` — the source's (`kvmem_archive.cpp`).
* `attachArchive` — the checks of `kvmem_attach_archive`, which restores an archive.
* `machine` — the builds of one corpus and their crashes, over what is on disk.
* `State.Sound`, `State.Resumable` — the invariants.
* `resume_durable` — **everything below the resume point is durable**, with its state.
* `resume_accepted` — **an interrupted build can be resumed**: its tokens are those of the
  corpus up to the resume point, and it goes on from there unless its window refuses.
* `sealed_complete` — **a sealed archive is complete**, is attached, and stays as it is.
-/

namespace Qw3.Archive.Build

/-- The strides of `KvMemArchiveLayout`.  The engine rounds a chunk of raw keys up to whole
blocks. -/
structure Layout where
  blockTokens : ℕ
  rawChunkTokens : ℕ
  block_pos : 0 < blockTokens
  chunk_pos : 0 < rawChunkTokens
  block_dvd : blockTokens ∣ rawChunkTokens

/-- `chunk_valid` and `block_valid`: one of a bitmap's bytes, if it has it. -/
def marked (bitmap : List Bool) (i : ℕ) : Bool := bitmap[i]?.getD false

/-- `(p + n - 1) / n`; a corpus has fewer than `2 ^ 32` chunks and blocks. -/
def strides (n p : ℕ) : ℕ := (p + n - 1) / n

/-- The loops of `kvmem_archive_persist_through`: those of the first `n` that the tier holds
are marked. -/
def markThrough (bitmap : List Bool) (n : ℕ) (held : List ℕ) : List Bool :=
  (List.range (max bitmap.length n)).map fun i =>
    marked bitmap i || (decide (i < n) && held.contains i)

/-- The chunks and the blocks below a position are valid. -/
def covers (l : Layout) (chunkValid blockValid : List Bool) (p : ℕ) : Bool :=
  (List.range (strides l.rawChunkTokens p)).all (marked chunkValid) &&
    (List.range (strides l.blockTokens p)).all (marked blockValid)

/-- `resume_position`. -/
def resumePosition (l : Layout) (ladder : List ℕ) (chunkValid blockValid : List Bool) : ℕ :=
  ladder.foldl (fun best p =>
    if p ≠ 0 ∧ covers l chunkValid blockValid p = true ∧ best < p then p else best) 0

/-- `KvMemArchiveManifest`. -/
structure Manifest where
  ladder : List ℕ
  totalTokens : ℕ
  sealed : Bool

/-- The directory of an archive: its manifest, the bitmaps, the whole tokens of `tokens.bin` and
the positions with a state file.  Of the arenas it has what was ever written. -/
structure Disk (Token : Type) where
  manifest : Option Manifest := none
  chunkValid : List Bool := []
  blockValid : List Bool := []
  tokens : List Token := []
  states : List ℕ := []
  rawChunks : List ℕ := []
  valueBlocks : List ℕ := []

/-- `attach`, of a manifest that can be read. -/
def attach {Token : Type} (d : Disk Token) : Except String Unit :=
  match d.manifest with
  | none => .error "KVMem archive manifest not found"
  | some m =>
      if m.sealed = false then .error "KVMem archive is not sealed and cannot be attached"
      else if d.tokens.length < m.totalTokens then
        .error "KVMem archive token stream is shorter than its manifest claims"
      else .ok ()

/-- `ladder_at_or_below`. -/
def ladderAtOrBelow (ladder : List ℕ) (position : ℕ) : Option ℕ :=
  ladder.foldl (fun best p => if p ≤ position then some p else best) none

/-- `PrefillWindow`. -/
inductive PrefillWindow where
  | pressure
  | semanticChunk
  deriving DecidableEq

/-- `KvMemArchiveBuildConfig`, with the target that comes of it, and what it meets: the context
size of the engine and the selection budget of its store. -/
structure Config where
  prefillWindow : PrefillWindow
  target : ℕ
  ctxSize : ℕ
  selectBudgetTokens : ℕ

/-- Where `run_kvmem_archive_build` is.  A turn ends at `next`, and `position` of it is
sealable; a manifest is one that is about to be committed. -/
inductive Phase where
  | opened
  | ready
  | persisted (next position : ℕ)
  | captured (next position : ℕ)
  | saving (m : Manifest)
  | savedChunks (m : Manifest)
  | savedBlocks (m : Manifest)

/-- A build: its `KvMemArchive`, `target` and `pos`. -/
structure Builder where
  ladder : List ℕ
  chunkValid : List Bool
  blockValid : List Bool
  tokenCount : ℕ
  target : ℕ
  pos : ℕ
  phase : Phase

/-- What is on disk, and the build that runs. -/
structure State (Token : Type) where
  disk : Disk Token
  builder : Option Builder

/-- The steps of a build.  A write of `k` values that is not all of them goes on, or the
process dies. -/
inductive Action where
  | openForBuild
  | resume (c : Config)
  | persist (next position : ℕ) (chunks blocks : List ℕ)
  | capture
  | append (k : ℕ)
  | saveChunks (k : ℕ)
  | saveBlocks (k : ℕ)
  | commit
  | sealArchive
  | crash

section Steps

variable {Token : Type} [DecidableEq Token] (l : Layout) (corpus : List Token)

/-- `open_for_build`. -/
def openForBuild (d : Disk Token) : Option (State Token) :=
  match d.manifest with
  | none => some ⟨{ d with manifest := some ⟨[], 0, false⟩ },
      some ⟨[], [], [], d.tokens.length, 0, 0, .opened⟩⟩
  | some m =>
      if m.sealed = true then none
      else some ⟨d, some ⟨m.ladder, d.chunkValid, d.blockValid, d.tokens.length, 0, 0, .opened⟩⟩

/-- `kvmem_attach_archive`: the position that is restored, of the manifest that was loaded; none
where a check throws, or the state has no file. -/
def attachArchive (d : Disk Token) (b : Builder) (ctxSize tokens : ℕ) : Option ℕ :=
  let total := (d.manifest.map Manifest.totalTokens).getD 0
  let tokens := if tokens = 0 ∨ total < tokens then total else tokens
  if ctxSize < tokens then none
  else
    let position := (ladderAtOrBelow b.ladder tokens).getD 0
    if covers l b.chunkValid b.blockValid position = true ∧ (position = 0 ∨ position ∈ d.states) then
      some position
    else none

/-- The build throws once it knows where it starts: semantic chunks are a single cold request, of
a history before its last chunk and of positions that fit `uint32_t`. -/
def Config.Refused (c : Config) (start : ℕ) : Prop :=
  c.prefillWindow = .semanticChunk ∧
    (start ≠ 0 ∨ c.selectBudgetTokens < c.target ∧ (4294967296 ≤ c.target ∨ c.target ≤ l.rawChunkTokens))

instance (c : Config) (start : ℕ) : Decidable (c.Refused l start) :=
  inferInstanceAs (Decidable (_ ∧ _))

/-- `start`: its tokens are compared with the corpus, its state is restored, and the tokens past it
are discarded, also where the build is refused after that. -/
def resume (d : Disk Token) (b : Builder) (c : Config) : Option (State Token) :=
  let start := resumePosition l b.ladder b.chunkValid b.blockValid
  if 0 < c.target ∧ c.target ≤ corpus.length ∧ l.rawChunkTokens ∣ c.target ∧ start ≤ c.target ∧
      start ≤ b.tokenCount ∧ d.tokens.take start = corpus.take start ∧
      (start ≠ 0 → (attachArchive l d b c.ctxSize start).isSome = true) then
    some ⟨{ d with tokens := d.tokens.take start },
      if c.Refused l start then none
      else some { b with tokenCount := start, target := c.target, pos := start, phase := .ready }⟩
  else none

/-- A turn and `kvmem_archive_persist_through`: the arenas hold more, and what the tier holds of
the sealable tokens is marked. -/
def persist (d : Disk Token) (b : Builder) (next position : ℕ) (chunks blocks : List ℕ) :
    Option (State Token) :=
  if b.pos < next ∧ next ≤ b.target ∧ position ≤ next ∧ l.rawChunkTokens ∣ position then
    some ⟨{ d with rawChunks := chunks ++ d.rawChunks, valueBlocks := blocks ++ d.valueBlocks },
      some { b with
        chunkValid := markThrough b.chunkValid (strides l.rawChunkTokens position) chunks
        blockValid := markThrough b.blockValid (strides l.blockTokens position) blocks
        phase := .persisted next position }⟩
  else none

/-- `write_state`, which renames a complete file. -/
def capture (d : Disk Token) (b : Builder) (next position : ℕ) : State Token :=
  ⟨{ d with states := position :: d.states }, some { b with
    ladder := if b.ladder.contains position then b.ladder
      else (b.ladder ++ [position]).insertionSort (· ≤ ·)
    phase := .captured next position }⟩

/-- `append_tokens` at the end of the tokens. -/
def append (d : Disk Token) (b : Builder) (next position k : ℕ) : State Token :=
  let turn := (corpus.drop b.pos).take (next - b.pos)
  ⟨{ d with tokens := d.tokens.take b.tokenCount ++ turn.take k },
    some (if k < turn.length then b
      else { b with
        tokenCount := b.tokenCount + turn.length
        pos := next
        phase := .saving ⟨b.ladder, position, false⟩ })⟩

/-- `seal`: the checks of what it needs. -/
def sealArchive (d : Disk Token) (b : Builder) : Option (State Token) :=
  if b.target ≤ b.pos ∧ b.target ≤ b.tokenCount ∧
      covers l b.chunkValid b.blockValid b.target = true then
    some ⟨d, some { b with phase := .saving ⟨b.ladder, b.target, true⟩ }⟩
  else none

/-- `write_bitmaps`, the chunks. -/
def saveChunks (d : Disk Token) (b : Builder) (m : Manifest) (k : ℕ) : State Token :=
  ⟨{ d with chunkValid := b.chunkValid.take k },
    some (if k < b.chunkValid.length then b else { b with phase := .savedChunks m })⟩

/-- `write_bitmaps`, the blocks. -/
def saveBlocks (d : Disk Token) (b : Builder) (m : Manifest) (k : ℕ) : State Token :=
  ⟨{ d with blockValid := b.blockValid.take k },
    some (if k < b.blockValid.length then b else { b with phase := .savedBlocks m })⟩

/-- `write_manifest`, which renames a complete file; the build ends when it has sealed. -/
def commit (d : Disk Token) (b : Builder) (m : Manifest) : State Token :=
  ⟨{ d with manifest := some m }, if m.sealed = true then none else some { b with phase := .ready }⟩

/-- One step; `none` where the build is not there, or throws. -/
def step (s : State Token) (a : Action) : Option (State Token) :=
  match s.builder, a with
  | none, .openForBuild => openForBuild s.disk
  | some _, .crash => some ⟨s.disk, none⟩
  | some b, a =>
      match b.phase, a with
      | .opened, .resume c => resume l corpus s.disk b c
      | .ready, .persist next position chunks blocks => persist l s.disk b next position chunks blocks
      | .ready, .sealArchive => sealArchive l s.disk b
      | .persisted next position, .capture => some (capture s.disk b next position)
      | .captured next position, .append k => some (append corpus s.disk b next position k)
      | .saving m, .saveChunks k => some (saveChunks s.disk b m k)
      | .savedChunks m, .saveBlocks k => some (saveBlocks s.disk b m k)
      | .savedBlocks m, .commit => some (commit s.disk b m)
      | _, _ => none
  | none, _ => none

/-- The builds of a corpus, from an empty directory on. -/
def machine : Machine (State Token) Action where
  init s := s = ⟨{}, none⟩
  step := step l corpus

/-- What is marked by a step is all that is sealable. -/
def Complete : Action → Bool
  | .persist _ position chunks blocks =>
      (List.range (strides l.rawChunkTokens position)).all chunks.contains &&
        (List.range (strides l.blockTokens position)).all blocks.contains
  | _ => true

/-- The builds whose tiers hold all that is sealable when it is persisted. -/
def completeMachine : Machine (State Token) Action :=
  (machine l corpus).restrict fun _ a => Complete l a = true

end Steps

/-! ## Bitmaps and the resume point -/

variable {bitmap : List Bool}

theorem marked_lt {i : ℕ} (h : marked bitmap i = true) : i < bitmap.length := by
  by_contra hi
  rw [marked, List.getElem?_eq_none (by omega)] at h
  cases h

/-- What is held below the limit gets its bit, and no bit is lost. -/
theorem marked_markThrough {n : ℕ} {held : List ℕ} {i : ℕ} :
    marked (markThrough bitmap n held) i = true ↔ marked bitmap i = true ∨ i < n ∧ i ∈ held := by
  unfold markThrough
  by_cases hi : i < max bitmap.length n
  · rw [marked, List.getElem?_map, List.getElem?_range hi]
    simp
  · have hlt : ¬ marked bitmap i = true := fun h => hi ((marked_lt h).trans_le (Nat.le_max_left _ _))
    have hn : ¬ i < n := fun h => hi (h.trans_le (Nat.le_max_right _ _))
    rw [marked, List.getElem?_map, List.getElem?_eq_none (by simpa using hi)]
    simp [hlt, hn]

theorem marked_take {k i : ℕ} (h : marked (bitmap.take k) i = true) :
    marked bitmap i = true := by
  have hlt := marked_lt h
  rw [List.length_take] at hlt
  rwa [marked, List.getElem?_take_of_lt (by omega)] at h

theorem covers_iff {l : Layout} {chunkValid blockValid : List Bool} {p : ℕ} :
    covers l chunkValid blockValid p = true ↔
      (∀ i < strides l.rawChunkTokens p, marked chunkValid i = true) ∧
        ∀ i < strides l.blockTokens p, marked blockValid i = true := by
  simp [covers]

/-- More bits cover no less. -/
theorem covers_mono {l : Layout} {c c' b b' : List Bool} {p : ℕ}
    (hc : ∀ i, marked c i = true → marked c' i = true) (hb : ∀ i, marked b i = true → marked b' i = true)
    (h : covers l c b p = true) : covers l c' b' p = true := by
  rw [covers_iff] at h ⊢
  exact ⟨fun i hi => hc i (h.1 i hi), fun i hi => hb i (h.2 i hi)⟩

/-- The loop of `resume_position`. -/
theorem foldl_resume (l : Layout) (c b : List Bool) (ladder : List ℕ) (best : ℕ) :
    let r := ladder.foldl (fun best p => if p ≠ 0 ∧ covers l c b p = true ∧ best < p then p else best) best
    best ≤ r ∧ (r = best ∨ r ∈ ladder ∧ covers l c b r = true) ∧
      ∀ p ∈ ladder, p ≠ 0 → covers l c b p = true → p ≤ r := by
  induction ladder generalizing best with
  | nil => exact ⟨le_rfl, .inl rfl, fun p hp => nomatch hp⟩
  | cons q ladder ih =>
      rw [List.foldl_cons]
      by_cases hq : q ≠ 0 ∧ covers l c b q = true ∧ best < q
      · rw [if_pos hq]
        obtain ⟨hle, hfound, hmax⟩ := ih q
        refine ⟨by have := hq.2.2; omega, ?_, ?_⟩
        · obtain heq | ⟨hmem, hcov⟩ := hfound
          · rw [heq]
            exact .inr ⟨List.mem_cons_self, hq.2.1⟩
          · exact .inr ⟨List.mem_cons_of_mem _ hmem, hcov⟩
        · intro p hp h0 hcov
          obtain rfl | hp := List.mem_cons.mp hp
          · exact hle
          · exact hmax p hp h0 hcov
      · rw [if_neg hq]
        obtain ⟨hle, hfound, hmax⟩ := ih best
        refine ⟨hle, hfound.imp_right fun h => ⟨List.mem_cons_of_mem _ h.1, h.2⟩, ?_⟩
        intro p hp h0 hcov
        obtain rfl | hp := List.mem_cons.mp hp
        · exact le_trans (Nat.le_of_not_lt fun hlt => hq ⟨h0, hcov, hlt⟩) hle
        · exact hmax p hp h0 hcov

/-- The resume point is a position of the ladder that is covered, or the beginning. -/
theorem resumePosition_found (l : Layout) (ladder : List ℕ) (c b : List Bool) :
    resumePosition l ladder c b = 0 ∨
      resumePosition l ladder c b ∈ ladder ∧ covers l c b (resumePosition l ladder c b) = true :=
  (foldl_resume l c b ladder 0).2.1

/-- No covered position of the ladder is past the resume point. -/
theorem le_resumePosition {l : Layout} {ladder : List ℕ} {c b : List Bool} {p : ℕ} (hp : p ∈ ladder)
    (h0 : p ≠ 0) (h : covers l c b p = true) : p ≤ resumePosition l ladder c b :=
  (foldl_resume l c b ladder 0).2.2 p hp h0 h

/-! ## The steps -/

section Runs

variable {Token : Type} {l : Layout} {corpus : List Token}

/-- What a step can do. -/
inductive Moves [DecidableEq Token] (l : Layout) (corpus : List Token) : State Token → Action → State Token → Prop where
  | openForBuild {d t} : openForBuild d = some t → Moves l corpus ⟨d, none⟩ .openForBuild t
  | crash {d b} : Moves l corpus ⟨d, some b⟩ .crash ⟨d, none⟩
  | resume {d b c t} : b.phase = .opened → resume l corpus d b c = some t →
      Moves l corpus ⟨d, some b⟩ (.resume c) t
  | persist {d b next position chunks blocks t} : b.phase = .ready →
      persist l d b next position chunks blocks = some t →
      Moves l corpus ⟨d, some b⟩ (.persist next position chunks blocks) t
  | sealArchive {d b t} : b.phase = .ready → sealArchive l d b = some t →
      Moves l corpus ⟨d, some b⟩ .sealArchive t
  | capture {d b next position} : b.phase = .persisted next position →
      Moves l corpus ⟨d, some b⟩ .capture (capture d b next position)
  | append {d b next position k} : b.phase = .captured next position →
      Moves l corpus ⟨d, some b⟩ (.append k) (append corpus d b next position k)
  | saveChunks {d b m k} : b.phase = .saving m →
      Moves l corpus ⟨d, some b⟩ (.saveChunks k) (saveChunks d b m k)
  | saveBlocks {d b m k} : b.phase = .savedChunks m →
      Moves l corpus ⟨d, some b⟩ (.saveBlocks k) (saveBlocks d b m k)
  | commit {d b m} : b.phase = .savedBlocks m → Moves l corpus ⟨d, some b⟩ .commit (commit d b m)

/-- What an action can do, one case for each. -/
theorem step_moves [DecidableEq Token] {s t : State Token} {a : Action} (h : step l corpus s a = some t) :
    Moves l corpus s a t := by
  obtain ⟨d, builder⟩ := s
  cases builder with
  | none =>
      cases a with
      | openForBuild => exact .openForBuild h
      | _ => cases h
  | some b =>
      cases a with
      | crash =>
          cases h
          exact .crash
      | openForBuild => cases hb : b.phase <;> simp [step, hb] at h
      | resume c =>
          cases hb : b.phase <;> simp only [step, hb, reduceCtorEq] at h
          exact .resume hb h
      | persist next position chunks blocks =>
          cases hb : b.phase <;> simp only [step, hb, reduceCtorEq] at h
          exact .persist hb h
      | sealArchive =>
          cases hb : b.phase <;> simp only [step, hb, reduceCtorEq] at h
          exact .sealArchive hb h
      | capture =>
          cases hb : b.phase <;> simp only [step, hb, reduceCtorEq, Option.some.injEq] at h
          subst h
          exact .capture hb
      | append k =>
          cases hb : b.phase <;> simp only [step, hb, reduceCtorEq, Option.some.injEq] at h
          subst h
          exact .append hb
      | saveChunks k =>
          cases hb : b.phase <;> simp only [step, hb, reduceCtorEq, Option.some.injEq] at h
          subst h
          exact .saveChunks hb
      | saveBlocks k =>
          cases hb : b.phase <;> simp only [step, hb, reduceCtorEq, Option.some.injEq] at h
          subst h
          exact .saveBlocks hb
      | commit =>
          cases hb : b.phase <;> simp only [step, hb, reduceCtorEq, Option.some.injEq] at h
          subst h
          exact .commit hb

/-! ## What is on disk is sound -/

/-- The manifest that is about to be committed. -/
def Phase.manifest? : Phase → Option Manifest
  | .saving m | .savedChunks m | .savedBlocks m => some m
  | _ => none

/-- The end of the turn that is persisted, and its sealable position. -/
def Phase.turn? : Phase → Option (ℕ × ℕ)
  | .persisted next position | .captured next position => some (next, position)
  | _ => none

/-- What can be read of the directory is there: a position of the ladder has its state, and what
is marked is in the arenas; a manifest is sealed over what is covered. -/
structure Disk.Sound (l : Layout) (corpus : List Token) (d : Disk Token) : Prop where
  tokens : d.tokens <+: corpus
  states : ∀ m, d.manifest = some m → ∀ p ∈ m.ladder, p ∈ d.states
  chunks : ∀ i, marked d.chunkValid i = true → i ∈ d.rawChunks
  blocks : ∀ i, marked d.blockValid i = true → i ∈ d.valueBlocks
  complete : ∀ m, d.manifest = some m → m.sealed = true →
    m.totalTokens ≤ d.tokens.length ∧ covers l d.chunkValid d.blockValid m.totalTokens = true

/-- The same of what a build has in memory, and how far it is. -/
structure Builder.Sound (l : Layout) (corpus : List Token) (d : Disk Token) (b : Builder) : Prop where
  unsealed : ∀ m, d.manifest = some m → m.sealed = false
  states : ∀ p ∈ b.ladder, p ∈ d.states
  chunks : ∀ i, marked b.chunkValid i = true → i ∈ d.rawChunks
  blocks : ∀ i, marked b.blockValid i = true → i ∈ d.valueBlocks
  stored : b.tokenCount ≤ d.tokens.length
  count : b.phase ≠ .opened → b.tokenCount = b.pos ∧ b.target ≤ corpus.length
  turn : ∀ next position, b.phase.turn? = some (next, position) → b.pos ≤ next ∧ next ≤ b.target
  pending : ∀ m, b.phase.manifest? = some m → (∀ p ∈ m.ladder, p ∈ d.states) ∧
    (m.sealed = true → m.totalTokens ≤ b.tokenCount ∧
      covers l b.chunkValid b.blockValid m.totalTokens = true)
  savedChunks : ∀ m, b.phase = .savedChunks m ∨ b.phase = .savedBlocks m → d.chunkValid = b.chunkValid
  savedBlocks : ∀ m, b.phase = .savedBlocks m → d.blockValid = b.blockValid

structure State.Sound (l : Layout) (corpus : List Token) (s : State Token) : Prop where
  disk : s.disk.Sound l corpus
  builder : ∀ b, s.builder = some b → b.Sound l corpus s.disk

variable {d : Disk Token} {b : Builder} {m : Manifest}

theorem take_eq_corpus {tokens : List Token} {n : ℕ} (h : tokens <+: corpus) (hn : n ≤ tokens.length) :
    tokens.take n = corpus.take n := by
  obtain ⟨rest, rfl⟩ := h
  exact (List.take_append_of_le_length hn).symm

/-- Tokens of the corpus that are appended where the corpus goes on. -/
theorem append_turn {tokens : List Token} {n j k : ℕ} (h : tokens <+: corpus) (hn : n ≤ tokens.length) :
    tokens.take n ++ ((corpus.drop n).take j).take k <+: corpus := by
  rw [take_eq_corpus h hn, List.take_take, ← List.take_add]
  exact List.take_prefix _ _

variable {t : State Token}

/-- A new builder has the ladder and the bits that are on disk. -/
theorem Disk.Sound.openForBuild (h : d.Sound l corpus)
    (ht : openForBuild d = some t) : t.Sound l corpus := by
  unfold Build.openForBuild at ht
  split at ht
  · cases ht
    refine ⟨⟨h.tokens, ?_, h.chunks, h.blocks, ?_⟩, ?_⟩
    · rintro _ ⟨⟩ p ⟨⟩
    · rintro _ ⟨⟩ ⟨⟩
    · rintro _ ⟨⟩
      refine ⟨?_, ?_, ?_, ?_, le_rfl, fun hne => absurd rfl hne, ?_, ?_, ?_, ?_⟩
      · rintro _ ⟨⟩
        rfl
      · rintro p ⟨⟩
      · intro i hi
        simp [marked] at hi
      · intro i hi
        simp [marked] at hi
      all_goals simp [Phase.turn?, Phase.manifest?]
  · rename_i m hm
    split_ifs at ht with hsealed
    cases ht
    refine ⟨h, ?_⟩
    rintro _ ⟨⟩
    refine ⟨?_, h.states m hm, h.chunks, h.blocks, le_rfl,
      fun hne => absurd rfl hne, ?_, ?_, ?_, ?_⟩
    · intro m' hm'
      rw [hm] at hm'
      cases hm'
      exact Bool.not_eq_true _ ▸ hsealed
    all_goals simp [Phase.turn?, Phase.manifest?]

/-- A resume discards the tokens past its position. -/
theorem State.Sound.resume [DecidableEq Token] (h : State.Sound l corpus ⟨d, some b⟩)
    {c : Config} (ht : resume l corpus d b c = some t) : t.Sound l corpus := by
  have hb := h.builder b rfl
  unfold Build.resume at ht
  simp only [Option.ite_none_right_eq_some, Option.some.injEq] at ht
  obtain ⟨⟨-, htarget, -, -, hle, -⟩, rfl⟩ := ht
  refine ⟨⟨(List.take_prefix _ _).trans h.disk.tokens, h.disk.states, h.disk.chunks, h.disk.blocks, ?_⟩, ?_⟩
  · intro m hm hsealed
    rw [hb.unsealed m hm] at hsealed
    cases hsealed
  · dsimp only
    split_ifs
    · nofun
    rintro _ ⟨⟩
    refine ⟨hb.unsealed, hb.states, hb.chunks, hb.blocks, ?_,
      fun _ => ⟨rfl, htarget⟩, ?_, ?_, ?_, ?_⟩
    · have hstored : b.tokenCount ≤ d.tokens.length := hb.stored
      simp only [List.length_take]
      omega
    all_goals simp [Phase.turn?, Phase.manifest?]

variable {next position : ℕ}

/-- Bits are set for what the tiers hold. -/
theorem State.Sound.persist (h : State.Sound l corpus ⟨d, some b⟩)
    (hphase : b.phase = .ready) {chunks blocks : List ℕ}
    (ht : persist l d b next position chunks blocks = some t) : t.Sound l corpus := by
  have hb := h.builder b rfl
  unfold Build.persist at ht
  split_ifs at ht with hok
  cases ht
  refine ⟨⟨h.disk.tokens, h.disk.states, fun i hi => List.mem_append_right _ (h.disk.chunks i hi),
    fun i hi => List.mem_append_right _ (h.disk.blocks i hi), h.disk.complete⟩, ?_⟩
  rintro _ ⟨⟩
  have hcount := hb.count (by simp [hphase])
  refine ⟨hb.unsealed, hb.states, ?_, ?_, hb.stored, fun _ => hcount, ?_, ?_, ?_, ?_⟩
  · intro i hi
    obtain hi | ⟨-, hi⟩ := marked_markThrough.mp hi
    · exact List.mem_append_right _ (hb.chunks i hi)
    · exact List.mem_append_left _ hi
  · intro i hi
    obtain hi | ⟨-, hi⟩ := marked_markThrough.mp hi
    · exact List.mem_append_right _ (hb.blocks i hi)
    · exact List.mem_append_left _ hi
  · rintro _ _ ⟨⟩
    exact ⟨hok.1.le, hok.2.1⟩
  all_goals simp [Phase.manifest?]

/-- The checks of a seal write nothing. -/
theorem State.Sound.sealArchive (h : State.Sound l corpus ⟨d, some b⟩)
    (hphase : b.phase = .ready) (ht : sealArchive l d b = some t) : t.Sound l corpus := by
  have hb := h.builder b rfl
  unfold Build.sealArchive at ht
  split_ifs at ht with hok
  cases ht
  refine ⟨h.disk, ?_⟩
  rintro _ ⟨⟩
  refine ⟨hb.unsealed, hb.states, hb.chunks, hb.blocks, hb.stored,
    fun _ => hb.count (by simp [hphase]), nofun, ?_, ?_, ?_⟩
  · rintro _ ⟨⟩
    exact ⟨hb.states, fun _ => ⟨hok.2.1, hok.2.2⟩⟩
  all_goals simp

theorem mem_captured {ladder : List ℕ} {position p : ℕ}
    (h : p ∈ if ladder.contains position then ladder else (ladder ++ [position]).insertionSort (· ≤ ·)) :
    p ∈ ladder ∨ p = position := by
  split_ifs at h
  · exact .inl h
  · simpa [List.mem_insertionSort] using h

/-- A state is on disk before the ladder has it. -/
theorem State.Sound.capture (h : State.Sound l corpus ⟨d, some b⟩)
    (hphase : b.phase = .persisted next position) :
    (capture d b next position).Sound l corpus := by
  have hb := h.builder b rfl
  refine ⟨⟨h.disk.tokens, fun m hm p hp => List.mem_cons_of_mem _ (h.disk.states m hm p hp),
    h.disk.chunks, h.disk.blocks, h.disk.complete⟩, ?_⟩
  rintro _ ⟨⟩
  refine ⟨hb.unsealed, ?_, hb.chunks, hb.blocks, hb.stored,
    fun _ => hb.count (by simp [hphase]), ?_, ?_, ?_, ?_⟩
  · intro p hp
    obtain hp | rfl := mem_captured hp
    · exact List.mem_cons_of_mem _ (hb.states p hp)
    · exact List.mem_cons_self
  · rintro _ _ ⟨⟩
    exact hb.turn next position (by rw [hphase]; rfl)
  all_goals simp [Phase.manifest?]

/-- The tokens of a turn follow those of the corpus. -/
theorem State.Sound.append (h : State.Sound l corpus ⟨d, some b⟩)
    (hphase : b.phase = .captured next position) (k : ℕ) :
    (append corpus d b next position k).Sound l corpus := by
  have hb := h.builder b rfl
  obtain ⟨hcount, htarget⟩ := hb.count (by simp [hphase])
  obtain ⟨hpos, hnext⟩ := hb.turn next position (by rw [hphase]; rfl)
  have hstored : b.tokenCount ≤ d.tokens.length := hb.stored
  refine ⟨⟨?_, h.disk.states, h.disk.chunks, h.disk.blocks, ?_⟩, ?_⟩
  · show d.tokens.take b.tokenCount ++ ((corpus.drop b.pos).take (next - b.pos)).take k <+: corpus
    rw [← hcount]
    exact append_turn h.disk.tokens hstored
  · intro m hm hsealed
    rw [hb.unsealed m hm] at hsealed
    cases hsealed
  · intro b' hb'
    simp only [Build.append, Option.some.injEq] at hb'
    subst hb'
    have hlen : ((corpus.drop b.pos).take (next - b.pos)).length = next - b.pos := by
      simp only [List.length_take, List.length_drop]
      omega
    split_ifs with hk
    · refine ⟨hb.unsealed, hb.states, hb.chunks, hb.blocks, ?_, hb.count, hb.turn, hb.pending,
        hb.savedChunks, hb.savedBlocks⟩
      simp only [Build.append, List.length_append, List.length_take]
      omega
    · refine ⟨hb.unsealed, hb.states, hb.chunks, hb.blocks, ?_, fun _ => ?_,
        nofun, ?_, ?_, ?_⟩
      · simp only [Build.append, List.length_append, List.length_take, List.length_drop] at hk ⊢
        omega
      · refine ⟨?_, htarget⟩
        show b.tokenCount + _ = next
        rw [hlen]
        omega
      · rintro _ ⟨⟩
        exact ⟨hb.states, nofun⟩
      all_goals simp

/-- A part of the chunk bits may reach the disk. -/
theorem State.Sound.saveChunks (h : State.Sound l corpus ⟨d, some b⟩)
    (hphase : b.phase = .saving m) (k : ℕ) : (saveChunks d b m k).Sound l corpus := by
  have hb := h.builder b rfl
  refine ⟨⟨h.disk.tokens, h.disk.states, fun i hi => hb.chunks i (marked_take hi), h.disk.blocks, ?_⟩, ?_⟩
  · intro m' hm hsealed
    rw [hb.unsealed m' hm] at hsealed
    cases hsealed
  · intro b' hb'
    simp only [Build.saveChunks, Option.some.injEq] at hb'
    subst hb'
    split_ifs with hk
    · refine ⟨hb.unsealed, hb.states, hb.chunks, hb.blocks, hb.stored, hb.count, hb.turn,
        hb.pending, ?_, ?_⟩
      all_goals simp [hphase]
    · refine ⟨hb.unsealed, hb.states, hb.chunks, hb.blocks, hb.stored,
        fun _ => hb.count (by simp [hphase]), nofun, ?_, ?_, nofun⟩
      · rintro _ ⟨⟩
        exact hb.pending m (by rw [hphase]; rfl)
      · intro _ _
        exact List.take_of_length_le (Nat.le_of_not_lt hk)

/-- A part of the block bits may reach the disk. -/
theorem State.Sound.saveBlocks (h : State.Sound l corpus ⟨d, some b⟩)
    (hphase : b.phase = .savedChunks m) (k : ℕ) : (saveBlocks d b m k).Sound l corpus := by
  have hb := h.builder b rfl
  refine ⟨⟨h.disk.tokens, h.disk.states, h.disk.chunks, fun i hi => hb.blocks i (marked_take hi), ?_⟩, ?_⟩
  · intro m' hm hsealed
    rw [hb.unsealed m' hm] at hsealed
    cases hsealed
  · intro b' hb'
    simp only [Build.saveBlocks, Option.some.injEq] at hb'
    subst hb'
    split_ifs with hk
    · refine ⟨hb.unsealed, hb.states, hb.chunks, hb.blocks, hb.stored, hb.count, hb.turn,
        hb.pending, hb.savedChunks, ?_⟩
      simp [hphase]
    · refine ⟨hb.unsealed, hb.states, hb.chunks, hb.blocks, hb.stored,
        fun _ => hb.count (by simp [hphase]), nofun, ?_, ?_, ?_⟩
      · rintro _ ⟨⟩
        exact hb.pending m (by rw [hphase]; rfl)
      · intro _ _
        exact hb.savedChunks m (.inl hphase)
      · intro _ _
        exact List.take_of_length_le (Nat.le_of_not_lt hk)

/-- The manifest is replaced as a whole. -/
theorem State.Sound.commit (h : State.Sound l corpus ⟨d, some b⟩)
    (hphase : b.phase = .savedBlocks m) : (commit d b m).Sound l corpus := by
  have hb := h.builder b rfl
  obtain ⟨hstates, hsealed⟩ := hb.pending m (by rw [hphase]; rfl)
  refine ⟨⟨h.disk.tokens, ?_, h.disk.chunks, h.disk.blocks, ?_⟩, ?_⟩
  · rintro _ ⟨⟩
    exact hstates
  · rintro _ ⟨⟩ hm
    obtain ⟨hle, hcov⟩ := hsealed hm
    refine ⟨hle.trans hb.stored, ?_⟩
    show covers l d.chunkValid d.blockValid m.totalTokens = true
    rw [hb.savedChunks m (.inr hphase), hb.savedBlocks m hphase]
    exact hcov
  · intro b' hb'
    simp only [Build.commit] at hb'
    split_ifs at hb' with hm
    cases hb'
    refine ⟨?_, hb.states, hb.chunks, hb.blocks, hb.stored,
      fun _ => hb.count (by simp [hphase]), nofun, nofun, ?_, ?_⟩
    · rintro _ ⟨⟩
      exact Bool.not_eq_true _ ▸ hm
    all_goals simp

theorem State.Sound.step [DecidableEq Token] {s t : State Token} {a : Action} (h : s.Sound l corpus)
    (hst : step l corpus s a = some t) : t.Sound l corpus := by
  cases step_moves hst with
  | openForBuild ht => exact h.disk.openForBuild ht
  | crash => exact ⟨h.disk, nofun⟩
  | resume _ ht => exact h.resume ht
  | persist hphase ht => exact h.persist hphase ht
  | sealArchive hphase ht => exact h.sealArchive hphase ht
  | capture hphase => exact h.capture hphase
  | append hphase => exact h.append hphase _
  | saveChunks hphase => exact h.saveChunks hphase _
  | saveBlocks hphase => exact h.saveBlocks hphase _
  | commit hphase => exact h.commit hphase

theorem machine_invariant [DecidableEq Token] : (machine l corpus).Invariant (State.Sound l corpus) where
  init s hs := by
    subst hs
    refine ⟨⟨List.nil_prefix, nofun, ?_, ?_, nofun⟩, nofun⟩
    · intro i hi
      simp [marked] at hi
    · intro i hi
      simp [marked] at hi
  step _ _ _ hs h := hs.step h

theorem one_dvd_two : 1 ∣ 2 := ⟨2, rfl⟩

/-- Chunks of two tokens, which are two blocks. -/
def twoTokenChunks : Layout := ⟨1, 2, Nat.one_pos, Nat.zero_lt_two, one_dvd_two⟩

/-- A build of four tokens that dies in its second turn. -/
def interrupted : List Action :=
  [.openForBuild, .resume ⟨.pressure, 4, 8, 0⟩, .persist 2 2 [0] [0, 1], .capture, .append 1, .append 2, .saveChunks 1,
    .saveBlocks 1, .saveBlocks 2, .commit, .persist 4 4 [0, 1] [0, 1, 2, 3], .capture, .append 1, .crash]

/-- **Everything below the resume point is durable**, whatever build died when: its state has a
file, and its chunks and blocks are in the arenas. -/
theorem resume_durable [DecidableEq Token] {s : State Token} (hs : (machine l corpus).Reachable s)
    {m : Manifest} (hm : s.disk.manifest = some m) :
    let p := resumePosition l m.ladder s.disk.chunkValid s.disk.blockValid
    p = 0 ∨ p ∈ s.disk.states ∧ (∀ i < strides l.rawChunkTokens p, i ∈ s.disk.rawChunks) ∧
      ∀ i < strides l.blockTokens p, i ∈ s.disk.valueBlocks := by
  have hdisk := (machine_invariant.reachable hs).disk
  refine (resumePosition_found l m.ladder s.disk.chunkValid s.disk.blockValid).imp_right ?_
  rintro ⟨hmem, hcov⟩
  obtain ⟨hchunks, hblocks⟩ := covers_iff.mp hcov
  exact ⟨hdisk.states m hm _ hmem, fun i hi => hdisk.chunks i (hchunks i hi),
    fun i hi => hdisk.blocks i (hblocks i hi)⟩

theorem resume_durable_interrupted : ∃ s, (machine twoTokenChunks [7, 8, 9, 10]).Reachable s ∧
    2 ∈ s.disk.states ∧ 0 ∈ s.disk.rawChunks := by
  have hrun : ((machine twoTokenChunks [7, 8, 9, 10]).run ⟨{}, none⟩ interrupted).any (fun s =>
      s.disk.manifest.any fun m =>
        decide (resumePosition twoTokenChunks m.ladder s.disk.chunkValid s.disk.blockValid = 2)) = true := by
    decide +kernel
  obtain ⟨s, hs, h⟩ := Machine.exists_reachable rfl hrun
  obtain ⟨m, hm, h⟩ := (Option.any_eq_true _ _).mp h
  have hdurable := resume_durable hs hm
  rw [of_decide_eq_true h] at hdurable
  obtain h0 | ⟨hstate, hchunks, -⟩ := hdurable
  · cases h0
  · exact ⟨s, hs, hstate, hchunks 0 (by decide)⟩

/-- **A sealed archive is complete**: it can be attached, it has the tokens of the corpus and
their chunks and blocks, and no build changes it. -/
theorem sealed_complete [DecidableEq Token] {s : State Token} (hs : (machine l corpus).Reachable s)
    {m : Manifest} (hm : s.disk.manifest = some m) (hsealed : m.sealed = true) :
    attach s.disk = .ok () ∧ s.disk.tokens.take m.totalTokens = corpus.take m.totalTokens ∧
      (∀ i < strides l.rawChunkTokens m.totalTokens, i ∈ s.disk.rawChunks) ∧
      (∀ i < strides l.blockTokens m.totalTokens, i ∈ s.disk.valueBlocks) ∧
      ∀ as t, (machine l corpus).run s as = some t → t = s := by
  have hsound := machine_invariant.reachable hs
  obtain ⟨hle, hcov⟩ := hsound.disk.complete m hm hsealed
  obtain ⟨hchunks, hblocks⟩ := covers_iff.mp hcov
  refine ⟨?_, take_eq_corpus hsound.disk.tokens hle, fun i hi => hsound.disk.chunks i (hchunks i hi),
    fun i hi => hsound.disk.blocks i (hblocks i hi), ?_⟩
  · simp [attach, hm, hsealed, Nat.not_lt.mpr hle]
  · have hnone : s.builder = none := by
      cases hb : s.builder with
      | none => rfl
      | some b =>
          have hun := (hsound.builder b hb).unsealed m hm
          rw [hsealed] at hun
          cases hun
    intro as t ht
    cases as with
    | nil => exact (Option.some.inj ht).symm
    | cons a as =>
        have hstep : step l corpus s a = none := by
          cases a <;> simp [step, hnone, openForBuild, hm, hsealed]
        rw [Machine.run_cons] at ht
        change (step l corpus s a).bind _ = _ at ht
        rw [hstep] at ht
        cases ht

/-- A build that runs to its end. -/
def built : List Action :=
  [.openForBuild, .resume ⟨.pressure, 4, 8, 0⟩, .persist 4 4 [0, 1] [0, 1, 2, 3], .capture, .append 4, .saveChunks 2,
    .saveBlocks 4, .commit, .sealArchive, .saveChunks 2, .saveBlocks 4, .commit]

theorem sealed_complete_built : ∃ s, (machine twoTokenChunks [7, 8, 9, 10]).Reachable s ∧
    attach s.disk = .ok () ∧ 1 ∈ s.disk.rawChunks := by
  have hrun : ((machine twoTokenChunks [7, 8, 9, 10]).run ⟨{}, none⟩ built).any (fun s =>
      s.disk.manifest.any fun m => m.sealed && decide (m.totalTokens = 4)) = true := by decide +kernel
  obtain ⟨s, hs, h⟩ := Machine.exists_reachable rfl hrun
  obtain ⟨m, hm, h⟩ := (Option.any_eq_true _ _).mp h
  obtain ⟨hsealed, htotal⟩ := (Bool.and_eq_true_iff).mp h
  obtain ⟨hattach, -, hchunks, -⟩ := sealed_complete hs hm hsealed
  rw [of_decide_eq_true htotal] at hchunks
  exact ⟨s, hs, hattach, hchunks 1 (by decide)⟩

/-! ## An interrupted build can be resumed -/

/-- A bitmap without holes. -/
def NoHole (bitmap : List Bool) : Prop :=
  ∀ i j, i ≤ j → marked bitmap j = true → marked bitmap i = true

theorem NoHole.nil : NoHole [] := by
  intro i j _ h
  simp [marked] at h

theorem NoHole.take (h : NoHole bitmap) (k : ℕ) : NoHole (bitmap.take k) := by
  intro i j hij hj
  have hlt := marked_lt hj
  have hi := h i j hij (marked_take hj)
  rw [List.length_take] at hlt
  rwa [marked, List.getElem?_take_of_lt (by omega)]

/-- Where the tiers hold everything, no bit is left out. -/
theorem NoHole.markThrough (h : NoHole bitmap) {n : ℕ} {held : List ℕ}
    (hheld : ∀ i < n, i ∈ held) : NoHole (markThrough bitmap n held) := by
  intro i j hij hj
  rw [marked_markThrough] at hj ⊢
  obtain hj | ⟨hj, -⟩ := hj
  · exact .inl (h i j hij hj)
  · exact .inr ⟨by omega, hheld i (by omega)⟩

theorem strides_lt {n s p : ℕ} (hn : 0 < n) (hdvd : n ∣ s) (h : s < p) : strides n s < strides n p := by
  obtain ⟨q, rfl⟩ := hdvd
  have hs : strides n (n * q) < q + 1 := by
    rw [strides, Nat.div_lt_iff_lt_mul hn, Nat.add_mul, Nat.mul_comm]
    omega
  have hp : q + 1 ≤ strides n p := by
    rw [strides, Nat.le_div_iff_mul_le hn, Nat.add_mul, Nat.mul_comm]
    omega
  omega

/-- Past the position that a bitmap is marked through, what it covers was covered before. -/
theorem NoHole.marked_past (h : NoHole bitmap) {n s p : ℕ} {held : List ℕ}
    (hn : 0 < n) (hdvd : n ∣ s) (hsp : s < p)
    (hall : ∀ i < strides n p, marked (Build.markThrough bitmap (strides n s) held) i = true) :
    ∀ i < strides n p, marked bitmap i = true := by
  intro i hi
  have hlt := strides_lt hn hdvd hsp
  have hlast := hall (strides n p - 1) (by omega)
  rw [marked_markThrough] at hlast
  obtain hlast | ⟨hbelow, -⟩ := hlast
  · exact h i _ (by omega) hlast
  · omega

/-- How far the tokens go that a covered position of the ladder may need. -/
def Builder.limit (b : Builder) : ℕ :=
  match b.phase with
  | .opened => b.tokenCount
  | .persisted next _ | .captured next _ => next
  | _ => b.pos

/-- A build whose bitmaps have no holes; covered positions of its ladder have their tokens, and
so has what is covered on disk, which is less. -/
structure Builder.Resumable (l : Layout) (d : Disk Token) (b : Builder) : Prop where
  begun : d.manifest ≠ none
  chunks : NoHole b.chunkValid
  blocks : NoHole b.blockValid
  chunk_kept : ∀ i, marked d.chunkValid i = true → marked b.chunkValid i = true
  block_kept : ∀ i, marked d.blockValid i = true → marked b.blockValid i = true
  ladder_kept : ∀ m, d.manifest = some m → ∀ p ∈ m.ladder, p ∈ b.ladder
  bound : ∀ p ∈ b.ladder, p ≠ 0 → covers l b.chunkValid b.blockValid p = true → p ≤ b.limit
  committed : b.phase ≠ .opened → ∀ m, d.manifest = some m → ∀ p ∈ m.ladder, p ≠ 0 →
    covers l d.chunkValid d.blockValid p = true → p ≤ b.pos
  pending : ∀ m, b.phase.manifest? = some m → ∀ p ∈ m.ladder, p ∈ b.ladder
  sealable : ∀ next position, b.phase.turn? = some (next, position) → position ≤ next

structure State.Resumable (l : Layout) (s : State Token) : Prop where
  unbuilt : s.disk.manifest = none → s.disk.chunkValid = [] ∧ s.disk.blockValid = []
  chunks : NoHole s.disk.chunkValid
  blocks : NoHole s.disk.blockValid
  stored : ∀ m, s.disk.manifest = some m → ∀ p ∈ m.ladder, p ≠ 0 →
    covers l s.disk.chunkValid s.disk.blockValid p = true → p ≤ s.disk.tokens.length
  builder : ∀ b, s.builder = some b → b.Resumable l s.disk

/-- What a build that is past its start has to say about the disk. -/
theorem Builder.Resumable.state (h : b.Resumable l d)
    (hsound : State.Sound l corpus ⟨d, some b⟩) (hphase : b.phase ≠ .opened)
    (hchunks : NoHole d.chunkValid) (hblocks : NoHole d.blockValid) :
    State.Resumable l ⟨d, some b⟩ := by
  have hb := hsound.builder b rfl
  refine ⟨fun hm => absurd hm h.begun, hchunks, hblocks, ?_, ?_⟩
  · intro m hm p hp h0 hcov
    calc p ≤ b.pos := h.committed hphase m hm p hp h0 hcov
      _ = b.tokenCount := (hb.count hphase).1.symm
      _ ≤ d.tokens.length := hb.stored
  · rintro _ ⟨⟩
    exact h

/-- A build is opened with the tokens of every covered position. -/
theorem State.Resumable.openForBuild (h : State.Resumable l ⟨d, none⟩)
    (ht : openForBuild d = some t) : t.Resumable l := by
  unfold Build.openForBuild at ht
  split at ht
  · rename_i hm
    cases ht
    obtain ⟨hc, hb⟩ := h.unbuilt hm
    refine ⟨nofun, h.chunks, h.blocks, ?_, ?_⟩
    · rintro _ ⟨⟩ p ⟨⟩
    · rintro _ ⟨⟩
      refine ⟨nofun, .nil, .nil, ?_, ?_, ?_, nofun, fun hne => absurd rfl hne, nofun, nofun⟩
      · intro i hi
        rwa [show d.chunkValid = [] from hc] at hi
      · intro i hi
        rwa [show d.blockValid = [] from hb] at hi
      · rintro _ ⟨⟩ p ⟨⟩
  · rename_i m hm
    split_ifs at ht
    cases ht
    refine ⟨h.unbuilt, h.chunks, h.blocks, h.stored, ?_⟩
    rintro _ ⟨⟩
    have hbegun : d.manifest ≠ none := by simp [hm]
    refine ⟨hbegun, h.chunks, h.blocks, fun _ hi => hi, fun _ hi => hi, ?_, h.stored m hm,
      fun hne => absurd rfl hne, nofun, nofun⟩
    intro m' hm' p hp
    rw [hm] at hm'
    cases hm'
    exact hp

theorem State.Resumable.resume [DecidableEq Token] {c : Config}
    (h : State.Resumable l ⟨d, some b⟩) (hbefore : State.Sound l corpus ⟨d, some b⟩)
    (hsound : t.Sound l corpus) (ht : resume l corpus d b c = some t) : t.Resumable l := by
  have hb := h.builder b rfl
  have hstored : b.tokenCount ≤ d.tokens.length := (hbefore.builder b rfl).stored
  have hbelow : ∀ m, d.manifest = some m → ∀ p ∈ m.ladder, p ≠ 0 →
      covers l d.chunkValid d.blockValid p = true → p ≤ resumePosition l b.ladder b.chunkValid b.blockValid :=
    fun m hm p hp h0 hcov =>
      le_resumePosition (hb.ladder_kept m hm p hp) h0 (covers_mono hb.chunk_kept hb.block_kept hcov)
  unfold Build.resume at ht
  simp only [Option.ite_none_right_eq_some, Option.some.injEq] at ht
  obtain ⟨⟨-, -, -, -, hle, -⟩, rfl⟩ := ht
  by_cases hrefused : c.Refused l (resumePosition l b.ladder b.chunkValid b.blockValid)
  · -- refused: what is past the resume point is gone all the same
    rw [if_pos hrefused]
    refine ⟨h.unbuilt, h.chunks, h.blocks, ?_, nofun⟩
    intro m hm p hp h0 hcov
    have hp := hbelow m hm p hp h0 hcov
    rw [List.length_take]
    omega
  · rw [if_neg hrefused] at hsound ⊢
    refine Builder.Resumable.state ?_ hsound nofun h.chunks h.blocks
    refine ⟨hb.begun, hb.chunks, hb.blocks, hb.chunk_kept, hb.block_kept, hb.ladder_kept, ?_,
      fun _ => hbelow, nofun, nofun⟩
    intro p hp h0 hcov
    exact le_resumePosition hp h0 hcov

/-- Where the tiers hold everything, the bits have no holes. -/
theorem State.Resumable.persist (h : State.Resumable l ⟨d, some b⟩)
    (hphase : b.phase = .ready) {chunks blocks : List ℕ}
    (hsound : t.Sound l corpus) (hcomplete : Complete l (.persist next position chunks blocks) = true)
    (ht : persist l d b next position chunks blocks = some t) : t.Resumable l := by
  have hb := h.builder b rfl
  simp only [Complete, Bool.and_eq_true, List.all_eq_true, List.mem_range, List.contains_iff_mem] at hcomplete
  obtain ⟨hchunks, hblocks⟩ := hcomplete
  unfold Build.persist at ht
  split_ifs at ht with hok
  obtain ⟨hnext, -, hle, hdvd⟩ := hok
  cases ht
  refine Builder.Resumable.state ?_ hsound nofun h.chunks h.blocks
  refine ⟨hb.begun, hb.chunks.markThrough hchunks, hb.blocks.markThrough hblocks,
    fun i hi => marked_markThrough.mpr (.inl (hb.chunk_kept i hi)),
    fun i hi => marked_markThrough.mpr (.inl (hb.block_kept i hi)), hb.ladder_kept, ?_,
    fun _ => hb.committed (by simp [hphase]), nofun, ?_⟩
  · intro p hp h0 hcov
    show p ≤ next
    by_cases hpast : position < p
    · -- Past what was sealable nothing is covered that was not.
      obtain ⟨hc, hbl⟩ := covers_iff.mp hcov
      have hold : covers l b.chunkValid b.blockValid p = true := covers_iff.mpr
        ⟨hb.chunks.marked_past l.chunk_pos hdvd hpast hc,
          hb.blocks.marked_past l.block_pos (Nat.dvd_trans l.block_dvd hdvd) hpast hbl⟩
      have hbound := hb.bound p hp h0 hold
      simp only [Builder.limit, hphase] at hbound
      omega
    · omega
  · rintro _ _ ⟨⟩
    exact hle

theorem State.Resumable.sealArchive (h : State.Resumable l ⟨d, some b⟩)
    (hphase : b.phase = .ready) (hsound : t.Sound l corpus)
    (ht : sealArchive l d b = some t) : t.Resumable l := by
  have hb := h.builder b rfl
  unfold Build.sealArchive at ht
  split_ifs at ht
  cases ht
  refine Builder.Resumable.state ?_ hsound nofun h.chunks h.blocks
  refine ⟨hb.begun, hb.chunks, hb.blocks, hb.chunk_kept, hb.block_kept, hb.ladder_kept, ?_,
    fun _ => hb.committed (by simp [hphase]), ?_, nofun⟩
  · intro p hp h0 hcov
    simpa [Builder.limit, hphase] using hb.bound p hp h0 hcov
  · rintro _ ⟨⟩ p hp
    exact hp

theorem mem_of_mem_ladder {ladder : List ℕ} {position p : ℕ} (h : p ∈ ladder) :
    p ∈ if ladder.contains position then ladder else (ladder ++ [position]).insertionSort (· ≤ ·) := by
  split_ifs
  · exact h
  · rw [List.mem_insertionSort]
    exact List.mem_append_left _ h

theorem State.Resumable.capture (h : State.Resumable l ⟨d, some b⟩)
    (hphase : b.phase = .persisted next position)
    (hsound : (capture d b next position).Sound l corpus) : (capture d b next position).Resumable l := by
  have hb := h.builder b rfl
  refine Builder.Resumable.state ?_ hsound nofun h.chunks h.blocks
  refine ⟨hb.begun, hb.chunks, hb.blocks, hb.chunk_kept, hb.block_kept,
    fun m hm p hp => mem_of_mem_ladder (hb.ladder_kept m hm p hp), ?_,
    fun _ => hb.committed (by simp [hphase]), nofun, ?_⟩
  · intro p hp h0 hcov
    show p ≤ next
    obtain hp | rfl := mem_captured hp
    · simpa [Builder.limit, hphase] using hb.bound p hp h0 hcov
    · exact hb.sealable next p (by rw [hphase]; rfl)
  · rintro _ _ ⟨⟩
    exact hb.sealable next position (by rw [hphase]; rfl)

/-- The tokens reach the state that was captured. -/
theorem State.Resumable.append (h : State.Resumable l ⟨d, some b⟩)
    (hbefore : State.Sound l corpus ⟨d, some b⟩) {next position k : ℕ}
    (hphase : b.phase = .captured next position)
    (hsound : (append corpus d b next position k).Sound l corpus) :
    (append corpus d b next position k).Resumable l := by
  have hb := h.builder b rfl
  have hturn := (hbefore.builder b rfl).turn next position (by rw [hphase]; rfl)
  unfold Build.append at hsound ⊢
  simp only at hsound ⊢
  split_ifs at hsound ⊢
  · refine Builder.Resumable.state ?_ hsound (by simp [hphase]) h.chunks h.blocks
    exact ⟨hb.begun, hb.chunks, hb.blocks, hb.chunk_kept, hb.block_kept, hb.ladder_kept, hb.bound,
      hb.committed, hb.pending, hb.sealable⟩
  · refine Builder.Resumable.state ?_ hsound nofun h.chunks h.blocks
    refine ⟨hb.begun, hb.chunks, hb.blocks, hb.chunk_kept, hb.block_kept, hb.ladder_kept, ?_, ?_, ?_, nofun⟩
    · intro p hp h0 hcov
      show p ≤ next
      simpa [Builder.limit, hphase] using hb.bound p hp h0 hcov
    · intro _ m hm p hp h0 hcov
      exact (hb.committed (by simp [hphase]) m hm p hp h0 hcov).trans hturn.1
    · rintro _ ⟨⟩ p hp
      exact hp

/-- A bitmap is written, with no more than the build has marked. -/
theorem Builder.Resumable.save (hb : b.Resumable l d)
    (hphase : b.phase = .saving m ∨ b.phase = .savedChunks m) {next : Phase}
    (hnext : next = b.phase ∨ next = .savedChunks m ∨ next = .savedBlocks m)
    {chunkValid blockValid : List Bool}
    (hchunk : ∀ i, marked chunkValid i = true → marked b.chunkValid i = true)
    (hblock : ∀ i, marked blockValid i = true → marked b.blockValid i = true) :
    Builder.Resumable l { d with chunkValid := chunkValid, blockValid := blockValid }
      { b with phase := next } := by
  have hm : b.phase.manifest? = some m := by rcases hphase with h | h <;> rw [h] <;> rfl
  have hlimit : b.limit = b.pos ∧ Builder.limit { b with phase := next } = b.pos := by
    rcases hphase with h | h <;> rcases hnext with rfl | rfl | rfl <;> simp [Builder.limit, h]
  have hphases : next.manifest? = some m ∧ next.turn? = none := by
    rcases hphase with h | h <;> rcases hnext with rfl | rfl | rfl <;>
      simp [Phase.manifest?, Phase.turn?, h]
  refine ⟨hb.begun, hb.chunks, hb.blocks, hchunk, hblock, hb.ladder_kept, ?_, fun _ => ?_, ?_, ?_⟩
  · intro p hp h0 hcov
    rw [hlimit.2, ← hlimit.1]
    exact hb.bound p hp h0 hcov
  · intro m' hm' p hp h0 hcov
    rw [← hlimit.1]
    exact hb.bound p (hb.ladder_kept m' hm' p hp) h0 (covers_mono hchunk hblock hcov)
  · intro m' hm'
    exact hb.pending m' (hm.trans (hphases.1.symm.trans hm'))
  · intro _ _ hturn
    cases hphases.2.symm.trans hturn

theorem State.Resumable.saveChunks (h : State.Resumable l ⟨d, some b⟩)
    {k : ℕ} (hphase : b.phase = .saving m)
    (hsound : (saveChunks d b m k).Sound l corpus) : (saveChunks d b m k).Resumable l := by
  have hb := h.builder b rfl
  unfold Build.saveChunks at hsound ⊢
  split_ifs at hsound ⊢
  · exact (hb.save (.inl hphase) (.inl rfl) (fun _ hi => marked_take hi) hb.block_kept).state hsound
      (by simp [hphase]) (hb.chunks.take k) h.blocks
  · exact (hb.save (.inl hphase) (.inr (.inl rfl)) (fun _ hi => marked_take hi) hb.block_kept).state
      hsound nofun (hb.chunks.take k) h.blocks

theorem State.Resumable.saveBlocks (h : State.Resumable l ⟨d, some b⟩)
    {k : ℕ} (hphase : b.phase = .savedChunks m)
    (hsound : (saveBlocks d b m k).Sound l corpus) : (saveBlocks d b m k).Resumable l := by
  have hb := h.builder b rfl
  unfold Build.saveBlocks at hsound ⊢
  split_ifs at hsound ⊢
  · exact (hb.save (.inr hphase) (.inl rfl) hb.chunk_kept fun _ hi => marked_take hi).state hsound
      (by simp [hphase]) h.chunks (hb.blocks.take k)
  · exact (hb.save (.inr hphase) (.inr (.inr rfl)) hb.chunk_kept fun _ hi => marked_take hi).state
      hsound nofun h.chunks (hb.blocks.take k)

/-- What was saved can be resumed from. -/
theorem State.Resumable.commit (h : State.Resumable l ⟨d, some b⟩)
    (hbefore : State.Sound l corpus ⟨d, some b⟩) (hphase : b.phase = .savedBlocks m)
    (hsound : (commit d b m).Sound l corpus) : (commit d b m).Resumable l := by
  have hb := h.builder b rfl
  have hkept : ∀ p ∈ m.ladder, p ∈ b.ladder := hb.pending m (by rw [hphase]; rfl)
  have hcommitted : ∀ p ∈ m.ladder, p ≠ 0 → covers l d.chunkValid d.blockValid p = true → p ≤ b.pos := by
    intro p hp h0 hcov
    have hcov' := covers_mono hb.chunk_kept hb.block_kept hcov
    simpa [Builder.limit, hphase] using hb.bound p (hkept p hp) h0 hcov'
  unfold Build.commit at hsound ⊢
  split_ifs at hsound ⊢
  · refine ⟨nofun, h.chunks, h.blocks, ?_, nofun⟩
    rintro _ ⟨⟩ p hp h0 hcov
    have hstored : b.tokenCount ≤ d.tokens.length := (hbefore.builder b rfl).stored
    have hcount := ((hbefore.builder b rfl).count (by simp [hphase])).1
    have hpos := hcommitted p hp h0 hcov
    show p ≤ d.tokens.length
    omega
  · refine Builder.Resumable.state ?_ hsound nofun h.chunks h.blocks
    refine ⟨nofun, hb.chunks, hb.blocks, hb.chunk_kept, hb.block_kept, ?_, ?_, ?_, nofun, nofun⟩
    · rintro _ ⟨⟩
      exact hkept
    · intro p hp h0 hcov
      simpa [Builder.limit, hphase] using hb.bound p hp h0 hcov
    · rintro _ _ ⟨⟩
      exact hcommitted

theorem State.Resumable.step [DecidableEq Token] {s t : State Token} {a : Action} (h : s.Resumable l)
    (hsound : s.Sound l corpus) (hcomplete : Complete l a = true) (hst : step l corpus s a = some t) :
    t.Resumable l := by
  have ht := hsound.step hst
  cases step_moves hst with
  | openForBuild hopen => exact h.openForBuild hopen
  | crash => exact ⟨h.unbuilt, h.chunks, h.blocks, h.stored, nofun⟩
  | resume _ hresume => exact h.resume hsound ht hresume
  | persist hphase hpersist => exact h.persist hphase ht hcomplete hpersist
  | sealArchive hphase hseal => exact h.sealArchive hphase ht hseal
  | capture hphase => exact h.capture hphase ht
  | append hphase => exact h.append hsound hphase ht
  | saveChunks hphase => exact h.saveChunks hphase ht
  | saveBlocks hphase => exact h.saveBlocks hphase ht
  | commit hphase => exact h.commit hsound hphase ht

theorem completeMachine_invariant [DecidableEq Token] :
    (completeMachine l corpus).Invariant fun s => s.Sound l corpus ∧ s.Resumable l where
  init s hs := by
    refine ⟨machine_invariant.init s hs, ?_⟩
    obtain rfl : s = ⟨{}, none⟩ := hs
    exact ⟨fun _ => ⟨rfl, rfl⟩, .nil, .nil, nofun, nofun⟩
  step s a t hs h := by
    obtain ⟨hcomplete, hst⟩ := Machine.restrict_step.mp h
    exact ⟨hs.1.step hst, hs.2.step hs.1 hcomplete hst⟩

/-- `ladder_at_or_below` finds a position of the ladder, if one. -/
theorem ladderAtOrBelow_found {ladder : List ℕ} {position p : ℕ} (h : ladderAtOrBelow ladder position = some p) :
    p ∈ ladder ∧ p ≤ position := by
  have hfold : ∀ (l : List ℕ) (best : Option ℕ),
      l.foldl (fun best p => if p ≤ position then some p else best) best = some p →
        best = some p ∨ p ∈ l ∧ p ≤ position := by
    intro l
    induction l with
    | nil => exact fun _ h => .inl h
    | cons q l ih =>
        intro best h
        rw [List.foldl_cons] at h
        rcases ih _ h with hbest | ⟨hmem, hle⟩
        · split_ifs at hbest with hq
          · obtain rfl := Option.some.inj hbest
            exact .inr ⟨List.mem_cons_self, hq⟩
          · exact .inl hbest
        · exact .inr ⟨List.mem_cons_of_mem q hmem, hle⟩
  exact (hfold ladder none h).resolve_left nofun

theorem covers_of_le {c b : List Bool} {p q : ℕ} (hle : p ≤ q) (h : covers l c b q = true) :
    covers l c b p = true := by
  rw [covers_iff] at h ⊢
  have hstrides : ∀ n, strides n p ≤ strides n q := fun n => Nat.div_le_div_right (by omega)
  exact ⟨fun i hi => h.1 i (hi.trans_le (hstrides _)), fun i hi => h.2 i (hi.trans_le (hstrides _))⟩

/-- The checks of the restore hold below a covered position. -/
theorem attachArchive_isSome {ctxSize start : ℕ}
    (hstates : ∀ p ∈ b.ladder, p ∈ d.states) (hpos : start ≠ 0)
    (hcov : covers l b.chunkValid b.blockValid start = true) (hctx : start ≤ ctxSize) :
    (attachArchive l d b ctxSize start).isSome = true := by
  unfold attachArchive
  dsimp only
  generalize (d.manifest.map Manifest.totalTokens).getD 0 = total
  have hle : (if start = 0 ∨ total < start then total else start) ≤ start := by
    split_ifs <;> omega
  generalize (if start = 0 ∨ total < start then total else start) = tokens at hle
  rw [if_neg (by omega)]
  cases hfound : ladderAtOrBelow b.ladder tokens with
  | none =>
      rw [Option.getD_none, if_pos ⟨covers_of_le (Nat.zero_le start) hcov, .inl rfl⟩]
      rfl
  | some p =>
      obtain ⟨hmem, hp⟩ := ladderAtOrBelow_found hfound
      rw [Option.getD_some, if_pos ⟨covers_of_le (hp.trans hle) hcov, .inr (hstates p hmem)⟩]
      rfl

/-- **An interrupted build can be resumed**: where the tiers held what was persisted, the next
build finds the tokens of the corpus up to the resume point, whatever build died when, restores its
state, and goes on from there to any target that is not below it, unless the context is too small
or its window refuses. -/
theorem resume_accepted [DecidableEq Token] {s : State Token} (hs : (completeMachine l corpus).Reachable s)
    {m : Manifest} (hm : s.disk.manifest = some m) (hunsealed : m.sealed = false) {c : Config}
    (hpos : 0 < c.target) (hle : c.target ≤ corpus.length) (hdvd : l.rawChunkTokens ∣ c.target)
    (hstart : resumePosition l m.ladder s.disk.chunkValid s.disk.blockValid ≤ min c.target c.ctxSize)
    (haccepts : ¬ c.Refused l (resumePosition l m.ladder s.disk.chunkValid s.disk.blockValid)) :
    ∃ t b, (machine l corpus).run ⟨s.disk, none⟩ [.openForBuild, .resume c] = some t ∧
      t.disk.tokens = corpus.take (resumePosition l m.ladder s.disk.chunkValid s.disk.blockValid) ∧
      t.builder = some b ∧ b.target = c.target ∧
      b.pos = resumePosition l m.ladder s.disk.chunkValid s.disk.blockValid := by
  obtain ⟨hsound, hresumable⟩ := completeMachine_invariant.reachable hs
  obtain ⟨start, hdef⟩ : ∃ start, start = resumePosition l m.ladder s.disk.chunkValid s.disk.blockValid :=
    ⟨_, rfl⟩
  have hfound := resumePosition_found l m.ladder s.disk.chunkValid s.disk.blockValid
  rw [← hdef] at hstart haccepts hfound ⊢
  have htarget := hstart.trans (Nat.min_le_left _ _)
  have hctx := hstart.trans (Nat.min_le_right _ _)
  have hstored : start ≤ s.disk.tokens.length := by
    by_cases h0 : start = 0
    · omega
    · obtain ⟨hmem, hcov⟩ := hfound.resolve_left h0
      exact hresumable.stored m hm start hmem h0 hcov
  have htake := take_eq_corpus hsound.disk.tokens hstored
  have hattach : start ≠ 0 → (attachArchive l s.disk
      ⟨m.ladder, s.disk.chunkValid, s.disk.blockValid, s.disk.tokens.length, 0, 0, .opened⟩ c.ctxSize
        start).isSome = true :=
    fun h0 => attachArchive_isSome (hsound.disk.states m hm) h0 (hfound.resolve_left h0).2 hctx
  have hopen : step l corpus ⟨s.disk, none⟩ .openForBuild = some ⟨s.disk,
      some ⟨m.ladder, s.disk.chunkValid, s.disk.blockValid, s.disk.tokens.length, 0, 0, .opened⟩⟩ := by
    simp [step, openForBuild, hm, hunsealed]
  have hresume : step l corpus ⟨s.disk,
      some ⟨m.ladder, s.disk.chunkValid, s.disk.blockValid, s.disk.tokens.length, 0, 0, .opened⟩⟩
      (.resume c) = some ⟨{ s.disk with tokens := s.disk.tokens.take start },
        some ⟨m.ladder, s.disk.chunkValid, s.disk.blockValid, start, c.target, start, .ready⟩⟩ := by
    simp only [step, resume, ← hdef]
    rw [if_pos ⟨hpos, hle, hdvd, htarget, hstored, htake, hattach⟩, if_neg haccepts]
  refine ⟨⟨{ s.disk with tokens := s.disk.tokens.take start },
    some ⟨m.ladder, s.disk.chunkValid, s.disk.blockValid, start, c.target, start, .ready⟩⟩, _, ?_, htake,
    rfl, rfl, rfl⟩
  simp only [Machine.run_cons, Machine.run_nil, machine, hopen, hresume, Option.bind_some]

theorem resume_accepted_interrupted : ∃ s, (completeMachine twoTokenChunks [7, 8, 9, 10]).Reachable s ∧
    ∃ t b, (machine twoTokenChunks [7, 8, 9, 10]).run ⟨s.disk, none⟩
        [.openForBuild, .resume ⟨.pressure, 4, 8, 0⟩] = some t ∧
      t.disk.tokens = [7, 8] ∧ t.builder = some b ∧ b.target = 4 ∧ b.pos = 2 := by
  have hrun : ((completeMachine twoTokenChunks [7, 8, 9, 10]).run ⟨{}, none⟩ interrupted).any (fun s =>
      s.disk.manifest.any fun m => !m.sealed &&
        decide (resumePosition twoTokenChunks m.ladder s.disk.chunkValid s.disk.blockValid = 2)) = true := by
    decide +kernel
  obtain ⟨s, hs, h⟩ := Machine.exists_reachable rfl hrun
  obtain ⟨m, hm, h⟩ := (Option.any_eq_true _ _).mp h
  obtain ⟨hunsealed, hstart⟩ := (Bool.and_eq_true_iff).mp h
  have hstart := of_decide_eq_true hstart
  have haccepted := resume_accepted hs hm (Bool.not_eq_true' _ ▸ hunsealed) (c := ⟨.pressure, 4, 8, 0⟩)
    (by decide) (by decide) ⟨2, rfl⟩ (by rw [hstart]; decide) (by rw [hstart]; decide)
  rw [hstart] at haccepted
  exact ⟨s, hs, haccepted⟩

/-- In semantic chunks the same archive is refused, and loses the tokens past the resume point. -/
example : ((machine twoTokenChunks [7, 8, 9, 10]).run ⟨{}, none⟩
    (interrupted ++ [.openForBuild, .resume ⟨.semanticChunk, 4, 8, 0⟩])).any
      (fun s => decide (s.disk.tokens = [7, 8] ∧ s.builder.isNone)) = true := by
  decide +kernel

end Runs

end Qw3.Archive.Build
