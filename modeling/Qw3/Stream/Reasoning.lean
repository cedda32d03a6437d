import Mathlib.Data.List.TakeWhile
import Qw3.Lib.Chunks
import Qw3.Lib.Search
import Qw3.Stream.Bytes

/-!
# The split of reasoning and content

* `splitReasoning`, `ReasoningStreamSplitter` — the source's.
* `Splits` — what holds between pushes: no tag can begin in what was emitted, or
  the first one has been taken out.
* `reasoningSplit` — **the split does not depend on the cuts** and agrees with
  `splitReasoning`, exactly for the texts in which no line end follows the
  closing tag.
-/

namespace Qw3.Stream

open Search Chunks

/-! ## The source's functions -/

/-- `"<think>"`. -/
def openTag : Bytes := "<think>".toUTF8.toList

/-- `"</think>"`. -/
def closeTag : Bytes := "</think>".toUTF8.toList

/-- `utf8_safe_prefix_len`, from a cut on. -/
def utf8SafeCut (text : Bytes) : ℕ → ℕ
  | 0 => 0
  | cut + 1 =>
      if cut + 1 < text.length ∧ (text[cut + 1]?).any utf8Cont then utf8SafeCut text cut
      else cut + 1

/-- `utf8_safe_prefix_len`. -/
def utf8SafePrefixLen (text : Bytes) (desired : ℕ) : ℕ := utf8SafeCut text (min desired text.length)

/-- A line end: `'\n'` or `'\r'`. -/
def isLineEnd (c : UInt8) : Bool := c = 0x0A ∨ c = 0x0D

/-- `ReasoningSplit`. -/
structure ReasoningSplit where
  reasoning : Bytes := []
  content : Bytes := []
  deriving DecidableEq

/-- Without a first `'\n'`. -/
def eraseFront (text : Bytes) : Bytes := if text.head? = some 0x0A then text.tail else text

/-- Without a last `'\n'`. -/
def popBack (text : Bytes) : Bytes := if text.getLast? = some 0x0A then text.dropLast else text

/-- `split_reasoning`. -/
def splitReasoning (text : Bytes) : ReasoningSplit :=
  match find openTag text with
  | none => ⟨[], text⟩
  | some start =>
      let rest := text.drop (start + openTag.length)
      match find closeTag rest with
      | none => ⟨eraseFront rest, []⟩
      | some close =>
          ⟨popBack (eraseFront (rest.take close)),
            (rest.drop (close + closeTag.length)).dropWhile isLineEnd⟩

/-- `StreamPart`. -/
inductive StreamPart where
  | reasoning
  | content
  deriving DecidableEq

/-- `ReasoningStreamSplitter`. -/
structure ReasoningStreamSplitter where
  enabled : Bool
  part : StreamPart
  pending : Bytes := []

namespace ReasoningStreamSplitter

/-- The constructor. -/
def new (enabled : Bool) : ReasoningStreamSplitter :=
  ⟨enabled, if enabled then .reasoning else .content, []⟩

/-- The loop of `push` in the content part: everything goes out. -/
def pushContent (s : ReasoningStreamSplitter) :
    List (StreamPart × Bytes) × ReasoningStreamSplitter :=
  if s.pending = [] then ([], s) else ([(.content, s.pending)], { s with pending := [] })

/-- The loop of `push` in the reasoning part. -/
def pushReasoning (s : ReasoningStreamSplitter) :
    List (StreamPart × Bytes) × ReasoningStreamSplitter :=
  if s.pending = [] then ([], s)
  else
    match find closeTag s.pending with
    | none =>
        let keep := min s.pending.length 7
        let emitLen := utf8SafePrefixLen s.pending (s.pending.length - keep)
        if emitLen > 0 then
          ([(.reasoning, s.pending.take emitLen)], { s with pending := s.pending.drop emitLen })
        else ([], s)
    | some close =>
        let out := if close > 0 then [(.reasoning, s.pending.take close)] else []
        let pending := (s.pending.drop (close + closeTag.length)).dropWhile isLineEnd
        let rest := pushContent { s with pending := pending, part := .content }
        (out ++ rest.1, rest.2)

/-- `push`. -/
def push (s : ReasoningStreamSplitter) (text : Bytes) :
    List (StreamPart × Bytes) × ReasoningStreamSplitter :=
  if ¬ s.enabled then ([(.content, text)], s)
  else
    let s := { s with pending := s.pending ++ text }
    match s.part with
    | .reasoning => pushReasoning s
    | .content => pushContent s

/-- `finish`. -/
def finish (s : ReasoningStreamSplitter) : List (StreamPart × Bytes) × ReasoningStreamSplitter :=
  if s.pending = [] then ([], s) else ([(s.part, s.pending)], { s with pending := [] })

end ReasoningStreamSplitter

/-- What went out in one part. -/
def partText (part : StreamPart) (out : List (StreamPart × Bytes)) : Bytes :=
  out.flatMap fun p => if p.1 = part then p.2 else []

/-- The parts of a text that is pushed in pieces, `finish` included. -/
def streamedParts (pieces : List Bytes) : List (StreamPart × Bytes) :=
  let r := pushAll ReasoningStreamSplitter.push (.new true) pieces
  r.1 ++ r.2.finish.1

/-! ## Cutting the reasoning -/

variable {text more out content piece : Bytes} {i : ℕ} {s : ReasoningStreamSplitter}
  {parts : List (StreamPart × Bytes)} {pieces : List Bytes}

theorem utf8SafeCut_le (text : Bytes) (cut : ℕ) : utf8SafeCut text cut ≤ cut := by
  induction cut with
  | zero => exact le_rfl
  | succ cut ih =>
      rw [utf8SafeCut]
      split_ifs <;> omega

theorem utf8SafePrefixLen_le (text : Bytes) (desired : ℕ) :
    utf8SafePrefixLen text desired ≤ desired :=
  (utf8SafeCut_le text _).trans (min_le_left _ _)

theorem closeTag_length : closeTag.length = 8 := by decide +kernel

theorem closeTag_ne_nil : closeTag ≠ [] := by
  intro h
  have := closeTag_length
  rw [h] at this
  cases this

@[simp] theorem partText_append (part : StreamPart) (a b : List (StreamPart × Bytes)) :
    partText part (a ++ b) = partText part a ++ partText part b := List.flatMap_append

@[simp] theorem partText_nil (part : StreamPart) : partText part [] = [] := rfl

theorem partText_singleton (part other : StreamPart) (bytes : Bytes) :
    partText part [(other, bytes)] = if other = part then bytes else [] := by
  simp [partText]

/-- A tag that stands nowhere in a text begins, with what comes after, among its
last seven bytes. -/
theorem lt_of_closeTag (hnone : find closeTag text = none)
    (hat : OccursAt closeTag (text ++ more) i) : text.length < i + 8 := by
  by_contra hle
  refine find_eq_none_iff.mp hnone i (hat.of_append ?_)
  rw [closeTag_length]
  omega

/-! ## What a push keeps -/

/-- Before the closing tag: no tag stands in the text, and what was emitted of it
lies seven bytes before its end. -/
structure Reasons (text : Bytes) (parts : List (StreamPart × Bytes)) (pending : Bytes) :
    Prop where
  text_eq : partText .reasoning parts ++ pending = text
  content_eq : partText .content parts = []
  none : find closeTag text = .none
  behind : partText .reasoning parts = [] ∨ (partText .reasoning parts).length + 7 ≤ text.length

/-- After it: the text up to the first tag is the reasoning, and the content is
what follows, perhaps without line ends at its front. -/
structure Answers (text : Bytes) (parts : List (StreamPart × Bytes)) : Prop where
  found : find closeTag text = some (partText .reasoning parts).length
  reasoning_eq : partText .reasoning parts =
    text.take (partText .reasoning parts).length
  content_eq : ∃ ends, text.drop ((partText .reasoning parts).length + closeTag.length) =
    ends ++ partText .content parts ∧ ∀ c ∈ ends, isLineEnd c = true

/-- What holds between pushes. -/
structure Splits (pieces : List Bytes) (parts : List (StreamPart × Bytes))
    (s : ReasoningStreamSplitter) : Prop where
  enabled : s.enabled = true
  reasons : s.part = .reasoning → Reasons pieces.flatten parts s.pending
  answers : s.part = .content → Answers pieces.flatten parts ∧ s.pending = []

namespace ReasoningStreamSplitter

theorem pushReasoning_none (hf : find closeTag s.pending = none) :
    ∃ n, (n = 0 ∨ n + 7 ≤ s.pending.length) ∧
      partText .reasoning (pushReasoning s).1 = s.pending.take n ∧
      partText .content (pushReasoning s).1 = [] ∧
      (pushReasoning s).2 = { s with pending := s.pending.drop n } := by
  unfold pushReasoning
  split_ifs with hp
  · exact ⟨0, .inl rfl, rfl, rfl, rfl⟩
  · simp only [hf]
    have hle := utf8SafePrefixLen_le s.pending (s.pending.length - min s.pending.length 7)
    split_ifs with hemit
    · refine ⟨_, .inr ?_, partText_singleton _ _ _, partText_singleton _ _ _, rfl⟩
      omega
    · exact ⟨0, .inl rfl, rfl, rfl, rfl⟩

theorem pushContent_spec (s : ReasoningStreamSplitter) :
    partText .reasoning (pushContent s).1 = [] ∧ partText .content (pushContent s).1 = s.pending ∧
      (pushContent s).2 = { s with pending := [] } := by
  unfold pushContent
  split_ifs with hp
  · refine ⟨rfl, hp.symm, ?_⟩
    rw [← hp]
  · exact ⟨partText_singleton _ _ _, partText_singleton _ _ _, rfl⟩

theorem pushReasoning_some {close : ℕ} (hf : find closeTag s.pending = some close) :
    partText .reasoning (pushReasoning s).1 = s.pending.take close ∧
      partText .content (pushReasoning s).1 =
        (s.pending.drop (close + closeTag.length)).dropWhile isLineEnd ∧
      (pushReasoning s).2 = { s with pending := [], part := .content } := by
  have hp : s.pending ≠ [] := by
    intro hp
    rw [hp] at hf
    have hat := (find_eq_some_iff.mp hf).2.1.le closeTag_ne_nil
    rw [closeTag_length] at hat
    simp at hat
  unfold pushReasoning
  rw [if_neg hp]
  simp only [hf]
  obtain ⟨hreason, hcontent, hstate⟩ := pushContent_spec
    { s with pending := (s.pending.drop (close + closeTag.length)).dropWhile isLineEnd,
             part := .content }
  simp only [partText_append, hreason, hcontent, List.append_nil]
  refine ⟨?_, ?_, hstate⟩
  · split_ifs with hclose
    · exact partText_singleton _ _ _
    · obtain rfl : close = 0 := by omega
      rfl
  · split_ifs
    · rfl
    · rfl

end ReasoningStreamSplitter

/-- Where the tag is found, with the next piece. -/
theorem Reasons.find_push {pending : Bytes} (h : Reasons text parts pending) (piece : Bytes) :
    find closeTag (text ++ piece) = (find closeTag (pending ++ piece)).map
      ((partText .reasoning parts).length + ·) := by
  rw [← h.text_eq, List.append_assoc]
  apply find_append_left
  intro j hj hat
  rw [← List.append_assoc, h.text_eq] at hat
  have hlt := lt_of_closeTag h.none hat
  rcases h.behind with hnil | hbehind
  · rw [hnil] at hj
    exact Nat.not_lt_zero j hj
  · omega

/-- A push before the closing tag. -/
theorem Reasons.push (h : Reasons text parts s.pending) (hs : s.enabled = true)
    (hpart : s.part = .reasoning) (piece : Bytes) :
    (s.push piece).2.enabled = true ∧
      ((s.push piece).2.part = .reasoning →
        Reasons (text ++ piece) (parts ++ (s.push piece).1) (s.push piece).2.pending) ∧
      ((s.push piece).2.part = .content →
        Answers (text ++ piece) (parts ++ (s.push piece).1) ∧ (s.push piece).2.pending = []) := by
  have hpush : s.push piece =
      ReasoningStreamSplitter.pushReasoning { s with pending := s.pending ++ piece } := by
    unfold ReasoningStreamSplitter.push
    rw [if_neg (by simp [hs])]
    simp only [hpart]
  have hfind := h.find_push piece
  rw [hpush]
  cases hf : find closeTag (s.pending ++ piece) with
  | none =>
      obtain ⟨n, hn, hreason, hcontent, hstate⟩ :=
        ReasoningStreamSplitter.pushReasoning_none (s := { s with pending := s.pending ++ piece }) hf
      rw [hstate]
      refine ⟨hs, fun _ => ⟨?_, ?_, ?_, ?_⟩, fun hc => by rw [hpart] at hc; cases hc⟩
      · rw [partText_append, hreason, List.append_assoc, List.take_append_drop, ← h.text_eq,
          List.append_assoc]
      · rw [partText_append, hcontent, h.content_eq]
        rfl
      · rw [hfind, hf]
        rfl
      · rw [partText_append, hreason, ← h.text_eq]
        rcases hn with rfl | hn
        · rw [List.take_zero, List.append_nil]
          refine h.behind.imp_right fun hbehind => ?_
          rw [← h.text_eq] at hbehind
          rw [List.length_append]
          omega
        · right
          simp only [List.length_append, List.length_take] at hn ⊢
          omega
  | some close =>
      obtain ⟨hreason, hcontent, hstate⟩ :=
        ReasoningStreamSplitter.pushReasoning_some (s := { s with pending := s.pending ++ piece }) hf
      have hle : close ≤ (s.pending ++ piece).length := (find_eq_some_iff.mp hf).1
      have hlen : (partText .reasoning parts ++ (s.pending ++ piece).take close).length =
          (partText .reasoning parts).length + close := by
        rw [List.length_append, List.length_take, min_eq_left hle]
      rw [hstate]
      refine ⟨hs, nofun, fun _ => ⟨⟨?_, ?_, ?_⟩, rfl⟩⟩
      · rw [partText_append, hreason, hlen, hfind, hf]
        rfl
      · rw [partText_append, hreason, hlen, ← h.text_eq, List.append_assoc,
          List.take_length_add_append]
      · refine ⟨((s.pending ++ piece).drop (close + closeTag.length)).takeWhile isLineEnd, ?_, ?_⟩
        · rw [partText_append, partText_append, hreason, hcontent, h.content_eq, hlen,
            List.nil_append, List.takeWhile_append_dropWhile, ← h.text_eq, List.append_assoc,
            Nat.add_assoc, List.drop_length_add_append]
        · intro c hc
          exact List.mem_takeWhile_imp hc

/-- A push after the closing tag. -/
theorem Answers.push (h : Answers text parts) (piece : Bytes) :
    Answers (text ++ piece) (parts ++ (ReasoningStreamSplitter.push ⟨true, .content, []⟩ piece).1) ∧
      (ReasoningStreamSplitter.push ⟨true, .content, []⟩ piece).2 = ⟨true, .content, []⟩ := by
  have hpush : ReasoningStreamSplitter.push ⟨true, .content, []⟩ piece =
      ReasoningStreamSplitter.pushContent ⟨true, .content, piece⟩ := rfl
  obtain ⟨hreason, hcontent, hstate⟩ :=
    ReasoningStreamSplitter.pushContent_spec ⟨true, .content, piece⟩
  obtain ⟨hle, hat, hfirst⟩ := find_eq_some_iff.mp h.found
  have hend := hat.le closeTag_ne_nil
  rw [hpush]
  refine ⟨⟨?_, ?_, ?_⟩, hstate⟩
  · rw [partText_append, hreason, List.append_nil, find_eq_some_iff]
    refine ⟨by rw [List.length_append]; omega, hat.append piece, ?_⟩
    intro j hj hat'
    exact hfirst j hj (hat'.of_append (by omega))
  · rw [partText_append, hreason, List.append_nil, List.take_append_of_le_length hle]
    exact h.reasoning_eq
  · obtain ⟨ends, hdrop, hends⟩ := h.content_eq
    refine ⟨ends, ?_, hends⟩
    rw [partText_append, partText_append, hreason, hcontent, List.append_nil,
      List.drop_append_of_le_length hend, hdrop, List.append_assoc]

theorem Splits.push (h : Splits pieces parts s) (piece : Bytes) :
    Splits (pieces ++ [piece]) (parts ++ (s.push piece).1) (s.push piece).2 := by
  have hflat : (pieces ++ [piece]).flatten = pieces.flatten ++ piece := by simp
  cases hpart : s.part with
  | reasoning =>
      obtain ⟨henabled, hreasons, hanswers⟩ := (h.reasons hpart).push h.enabled hpart piece
      rw [← hflat] at hreasons hanswers
      exact ⟨henabled, hreasons, hanswers⟩
  | content =>
      obtain ⟨hans, hpending⟩ := h.answers hpart
      obtain rfl : s = ⟨true, .content, []⟩ := by
        rw [← h.enabled, ← hpart, ← hpending]
      obtain ⟨hans', hstate⟩ := hans.push piece
      rw [hstate]
      refine ⟨rfl, nofun, fun _ => ⟨?_, rfl⟩⟩
      rw [hflat]
      exact hans'

theorem splits_pushAll (pieces : List Bytes) :
    let r := pushAll ReasoningStreamSplitter.push (.new true) pieces
    Splits pieces r.1 r.2 := by
  refine @pushAll_induction _ _ _ _ _ Splits ?_ (fun pieces parts s piece h => h.push piece) pieces
  have hnone : find closeTag [] = none := if_neg closeTag_ne_nil
  exact ⟨rfl, fun _ => ⟨rfl, rfl, hnone, .inl rfl⟩, nofun⟩

/-! ## The parts of a text -/

/-- Without a tag, the text is the reasoning. -/
theorem streamedParts_none (hnone : find closeTag pieces.flatten = none) :
    partText .reasoning (streamedParts pieces) = pieces.flatten ∧
      partText .content (streamedParts pieces) = [] := by
  have h := splits_pushAll pieces
  unfold streamedParts
  generalize pushAll _ _ pieces = r at h ⊢
  cases hpart : r.2.part with
  | reasoning =>
      have hr := h.reasons hpart
      unfold ReasoningStreamSplitter.finish
      dsimp only
      split_ifs with hp
      · rw [List.append_nil, ← hr.text_eq, hp, List.append_nil]
        exact ⟨rfl, hr.content_eq⟩
      · rw [hpart, partText_append, partText_append, hr.content_eq, ← hr.text_eq]
        exact ⟨congrArg _ (partText_singleton _ _ _), partText_singleton _ _ _⟩
  | content =>
      rw [(h.answers hpart).1.found] at hnone
      cases hnone

/-- With a tag, the text before it is the reasoning, and what follows it, perhaps
without line ends at its front, the content. -/
theorem streamedParts_some (hsome : find closeTag pieces.flatten = some i) :
    partText .reasoning (streamedParts pieces) = pieces.flatten.take i ∧
      ∃ ends, pieces.flatten.drop (i + closeTag.length) =
        ends ++ partText .content (streamedParts pieces) ∧ ∀ c ∈ ends, isLineEnd c = true := by
  have h := splits_pushAll pieces
  unfold streamedParts
  generalize pushAll _ _ pieces = r at h ⊢
  cases hpart : r.2.part with
  | reasoning =>
      rw [(h.reasons hpart).none] at hsome
      cases hsome
  | content =>
      obtain ⟨hans, hpending⟩ := h.answers hpart
      obtain rfl := Option.some.inj (hans.found.symm.trans hsome)
      unfold ReasoningStreamSplitter.finish
      dsimp only
      rw [if_pos hpending, List.append_nil]
      exact ⟨hans.reasoning_eq, hans.content_eq⟩

/-- One text with one leading and one trailing `'\n'` more or less than another. -/
def UpToNewlines (long short : Bytes) : Prop :=
  ∃ lead trail : Bytes, (lead = [] ∨ lead = [0x0A]) ∧ (trail = [] ∨ trail = [0x0A]) ∧
    long = lead ++ short ++ trail

theorem eraseFront_spec (text : Bytes) :
    ∃ lead : Bytes, (lead = [] ∨ lead = [0x0A]) ∧ text = lead ++ eraseFront text := by
  unfold eraseFront
  split_ifs with h
  · exact ⟨[0x0A], .inr rfl, (List.cons_head?_tail h).symm⟩
  · exact ⟨[], .inl rfl, rfl⟩

theorem popBack_spec (text : Bytes) :
    ∃ trail : Bytes, (trail = [] ∨ trail = [0x0A]) ∧ text = popBack text ++ trail := by
  unfold popBack
  split_ifs with h
  · exact ⟨[0x0A], .inr rfl, (List.dropLast_append_getLast? _ h).symm⟩
  · exact ⟨[], .inl rfl, (List.append_nil text).symm⟩

/-- What `split_reasoning` makes of a text after the opening tag. -/
theorem splitReasoning_openTag (text : Bytes) :
    match find closeTag text with
    | none => UpToNewlines text (splitReasoning (openTag ++ text)).reasoning ∧
        (splitReasoning (openTag ++ text)).content = []
    | some close => UpToNewlines (text.take close) (splitReasoning (openTag ++ text)).reasoning ∧
        (splitReasoning (openTag ++ text)).content =
          (text.drop (close + closeTag.length)).dropWhile isLineEnd := by
  have hopen : find openTag (openTag ++ text) = some 0 := by
    rw [find_eq_some_iff]
    exact ⟨Nat.zero_le _, List.prefix_append _ _, fun j hj => absurd hj (Nat.not_lt_zero j)⟩
  unfold splitReasoning
  simp only [hopen, Nat.zero_add, List.drop_left]
  cases find closeTag text with
  | none =>
      obtain ⟨lead, hlead, heq⟩ := eraseFront_spec text
      exact ⟨⟨lead, [], hlead, .inl rfl, by rw [List.append_nil]; exact heq⟩, rfl⟩
  | some close =>
      obtain ⟨lead, hlead, heq⟩ := eraseFront_spec (text.take close)
      obtain ⟨trail, htrail, heq'⟩ := popBack_spec (eraseFront (text.take close))
      refine ⟨⟨lead, trail, hlead, htrail, ?_⟩, rfl⟩
      rw [List.append_assoc, ← heq']
      exact heq

/-- A text pushed up to its first tag, and then the rest: the content keeps its
line ends. -/
theorem streamedParts_cut (hsome : find closeTag text = some i) :
    partText .content (streamedParts [text.take (i + closeTag.length),
      text.drop (i + closeTag.length)]) = text.drop (i + closeTag.length) := by
  obtain ⟨hle, hat, hfirst⟩ := find_eq_some_iff.mp hsome
  have hend := hat.le closeTag_ne_nil
  generalize hpiece : text.take (i + closeTag.length) = piece
  have hlen : piece.length = i + closeTag.length := by
    rw [← hpiece, List.length_take, min_eq_left hend]
  have hfind : find closeTag piece = some i := by
    have htext : text = piece ++ text.drop (i + closeTag.length) := by
      rw [← hpiece, List.take_append_drop]
    rw [htext] at hat hfirst
    refine find_eq_some_iff.mpr ⟨by omega, hat.of_append hlen.ge, ?_⟩
    intro j hj hat'
    exact hfirst j hj (hat'.append _)
  have hpush : ReasoningStreamSplitter.push (.new true) piece =
      ReasoningStreamSplitter.pushReasoning ⟨true, .reasoning, piece⟩ := rfl
  obtain ⟨-, hcontent, hstate⟩ :=
    ReasoningStreamSplitter.pushReasoning_some (s := ⟨true, .reasoning, piece⟩) hfind
  obtain ⟨-, hrest, hdone⟩ := ReasoningStreamSplitter.pushContent_spec
    ⟨true, .content, text.drop (i + closeTag.length)⟩
  have hpush' : ReasoningStreamSplitter.push ⟨true, .content, []⟩
      (text.drop (i + closeTag.length)) = ReasoningStreamSplitter.pushContent
        ⟨true, .content, text.drop (i + closeTag.length)⟩ := rfl
  unfold streamedParts
  rw [pushAll_cons, pushAll_cons, pushAll_nil, hpush, hstate, hpush', hdone]
  simp only [partText_append, hcontent, hrest, List.append_nil]
  rw [List.drop_eq_nil_of_le hlen.le]
  exact List.append_nil _

/-- **The split does not depend on the cuts**, the first tag goes out in neither
part, and both parts are those of `split_reasoning`, exactly for the texts in
which no line end follows the first closing tag. -/
theorem reasoningSplit (text : Bytes) :
    (∀ pieces : List Bytes, pieces.flatten = text →
      (∀ pieces' : List Bytes, pieces'.flatten = text → ∀ part,
        partText part (streamedParts pieces) = partText part (streamedParts pieces')) ∧
      (∀ i, find closeTag text = some i →
        partText .reasoning (streamedParts pieces) = text.take i ∧
          partText .content (streamedParts pieces) <:+ text.drop (i + closeTag.length)) ∧
      partText .content (streamedParts pieces) = (splitReasoning (openTag ++ text)).content ∧
      UpToNewlines (partText .reasoning (streamedParts pieces))
        (splitReasoning (openTag ++ text)).reasoning) ↔
    ∀ i, find closeTag text = some i → ∀ c ∈ (text.drop (i + closeTag.length)).head?,
      isLineEnd c = false := by
  have hsplit := splitReasoning_openTag text
  constructor
  · intro h i hi c hc
    rw [hi] at hsplit
    obtain ⟨-, -, hcontent, -⟩ := h [text.take (i + closeTag.length),
      text.drop (i + closeTag.length)] (by simp)
    rw [streamedParts_cut hi, hsplit.2] at hcontent
    obtain ⟨tail, htail⟩ := List.head?_eq_some_iff.mp hc
    rw [htail] at hcontent
    cases hend : isLineEnd c with
    | false => rfl
    | true =>
        rw [List.dropWhile_cons_of_pos hend] at hcontent
        have := congrArg List.length hcontent
        have hle := (List.dropWhile_sublist isLineEnd (l := tail)).length_le
        rw [List.length_cons] at this
        omega
  · intro hcond
    cases hf : find closeTag text with
    | none =>
        rw [hf] at hsplit
        rintro pieces rfl
        obtain ⟨hreason, hcontent⟩ := streamedParts_none hf
        rw [hreason, hcontent]
        refine ⟨?_, nofun, hsplit.2.symm, hsplit.1⟩
        intro pieces' hflat part
        obtain ⟨hreason', hcontent'⟩ := streamedParts_none (hflat ▸ hf)
        cases part with
        | reasoning => rw [hreason, hreason', hflat]
        | content => rw [hcontent, hcontent']
    | some close =>
        rw [hf] at hsplit
        -- nothing is dropped after the tag, however much of it had arrived
        have hall : ∀ pieces : List Bytes, pieces.flatten = text →
            partText .reasoning (streamedParts pieces) = text.take close ∧
              partText .content (streamedParts pieces) = text.drop (close + closeTag.length) := by
          rintro pieces rfl
          obtain ⟨hreason, ends, hdrop, hends⟩ := streamedParts_some hf
          refine ⟨hreason, ?_⟩
          cases ends with
          | nil => exact hdrop.symm
          | cons c ends =>
              have hc := hcond close hf c (by rw [hdrop]; rfl)
              rw [hends c List.mem_cons_self] at hc
              cases hc
        have hdropped : (text.drop (close + closeTag.length)).dropWhile isLineEnd =
            text.drop (close + closeTag.length) := by
          cases hrest : text.drop (close + closeTag.length) with
          | nil => rfl
          | cons c tail =>
              refine List.dropWhile_cons_of_neg ?_
              rw [hcond close hf c (by rw [hrest]; rfl)]
              exact Bool.false_ne_true
        intro pieces hflat
        obtain ⟨hreason, hcontent⟩ := hall pieces hflat
        rw [hreason, hcontent]
        refine ⟨?_, ?_, ?_, hsplit.1⟩
        · intro pieces' hflat' part
          obtain ⟨hreason', hcontent'⟩ := hall pieces' hflat'
          cases part with
          | reasoning => rw [hreason, hreason']
          | content => rw [hcontent, hcontent']
        · intro i hi
          obtain rfl := Option.some.inj hi
          exact ⟨rfl, List.suffix_refl _⟩
        · rw [hsplit.2, hdropped]

/-- The text `</think>` and a line end and `x`: pushed whole, the content is `x`;
with the tag pushed first, it begins with the line end. -/
theorem reasoningSplit_lineEnd :
    [closeTag ++ [0x0A, 0x78]].flatten = [closeTag, [0x0A, 0x78]].flatten ∧
      partText .content (streamedParts [closeTag ++ [0x0A, 0x78]]) = [0x78] ∧
      partText .content (streamedParts [closeTag, [0x0A, 0x78]]) = [0x0A, 0x78] ∧
      (splitReasoning (openTag ++ closeTag ++ [0x0A, 0x78])).content = [0x78] := by
  decide +kernel

end Qw3.Stream
