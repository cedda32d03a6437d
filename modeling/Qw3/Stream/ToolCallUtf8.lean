import Qw3.Stream.Encoding
import Qw3.Stream.ToolCallCuts

/-!
# The pieces of a valid text are valid

* `Readable` — what the parser has and what will still come is valid UTF-8.
* `readable_pass` — every pass keeps it, and emits valid pieces.
* `chunkInvariance` — **the parser does not depend on the cuts**, and emits valid
  pieces of a valid text.
-/

namespace Qw3.Stream

open Search Chunks

/-! ## Trimmed ASCII bytes -/

variable {text rest a b : Bytes} {c : UInt8}

theorem ValidUtf8.tail (h : ValidUtf8 (c :: a)) (hc : isAscii c = true) : ValidUtf8 a :=
  (h.split_ascii (a := []) hc).2

theorem ValidUtf8.eraseFront (h : ValidUtf8 (a ++ b)) (hc : isAscii c = true) :
    ValidUtf8 (ParameterTail.eraseFront c a ++ b) := by
  unfold ParameterTail.eraseFront
  split_ifs with hfront
  · obtain ⟨tail, rfl⟩ := List.head?_eq_some_iff.mp hfront
    exact h.tail hc
  · exact h

theorem ValidUtf8.popBack (h : ValidUtf8 a) (hc : isAscii c = true) :
    ValidUtf8 (ParameterTail.popBack c a) := by
  unfold ParameterTail.popBack
  split_ifs with hback
  · obtain ⟨front, rfl⟩ := List.getLast?_eq_some_iff.mp hback
    rw [List.dropLast_concat]
    exact (h.split_ascii hc).1
  · exact h

theorem isAscii_of_isSpace (h : isSpace c = true) : isAscii c = true := by
  unfold isSpace at h
  unfold isAscii
  simp only [decide_eq_true_eq, UInt8.le_iff_toNat_le, UInt8.lt_iff_toNat_lt] at *
  rcases h with rfl | ⟨-, h⟩
  · decide
  · exact h.trans_lt (by decide)

theorem ValidUtf8.dropWhile (h : ValidUtf8 (a ++ b)) : ValidUtf8 (a.dropWhile isSpace ++ b) := by
  induction a with
  | nil => exact h
  | cons c a ih =>
      by_cases hc : isSpace c = true
      · rw [List.dropWhile_cons_of_pos hc]
        exact ih (h.tail (isAscii_of_isSpace hc))
      · rw [List.dropWhile_cons_of_neg hc]
        exact h

/-! ## Pieces of a value -/

namespace ParameterTail

theorem validUtf8_emitParameterPrefix (t : ParameterTail) (final : Bool)
    (h : ValidUtf8 (t.bytes ++ rest)) :
    ValidUtf8 ((t.emitParameterPrefix final).bytes ++ rest) := by
  have hcr : ∀ bytes : Bytes, ValidUtf8 (bytes ++ rest) →
      ValidUtf8 ((trimCr final bytes).bytes ++ rest) := by
    intro bytes hbytes
    unfold trimCr
    by_cases hnil : bytes = []
    · rw [if_pos hnil]
      rwa [hnil] at hbytes
    · rw [if_neg hnil]
      exact hbytes.eraseFront (by decide)
  unfold emitParameterPrefix
  cases t.leadingTrim with
  | done => exact h
  | optionalCr => exact hcr t.bytes h
  | optionalLf =>
      dsimp only
      unfold trimLf
      by_cases hnil : t.bytes = []
      · rw [if_pos hnil]
        rwa [hnil] at h
      · rw [if_neg hnil]
        exact hcr _ (h.eraseFront (by decide))

/-- A piece of a valid value is valid, and so is what is left of the value. -/
theorem validUtf8_process (t : ParameterTail) (piece : Bytes)
    (h : ValidUtf8 (t.bytes ++ (piece ++ rest))) :
    ValidUtf8 (t.processParameterData piece false).1 ∧
      ValidUtf8 ((t.processParameterData piece false).2.bytes ++ rest) := by
  rw [← List.append_assoc] at h
  have hfront := validUtf8_emitParameterPrefix { t with bytes := t.bytes ++ piece } false h
  unfold processParameterData emitSafeParameterTail
  generalize emitParameterPrefix { t with bytes := t.bytes ++ piece } false = u at hfront
  by_cases hdone : u.leadingTrim ≠ .done
  · rw [if_pos hdone]
    exact ⟨validUtf8_nil, hfront⟩
  · rw [if_neg hdone, if_neg Bool.false_ne_true]
    dsimp only
    rcases Nat.eq_zero_or_pos (startOfLastUtf8Codepoints u.bytes 2) with hzero | hpos
    · rw [hzero]
      exact ⟨validUtf8_nil, hfront⟩
    · obtain ⟨⟨c, hc, hcont⟩, -⟩ := startsAt_startOfLast hpos
      rw [← List.take_append_drop (startOfLastUtf8Codepoints u.bytes 2) u.bytes,
        List.append_assoc] at hfront
      apply hfront.split
      rw [List.drop_eq_getElem_cons (List.getElem?_eq_some_iff.mp hc).1]
      rintro x ⟨⟩
      rw [(List.getElem?_eq_some_iff.mp hc).2]
      exact hcont

/-- The end of a valid value is valid. -/
theorem validUtf8_process_final (t : ParameterTail) (piece : Bytes)
    (h : ValidUtf8 (t.bytes ++ (piece ++ rest))) (hrest : AtBoundary rest) :
    ValidUtf8 (t.processParameterData piece true).1 := by
  rw [← List.append_assoc] at h
  have hfront := validUtf8_emitParameterPrefix { t with bytes := t.bytes ++ piece } true h
  unfold processParameterData emitSafeParameterTail
  generalize emitParameterPrefix { t with bytes := t.bytes ++ piece } true = u at hfront
  by_cases hdone : u.leadingTrim ≠ .done
  · rw [if_pos hdone]
    exact validUtf8_nil
  · rw [if_neg hdone, if_pos rfl]
    exact ((hfront.split hrest).1.popBack (by decide)).popBack (by decide)

end ParameterTail

/-! ## Passes -/

namespace CanonicalToolCallStreamParser

variable {p q : CanonicalToolCallStreamParser} {events : List ToolCallStreamEvent} {again : Bool}

/-- What the parser has and what will still come is valid: in a value, with the
tail of the value. -/
def Readable (p : CanonicalToolCallStreamParser) (rest : Bytes) : Prop :=
  ValidUtf8 ((if p.state = .parameterValue then p.tail.bytes else []) ++ (p.pending ++ rest))

/-- The pieces of values are valid. -/
def ValidPieces (events : List ToolCallStreamEvent) : Prop :=
  ∀ event ∈ events, event.kind = .parameterData → ValidUtf8 event.value

theorem validPieces_nil : ValidPieces [] := by
  intro event hmem
  cases hmem

theorem validPieces_append {es es' : List ToolCallStreamEvent} (h : ValidPieces es)
    (h' : ValidPieces es') : ValidPieces (es ++ es') := by
  intro event hmem
  rcases List.mem_append.mp hmem with hmem | hmem
  · exact h event hmem
  · exact h' event hmem

theorem validPieces_dataEvents {value : Bytes} (h : ValidUtf8 value) :
    ValidPieces (dataEvents value) := by
  intro event hmem hkind
  unfold dataEvents at hmem
  split_ifs at hmem
  · cases hmem
  · rw [List.mem_singleton.mp hmem]
    exact h

/-- **A pass of a valid text emits valid pieces, and leaves a valid text.** -/
theorem readable_pass (h : p.Readable rest) (hpass : p.pass = (events, q, again)) :
    ValidPieces events ∧ (¬ q.Over → q.Readable rest) := by
  by_cases hvalue : p.state = .parameterValue
  · unfold Readable at h
    rw [if_pos hvalue] at h
    cases hfind : find parameterCloseTag p.pending with
    | some close =>
        obtain ⟨rfl, hq⟩ := Prod.mk.inj ((pass_close hvalue hfind).symm.trans hpass)
        obtain ⟨rfl, -⟩ := Prod.mk.inj hq
        obtain ⟨hle, hat, -⟩ := find_eq_some_iff.mp hfind
        have hsplit := (occursAt_iff_append hle).mp hat
        obtain ⟨after, hafter⟩ := hsplit
        obtain ⟨inner, htag⟩ : ∃ inner, parameterCloseTag = 0x3C :: inner ++ [0x3E] :=
          ⟨parameterCloseTag.tail.dropLast, by simp [tag_bytes]⟩
        have hlen : (p.pending.take close ++ parameterCloseTag).length =
            close + parameterCloseTag.length := by
          rw [List.length_append, List.length_take, min_eq_left hle]
        have hdrop : p.pending.drop (close + parameterCloseTag.length) = after := by
          rw [← hlen]
          nth_rewrite 2 [hafter]
          exact List.drop_left
        constructor
        · have hbytes : ValidUtf8 (p.tail.bytes ++ (p.pending.take close ++
              (parameterCloseTag ++ after ++ rest))) := by
            rw [hafter] at h
            simpa only [List.append_assoc] using h
          have hboundary : AtBoundary (parameterCloseTag ++ after ++ rest) := by
            rw [htag]
            exact atBoundary_ascii (by decide) _
          have hvalid := p.tail.validUtf8_process_final _ hbytes hboundary
          refine validPieces_append (validPieces_dataEvents hvalid) ?_
          simp [ValidPieces]
        · intro _
          unfold Readable afterValue
          rw [if_neg nofun, hdrop]
          rw [hafter, htag] at h
          simp only [List.append_assoc, List.cons_append, List.nil_append] at h ⊢
          rw [← List.append_assoc] at h
          have hinner := (h.split_ascii (by decide)).2
          exact (hinner.split_ascii (by decide)).2
    | none =>
        unfold pass passParameterValue at hpass
        rw [if_pos hvalue] at hpass
        simp only [hfind] at hpass
        split_ifs at hpass
        · obtain ⟨rfl, rfl, -⟩ := hpass
          refine ⟨validPieces_nil, fun _ => ?_⟩
          unfold Readable
          rwa [if_pos hvalue]
        · obtain ⟨rfl, rfl, -⟩ := hpass
          generalize p.pending.length - longestSuffixPrefix p.pending parameterCloseTag = n
          rw [← List.take_append_drop n p.pending, List.append_assoc] at h
          obtain ⟨hpiece, hleft⟩ := p.tail.validUtf8_process (p.pending.take n) h
          refine ⟨validPieces_dataEvents hpiece, fun _ => ?_⟩
          unfold Readable
          rw [if_pos hvalue]
          exact hleft
  · unfold Readable at h
    rw [if_neg hvalue, List.nil_append] at h
    have hspace := h.dropWhile
    rw [pass_tag hvalue] at hpass
    unfold passTag at hpass
    cases hjudge : judge p.state (p.pending.dropWhile isSpace) with
    | wait =>
        simp only [hjudge] at hpass
        obtain ⟨rfl, rfl, -⟩ := hpass
        refine ⟨validPieces_nil, fun _ => ?_⟩
        unfold Readable
        rwa [if_neg hvalue, List.nil_append]
    | reject message =>
        simp only [hjudge] at hpass
        obtain ⟨rfl, rfl, -⟩ := hpass
        exact ⟨validPieces_nil, fun hover => absurd (.inl rfl) hover⟩
    | take count events' next =>
        simp only [hjudge] at hpass
        obtain ⟨rfl, rfl, -⟩ := hpass
        obtain ⟨-, -, front, hfront⟩ := judge_take hjudge
        refine ⟨fun event hmem hkind => absurd hkind (judge_events hjudge event hmem), fun _ => ?_⟩
        have hleft : ValidUtf8 ((p.pending.dropWhile isSpace).drop count ++ rest) := by
          rw [← List.take_append_drop count (p.pending.dropWhile isSpace), hfront] at hspace
          simp only [List.append_assoc, List.cons_append, List.nil_append] at hspace
          exact (hspace.split_ascii (by decide)).2
        unfold Readable
        dsimp only
        split_ifs
        · exact hleft
        · exact hleft

theorem readable_parse (h : ¬ p.Over → p.Readable rest) :
    ValidPieces p.parse.1 ∧ (¬ p.parse.2.Over → p.parse.2.Readable rest) := by
  induction hn : p.pending.length using Nat.strong_induction_on generalizing p with
  | _ n ih =>
  by_cases hover : p.Over
  · rw [parse_over hover]
    exact ⟨validPieces_nil, fun hp => absurd hover hp⟩
  · rcases hp : p.pass with ⟨events, q, again⟩
    obtain ⟨hevents, hq⟩ := readable_pass (h hover) hp
    cases again with
    | false =>
        rw [parse_stop hover hp]
        exact ⟨hevents, hq⟩
    | true =>
        rw [parse_again hover hp]
        obtain ⟨hrest, hend⟩ := ih _ (hn ▸ pass_length hp) hq rfl
        exact ⟨validPieces_append hevents hrest, hend⟩

theorem readable_feed {piece : Bytes} (h : ¬ p.Over → p.Readable (piece ++ rest)) :
    ValidPieces (p.feed piece).1 ∧ (¬ (p.feed piece).2.Over → (p.feed piece).2.Readable rest) := by
  by_cases hover : p.Over
  · rw [feed_over hover]
    exact ⟨validPieces_nil, fun hp => absurd hover hp⟩
  · rw [feed_eq hover]
    refine readable_parse fun _ => ?_
    have hp := h hover
    unfold Readable at hp ⊢
    unfold more
    rwa [List.append_assoc p.pending piece rest]

/-- A valid text, whose pieces may be cut anywhere. -/
theorem readable_pushAll (pieces : List Bytes) (h : ¬ p.Over → p.Readable pieces.flatten) :
    ValidPieces (pushAll feed p pieces).1 ∧
      (¬ (pushAll feed p pieces).2.Over → (pushAll feed p pieces).2.Readable []) := by
  induction pieces generalizing p with
  | nil => exact ⟨validPieces_nil, h⟩
  | cons piece pieces ih =>
      rw [List.flatten_cons] at h
      obtain ⟨hevents, hq⟩ := readable_feed h
      obtain ⟨hrest, hend⟩ := ih hq
      rw [pushAll_cons]
      exact ⟨validPieces_append hevents hrest, hend⟩

theorem validPieces_streamedCall {pieces : List Bytes} (h : ValidUtf8 pieces.flatten) :
    ValidPieces (streamedCall pieces).1 := by
  obtain ⟨hevents, hend⟩ := readable_pushAll (p := {}) pieces fun _ => h
  refine validPieces_append hevents ?_
  have hlast : ValidPieces (feed (pushAll feed {} pieces).2 []).1 := (readable_feed hend).1
  unfold finish
  dsimp only
  split_ifs
  · exact hlast
  · exact hlast

/-- **The parser does not depend on the cuts**: two cuts of a text end in one
state, with one error, and with the same events once adjacent pieces of values are
merged; and of a valid UTF-8 text, every piece that is emitted is valid. -/
theorem chunkInvariance (text : Bytes) (pieces pieces' : List Bytes) (h : pieces.flatten = text)
    (h' : pieces'.flatten = text) :
    (streamedCall pieces).2.state = (streamedCall pieces').2.state ∧
      (streamedCall pieces).2.error = (streamedCall pieces').2.error ∧
      merge (streamedCall pieces).1 = merge (streamedCall pieces').1 ∧
      (ValidUtf8 text → ∀ event ∈ (streamedCall pieces).1, event.kind = .parameterData →
        ValidUtf8 event.value) := by
  obtain ⟨hmerge, hstate, herror⟩ := streamedCall_flatten pieces
  obtain ⟨hmerge', hstate', herror'⟩ := streamedCall_flatten pieces'
  rw [h] at hmerge hstate herror
  rw [h'] at hmerge' hstate' herror'
  refine ⟨hstate.trans hstate'.symm, herror.trans herror'.symm, hmerge.trans hmerge'.symm, ?_⟩
  intro hvalid
  exact validPieces_streamedCall (h ▸ hvalid)

/-- A call with one value, cut inside of a letter and of the closing tag. -/
theorem chunkInvariance_call :
    (streamedCall ["<tool_call><function=f><parameter=k>\nab".toUTF8.toList, [0xC3],
        [0xA9, 0x0A, 0x3C], "/parameter></function></tool_call>".toUTF8.toList]).2.state =
      (streamedCall ["<tool_call><function=f><parameter=k>\nab".toUTF8.toList ++ [0xC3, 0xA9, 0x0A,
        0x3C] ++ "/parameter></function></tool_call>".toUTF8.toList]).2.state :=
  (chunkInvariance _ _ _ rfl (by simp only [List.flatten_cons, List.append_assoc,
    List.cons_append, List.nil_append])).1

end CanonicalToolCallStreamParser

end Qw3.Stream
